import Tenure.Proofs.Forming

/-!
# Forks and loops

The ways in which lowering branches, as edits of a function: a `fork` ends a block
with a condition and two new blocks, a `lead` ends it with a jump to the head of a
loop, whose body and exit are new blocks too.  A counted loop goes on to fill the
head with its index, a phi that starts at zero, and `close` leads from the end of
the body back to the head.
-/

namespace Tenure.Ir.Func

variable {f : Func} {D : Dominators} {b c : Nat} {cond : Operand} {x y z : String}
variable {n d : Nat}

/-! ## Forks -/

/-- A block ends with a condition that leads to one of two new blocks. -/
def fork (f : Func) (b : Nat) (cond : Operand) (x y : String) : Func :=
  ((f.addBlock x).addBlock y).terminate b
    (.condBr cond (.block f.blocks.size) (.block (f.blocks.size + 1)))

@[simp] theorem blocks_size_fork : (f.fork b cond x y).blocks.size = f.blocks.size + 2 := by
  simp [fork]

@[simp] theorem code_fork : (f.fork b cond x y).code c = f.code c := by
  simp [fork]

theorem term?_fork (hb : b < f.blocks.size) :
    (f.fork b cond x y).term? c =
      if c = b then some (.condBr cond (.block f.blocks.size) (.block (f.blocks.size + 1)))
      else f.term? c := by
  unfold fork
  rw [term?_terminate (by simp; omega)]
  simp

/-- Both new blocks are dominated by the one before them. -/
def Dominators.fork (D : Dominators) (n b : Nat) : Dominators := (D.extend n b).extend (n + 1) b

theorem Dominators.fork_of_lt (hb : b < n) : D.fork n c b d ↔ D b d := by
  unfold fork
  rw [extend_of_ne (by omega), extend_of_ne (by omega)]

theorem Dominators.fork_left : D.fork n b n d ↔ d = n ∨ D b d := by
  unfold fork
  rw [extend_of_ne (by omega), extend_self]

theorem Dominators.fork_right (hb : b < n) : D.fork n b (n + 1) d ↔ d = n + 1 ∨ D b d := by
  unfold fork
  rw [extend_self, extend_of_ne (by omega)]

variable {last a head reg : Nat} {v : Operand}

theorem evolves_fork (hb : b < f.blocks.size) (hopen : f.term? b = none) :
    f.Evolves b (f.fork b v x y) (fun c => c = f.blocks.size ∨ c = f.blocks.size + 1) := by
  have h := ((Evolves.refl hb hopen).addBlock (n := x)).addBlock (n := y)
  refine (h.terminate (.inl (.inl rfl))).congr fun c => ?_
  rw [blocks_size_addBlock]
  omega

theorem Formed.fork (h : f.Formed D) (hb : b < f.blocks.size) (hopen : f.term? b = none)
    (hcond : f.Known (fun d _ => D b d) cond) :
    (f.fork b cond x y).Formed (D.fork f.blocks.size b) := by
  have hb' : b < (f.addBlock x).blocks.size := by simp; omega
  have h2 := (h.addBlock (n := x) hb).addBlock (n := y) hb'
  rw [blocks_size_addBlock] at h2
  refine h2.terminate (by simp; omega) (by simpa using hopen) ?_ ?_
  · intro v hv
    obtain rfl := List.mem_singleton.mp hv
    refine known_addBlock.mpr (known_addBlock.mpr (hcond.imp fun d _ _ hd => ?_))
    exact (Dominators.fork_of_lt hb).mpr hd
  · have hnew : ∀ c, f.blocks.size ≤ c → ∀ i ∈ ((f.addBlock x).addBlock y).code c,
        i.op.incoming? = none := by
      intro c hc i hi
      rw [code_addBlock, code_addBlock, code_of_size_le hc] at hi
      exact absurd hi (by simp)
    intro v hv
    rcases List.mem_cons.mp hv with rfl | hv
    · refine ⟨_, rfl, ⟨by omega, by simp only [blocks_size_addBlock]; omega, fun d hd => ?_⟩,
        hnew _ (Nat.le_refl _)⟩
      exact (Dominators.fork_left.mp hd).imp_right (Dominators.fork_of_lt hb).mpr
    · obtain rfl := List.mem_singleton.mp hv
      refine ⟨_, rfl, ⟨by omega, by simp, fun d hd => ?_⟩, hnew _ (Nat.le_succ _)⟩
      exact ((Dominators.fork_right hb).mp hd).imp_right (Dominators.fork_of_lt hb).mpr

/-! ## Heads of loops -/

/-- A block ends with a jump to the head of a loop, for which there are three new
blocks: head, body and exit. -/
def lead (f : Func) (b : Nat) (x y z : String) : Func :=
  (((f.addBlock x).addBlock y).addBlock z).terminate b (.br (.block f.blocks.size))

@[simp] theorem blocks_size_lead : (f.lead b x y z).blocks.size = f.blocks.size + 3 := by
  simp [lead]

@[simp] theorem code_lead : (f.lead b x y z).code c = f.code c := by
  simp [lead]

theorem term?_lead (hb : b < f.blocks.size) :
    (f.lead b x y z).term? c =
      if c = b then some (.br (.block f.blocks.size)) else f.term? c := by
  unfold lead
  rw [term?_terminate (by simp; omega)]
  simp

/-- The head is dominated by the block before it, body and exit by the head. -/
def Dominators.lead (D : Dominators) (n b : Nat) : Dominators :=
  ((D.extend n b).extend (n + 1) n).extend (n + 2) n

theorem Dominators.lead_of_lt (hb : b < n) : D.lead n c b d ↔ D b d := by
  unfold lead
  rw [extend_of_ne (by omega), extend_of_ne (by omega), extend_of_ne (by omega)]

theorem Dominators.lead_head : D.lead n b n d ↔ d = n ∨ D b d := by
  unfold lead
  rw [extend_of_ne (by omega), extend_of_ne (by omega), extend_self]

theorem Dominators.lead_body : D.lead n b (n + 1) d ↔ d = n + 1 ∨ D.lead n b n d := by
  rw [lead_head]
  unfold lead
  rw [extend_of_ne (by omega), extend_self, extend_self]

theorem Dominators.lead_exit : D.lead n b (n + 2) d ↔ d = n + 2 ∨ D.lead n b n d := by
  rw [lead_head]
  unfold lead
  rw [extend_self, extend_of_ne (by omega), extend_self]

theorem evolves_lead (hb : b < f.blocks.size) (hopen : f.term? b = none) :
    f.Evolves b (f.lead b x y z)
      (fun c => c = f.blocks.size ∨ c = f.blocks.size + 1 ∨ c = f.blocks.size + 2) := by
  have h := (((Evolves.refl hb hopen).addBlock (n := x)).addBlock (n := y)).addBlock
    (n := z)
  refine (h.terminate (.inl (.inl (.inl rfl)))).congr fun c => ?_
  simp only [blocks_size_addBlock]
  omega

theorem edge_lead (hb : b < f.blocks.size) (hopen : f.term? b = none) :
    (f.lead b x y z).Edge a c ↔ f.Edge a c ∨ a = b ∧ c = f.blocks.size := by
  unfold lead
  rw [edge_terminate (by simp; omega) (by simpa using hopen)]
  simp [Term.successors]

theorem Formed.lead (h : f.Formed D) (hb : b < f.blocks.size) (hopen : f.term? b = none) :
    (f.lead b x y z).Formed (D.lead f.blocks.size b) := by
  have h3 := ((h.addBlock (n := x) hb).addBlock (n := y) (c := f.blocks.size)
    (by simp)).addBlock (n := z) (c := f.blocks.size)
      (by simp only [blocks_size_addBlock]; omega)
  simp only [blocks_size_addBlock] at h3
  refine h3.terminate (by simp; omega) (by simpa using hopen) (by simp [Term.operands]) ?_
  intro v hv
  obtain rfl := List.mem_singleton.mp hv
  refine ⟨_, rfl, ⟨by omega, by simp; omega, fun d hd => ?_⟩, fun i hi => ?_⟩
  · exact (Dominators.lead_head.mp hd).imp_right (Dominators.lead_of_lt hb).mpr
  · simp only [code_addBlock] at hi
    rw [code_of_size_le (Nat.le_refl _)] at hi
    exact absurd hi (by simp)

/-! ## Counted loops -/

/-- The phi that is the index of a counted loop, before the loop is closed. -/
def loopIndex (f : Func) (b : Nat) : Inst :=
  { id := f.nextReg, ty := .i64, op := .phi [(.i64 0, .block b)] }

/-- The comparison of the index with the length. -/
def loopTest (f : Func) (length : Operand) : Inst :=
  { id := f.nextReg + 1, ty := .i1, op := .icmp .slt (.reg f.nextReg .i64) length }

/-- A block leads to a counted loop: its head has the index and compares it. -/
def count (f : Func) (b : Nat) (length : Operand) (x y z : String) : Func :=
  (((f.lead b x y z).push f.blocks.size "" .i64 (.phi [(.i64 0, .block b)])).push f.blocks.size ""
    .i1 (.icmp .slt (.reg f.nextReg .i64) length)).terminate f.blocks.size
      (.condBr (.reg (f.nextReg + 1) .i1) (.block (f.blocks.size + 1))
        (.block (f.blocks.size + 2)))

variable {length : Operand}

@[simp] theorem blocks_size_count : (f.count b length x y z).blocks.size = f.blocks.size + 3 := by
  simp [count]

theorem code_count :
    (f.count b length x y z).code c =
      if c = f.blocks.size then [f.loopIndex b, f.loopTest length] else f.code c := by
  unfold count
  rw [code_terminate, code_push (by simp), code_push (by simp), code_push (by simp), code_lead,
    code_lead, code_of_size_le (Nat.le_refl _), if_pos rfl]
  split <;> rfl

theorem term?_count (hb : b < f.blocks.size) :
    (f.count b length x y z).term? c =
      if c = f.blocks.size then some (.condBr (.reg (f.nextReg + 1) .i1)
        (.block (f.blocks.size + 1)) (.block (f.blocks.size + 2)))
      else if c = b then some (.br (.block f.blocks.size)) else f.term? c := by
  unfold count
  rw [term?_terminate (by simp), term?_push, term?_push, term?_lead hb]

theorem evolves_count (hb : b < f.blocks.size) (hopen : f.term? b = none) :
    f.Evolves b (f.count b v x y z)
      (fun c => c = f.blocks.size + 1 ∨ c = f.blocks.size + 2) := by
  have hne : f.blocks.size ≠ b := by omega
  have h := ((evolves_lead (x := x) (y := y) (z := z) hb hopen).push (n := "") (t := .i64)
    (o := .phi [(.i64 0, .block b)]) (.inl rfl) fun h => absurd h hne).push (n := "") (t := .i1)
    (o := .icmp .slt (.reg f.nextReg .i64) v) (.inl rfl) fun h => absurd h hne
  refine (h.terminate (.inl rfl)).congr fun c => ?_
  omega

theorem Formed.count (h : f.Formed D) (hb : b < f.blocks.size) (hopen : f.term? b = none)
    (hlength : f.Known (fun d _ => D b d) length) :
    (f.count b length x y z).Formed (D.lead f.blocks.size b) ∧
      (f.count b length x y z).Known (fun d _ => D.lead f.blocks.size b (f.blocks.size + 1) d)
        (.reg f.nextReg .i64) := by
  have hn : f.blocks.size < (f.lead b x y z).blocks.size := by simp
  -- the index: the only edge into the head is the one from before
  have h1 := (h.lead (x := x) (y := y) (z := z) hb hopen).pushPhi (n := "") (t := .i64)
    (l := [(.i64 0, .block b)]) hn (by rw [code_lead, code_of_size_le (Nat.le_refl _)])
    (by simp) (by
      intro v
      simp only [edge_lead hb hopen, List.map_cons, List.map_nil, List.mem_singleton]
      constructor
      · rintro rfl
        exact ⟨b, rfl, .inr ⟨rfl, trivial⟩⟩
      · rintro ⟨a, rfl, ⟨t, ht, hmem⟩ | ⟨rfl, -⟩⟩
        · obtain ⟨c, hc, -, hlt, -⟩ := h.targets a t ht _ hmem
          obtain rfl : f.blocks.size = c := by injection hc
          omega
        · rfl)
    (by simp [Known, Operand.i64])
  have hindex : ((f.lead b x y z).push f.blocks.size "" .i64 (.phi [(.i64 0, .block b)])).Known
      (fun d _ => D.lead f.blocks.size b f.blocks.size d) (.reg f.nextReg .i64) :=
    ⟨f.blocks.size, _, _, (has_push hn).mpr (.inr ⟨rfl, rfl, rfl⟩), rfl,
      Dominators.lead_head.mpr (.inl rfl)⟩
  have hbefore : (f.lead b x y z).Known (fun d _ => D.lead f.blocks.size b f.blocks.size d)
      length := by
    refine known_terminate.mpr (known_addBlock.mpr (known_addBlock.mpr (known_addBlock.mpr
      (hlength.imp fun d _ _ hd => ?_))))
    exact Dominators.lead_head.mpr (.inr hd)
  have hn1 : f.blocks.size <
      ((f.lead b x y z).push f.blocks.size "" .i64 (.phi [(.i64 0, .block b)])).blocks.size := by
    simp
  have h2 := h1.push (n := "") (t := .i1) (o := .icmp .slt (.reg f.nextReg .i64) length) hn1
    rfl (by
      intro v hv
      rcases List.mem_cons.mp hv with rfl | hv
      · exact hindex
      · obtain rfl := List.mem_singleton.mp hv
        exact known_push hn hbefore)
  refine ⟨h2.terminate (by simp) ?_ ?_ ?_, ?_⟩
  · rw [term?_push, term?_push, term?_lead hb, if_neg (by omega), term?_of_size_le (Nat.le_refl _)]
  · intro v hv
    obtain rfl := List.mem_singleton.mp hv
    exact ⟨f.blocks.size, _, _, (has_push hn1).mpr (.inr ⟨rfl, rfl, rfl⟩), rfl,
      Dominators.lead_head.mpr (.inl rfl)⟩
  · have hnew : ∀ c, f.blocks.size < c → ∀ i ∈ (((f.lead b x y z).push f.blocks.size "" .i64
        (.phi [(.i64 0, .block b)])).push f.blocks.size "" .i1
          (.icmp .slt (.reg f.nextReg .i64) length)).code c, i.op.incoming? = none := by
      intro c hc i hi
      rw [code_push hn1, if_neg (by omega), code_push hn, if_neg (by omega), code_lead,
        code_of_size_le (by omega)] at hi
      exact absurd hi (by simp)
    intro v hv
    rcases List.mem_cons.mp hv with rfl | hv
    · exact ⟨_, rfl, ⟨by omega, by simp, fun d hd => Dominators.lead_body.mp hd⟩,
        hnew _ (by omega)⟩
    · obtain rfl := List.mem_singleton.mp hv
      exact ⟨_, rfl, ⟨by omega, by simp, fun d hd => Dominators.lead_exit.mp hd⟩,
        hnew _ (by omega)⟩
  · refine known_terminate.mpr (known_push hn1 (hindex.imp fun d _ _ hd => ?_))
    exact Dominators.lead_body.mpr (.inr hd)

/-- The body of a counted loop ends: the index is counted up, and control goes
back to the head. -/
def close (f : Func) (head reg last : Nat) : Func :=
  ((f.push last "" .i64 (.bin .add (.reg reg .i64) (.i64 1))).addIncoming head reg
    (.reg f.nextReg .i64) (.block last)).terminate last (.br (.block head))

theorem built_close {r : Nat} (hlt : last < f.blocks.size) (hopen : f.term? last = none) :
    Built f (f.close a r last) :=
  Relation.ReflTransGen.refl.tail (.push hlt hopen)
    |>.tail (.addIncoming (by simpa using hlt) (by simpa using hopen))
    |>.tail (.terminate (by simpa using hlt) (by simpa using hopen))

theorem Evolves.close {f0 : Func} {b0 : Nat} {O : Nat → Prop} (h : f0.Evolves b0 f O)
    (hlast : O last) (hhead : f0.blocks.size ≤ head) :
    f0.Evolves b0 (f.close head reg last) (fun c => O c ∧ c ≠ last) :=
  ((h.push hlast fun _ => rfl).addIncoming hlast hhead).terminate hlast

theorem Formed.close (h : f.Formed D) {phi : Inst} {rest : List Inst}
    {incoming : List (Operand × Operand)} (hlt : last < f.blocks.size) (hopen : f.term? last = none)
    (hmay : Formed.MayBranch f D last head) (hindex : f.Known (fun d _ => D last d) (.reg reg .i64))
    (hne : last ≠ head) (hcode : f.code head = phi :: rest) (hphi : phi.op = .phi incoming)
    (hreg : phi.id = reg) (hrest : ∀ i ∈ rest, i.op.incoming? = none) :
    (f.close head reg last).Formed D := by
  have h1 := h.push (n := "") (t := .i64) (o := .bin .add (.reg reg .i64) (.i64 1)) hlt rfl
    (by
      intro v hv
      rcases List.mem_cons.mp hv with rfl | hv
      · exact hindex
      · obtain rfl := List.mem_singleton.mp hv
        trivial)
  refine h1.backEdge (by simpa using hlt) (by simpa using hopen) ?_ ?_ ?_ hphi hreg hrest
  · exact ⟨hmay.1, by simpa using hmay.2.1, hmay.2.2⟩
  · exact ⟨last, _, _, (has_push hlt).mpr (.inr ⟨rfl, rfl, rfl⟩), rfl, h.self last hlt⟩
  · rw [code_push hlt, if_neg (fun h => hne h.symm), hcode]

end Tenure.Ir.Func
