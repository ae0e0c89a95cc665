import Tenure.Proofs.Building

/-!
# Edits keep the form

Each edit of a function keeps its form, if what it adds is in order: the operands
of an instruction are known where it is appended, a branch goes only to blocks
whose listed dominators are those of the block it leaves, and the pairs of a phi
are the edges into its block.  The table of dominators only ever grows by the row
of a new block.
-/

namespace Tenure.Ir.Func

variable {f f' : Func} {D : Dominators} {b c : Nat} {name : String} {ty : Ty} {op : Op}
  {t : Term} {x : Operand} {P : Nat → Nat → Prop}

/-! ## Known operands -/

/-- An operand stays known when no instruction is lost. -/
theorem Known.grow (h : f.Known P x) (hp : f.params.length ≤ f'.params.length)
    (hcode : ∀ d j i, f.Has d j i → ∃ i', f'.Has d j i' ∧ i'.id = i.id) : f'.Known P x := by
  cases x with
  | const c => trivial
  | param i t => exact Nat.lt_of_lt_of_le h hp
  | reg id t =>
    obtain ⟨d, j, i, hi, hid, hP⟩ := h
    obtain ⟨i', hi', hid'⟩ := hcode d j i hi
    exact ⟨d, j, i', hi', hid'.trans hid, hP⟩
  | block b => exact h

variable {a n d : Nat}

/-- What is known in a block is known before any later instruction of it. -/
theorem Known.before (h : f.Known (fun d _ => D b d) x) (hn : (f.code b).length ≤ n) :
    f.Known (fun d k => d = b ∧ k < n ∨ d ≠ b ∧ D b d) x := by
  refine h.imp fun d j hj hd => ?_
  by_cases hdb : d = b
  · subst hdb
    exact .inl ⟨rfl, by omega⟩
  · exact .inr ⟨hdb, hd⟩

theorem known_push (hb : b < f.blocks.size) (h : f.Known P x) : (f.push b name ty op).Known P x :=
  h.grow (Nat.le_refl _) fun _ _ i hi => ⟨i, (has_push hb).mpr (.inl hi), rfl⟩

theorem known_terminate : (f.terminate b t).Known P x ↔ f.Known P x :=
  ⟨fun h => h.grow (Nat.le_refl _) fun _ _ i hi => ⟨i, has_terminate.mp hi, rfl⟩,
    fun h => h.grow (Nat.le_refl _) fun _ _ i hi => ⟨i, has_terminate.mpr hi, rfl⟩⟩

theorem known_addBlock : (f.addBlock name).Known P x ↔ f.Known P x :=
  ⟨fun h => h.grow (Nat.le_refl _) fun _ _ i hi => ⟨i, has_addBlock.mp hi, rfl⟩,
    fun h => h.grow (Nat.le_refl _) fun _ _ i hi => ⟨i, has_addBlock.mpr hi, rfl⟩⟩

/-! ## Edges -/

@[simp] theorem edge_push : (f.push b name ty op).Edge a c ↔ f.Edge a c := by
  simp [Edge]

@[simp] theorem edge_addBlock : (f.addBlock name).Edge a c ↔ f.Edge a c := by
  simp [Edge]

theorem edge_terminate (hb : b < f.blocks.size) (hopen : f.term? b = none) :
    (f.terminate b t).Edge a c ↔ f.Edge a c ∨ a = b ∧ .block c ∈ t.successors := by
  unfold Edge
  rw [term?_terminate hb]
  by_cases hab : a = b
  · subst hab
    simp [hopen]
  · simp [hab]

/-! ## Instructions -/

/-- An instruction whose operands are known is appended to a block.  If it is a
phi, it is the first of its block and has a pair for every edge into it. -/
theorem Formed.append (h : f.Formed D) (hb : b < f.blocks.size)
    (hops : ∀ x ∈ op.operands, f.Known (fun d _ => D b d) x)
    (hphi : ∀ incoming, op.incoming? = some incoming → f.code b = [] ∧
      (incoming.map (·.2)).Nodup ∧
      (∀ x, x ∈ incoming.map (·.2) ↔ ∃ a, x = .block a ∧ f.Edge a b) ∧
      ∀ p ∈ incoming, ∃ a, p.2 = .block a ∧ f.Known (fun d _ => D a d) p.1) :
    (f.push b name ty op).Formed D where
  self c hc := h.self c (by simpa using hc)
  entry c hc := h.entry c (by simpa using hc)
  root := h.root
  targets c t ht := by simpa using h.targets c t (by simpa using ht)
  below c j i hi := by
    rcases (has_push hb).mp hi with hi | ⟨-, -, rfl⟩
    · exact Nat.lt_succ_of_lt (h.below c j i hi)
    · exact Nat.lt_succ_self _
  unique c i d j x y hx hy hxy := by
    rcases (has_push hb).mp hx with hx' | ⟨rfl, rfl, rfl⟩ <;>
      rcases (has_push hb).mp hy with hy' | ⟨rfl, rfl, rfl⟩
    · exact h.unique c i d j x y hx' hy' hxy
    · exact absurd hxy (Nat.ne_of_lt (h.below c i x hx'))
    · exact absurd hxy.symm (Nat.ne_of_lt (h.below d j y hy'))
    · exact ⟨rfl, rfl⟩
  uses c j i hi x hx := by
    rcases (has_push hb).mp hi with hi | ⟨rfl, rfl, rfl⟩
    · exact known_push hb (h.uses c j i hi x hx)
    · exact known_push hb ((hops x hx).before (Nat.le_refl _))
  endUses c t ht x hx := known_push hb (h.endUses c t (by simpa using ht) x hx)
  phiFirst c j i hi hin k hk := by
    rcases (has_push hb).mp hi with hi | ⟨rfl, rfl, rfl⟩
    · obtain ⟨y, hy, hyin⟩ := h.phiFirst c j i hi hin k hk
      exact ⟨y, (has_push hb).mpr (.inl hy), hyin⟩
    · obtain ⟨incoming, hin⟩ := Option.isSome_iff_exists.mp hin
      rw [(hphi incoming hin).1] at hk
      exact absurd hk (Nat.not_lt_zero k)
  phiSources c j i incoming hi hin := by
    rcases (has_push hb).mp hi with hi | ⟨rfl, rfl, rfl⟩
    · simpa using h.phiSources c j i incoming hi hin
    · obtain ⟨-, hnodup, hsources, -⟩ := hphi incoming hin
      exact ⟨hnodup, fun x => by simpa using hsources x⟩
  phiUses c j i incoming hi hin p hp := by
    rcases (has_push hb).mp hi with hi | ⟨rfl, rfl, rfl⟩
    · obtain ⟨a, ha, hk⟩ := h.phiUses c j i incoming hi hin p hp
      exact ⟨a, ha, known_push hb hk⟩
    · obtain ⟨a, ha, hk⟩ := (hphi incoming hin).2.2.2 p hp
      exact ⟨a, ha, known_push hb hk⟩

theorem Formed.push {n : String} {t : Ty} {o : Op} (h : f.Formed D) (hb : b < f.blocks.size)
    (hphi : o.incoming? = none) (hops : ∀ x ∈ o.operands, f.Known (fun d _ => D b d) x) :
    (f.push b n t o).Formed D :=
  h.append hb hops fun incoming hin => by
    rw [hphi] at hin
    exact absurd hin (by simp)

/-- A phi at the head of an empty block, with a pair for every edge into it. -/
theorem Formed.pushPhi {n : String} {t : Ty} {l : List (Operand × Operand)} (h : f.Formed D)
    (hb : b < f.blocks.size) (hempty : f.code b = []) (hnodup : (l.map (·.2)).Nodup)
    (hsources : ∀ x, x ∈ l.map (·.2) ↔ ∃ a, x = .block a ∧ f.Edge a b)
    (huses : ∀ p ∈ l, ∃ a, p.2 = .block a ∧ f.Known (fun d _ => D a d) p.1) :
    (f.push b n t (.phi l)).Formed D :=
  h.append hb (by simp [Op.operands]) fun pairs hpairs => by
    obtain rfl : l = pairs := Option.some.inj hpairs
    exact ⟨hempty, hnodup, hsources, huses⟩

/-! ## Ends of blocks -/

/-- A block may branch to another if every listed dominator of the other is the
other itself or one of its own. -/
def Formed.MayBranch (f : Func) (D : Dominators) (b c : Nat) : Prop :=
  0 < c ∧ c < f.blocks.size ∧ ∀ d, D c d → d = c ∨ D b d

/-- A block that is still open is ended; where it goes, no phi waits for it. -/
theorem Formed.terminate (h : f.Formed D) (hb : b < f.blocks.size) (hopen : f.term? b = none)
    (hops : ∀ x ∈ t.operands, f.Known (fun d _ => D b d) x)
    (hnext : ∀ x ∈ t.successors, ∃ c, x = .block c ∧ Formed.MayBranch f D b c ∧
      ∀ i ∈ f.code c, i.op.incoming? = none) : (f.terminate b t).Formed D where
  self c hc := h.self c (by simpa using hc)
  entry c hc := h.entry c (by simpa using hc)
  root := h.root
  targets c t' ht' x hx := by
    rw [term?_terminate hb] at ht'
    rw [blocks_size_terminate]
    split at ht'
    · next hcb =>
      subst hcb
      obtain rfl : t = t' := Option.some.inj ht'
      obtain ⟨e, rfl, ⟨h0, hlt, hD⟩, -⟩ := hnext x hx
      exact ⟨e, rfl, h0, hlt, hD⟩
    · exact h.targets c t' ht' x hx
  below c j i hi := h.below c j i (has_terminate.mp hi)
  unique c i d j x y hx hy := h.unique c i d j x y (has_terminate.mp hx) (has_terminate.mp hy)
  uses c j i hi x hx := known_terminate.mpr (h.uses c j i (has_terminate.mp hi) x hx)
  endUses c t' ht' x hx := by
    rw [term?_terminate hb] at ht'
    refine known_terminate.mpr ?_
    split at ht'
    · next hcb =>
      subst hcb
      obtain rfl : t = t' := Option.some.inj ht'
      exact hops x hx
    · exact h.endUses c t' ht' x hx
  phiFirst c j i hi hin k hk := by
    obtain ⟨y, hy, hyin⟩ := h.phiFirst c j i (has_terminate.mp hi) hin k hk
    exact ⟨y, has_terminate.mpr hy, hyin⟩
  phiSources c j i incoming hi hin := by
    have hi' := has_terminate.mp hi
    obtain ⟨hnodup, hsources⟩ := h.phiSources c j i incoming hi' hin
    refine ⟨hnodup, fun x => (hsources x).trans ?_⟩
    -- the block of this phi is none of those the new end goes to
    have hnot : .block c ∉ t.successors := by
      intro hmem
      obtain ⟨e, he, -, hno⟩ := hnext _ hmem
      obtain rfl : c = e := by injection he
      have := hno i (List.mem_of_getElem? hi')
      rw [this] at hin
      exact absurd hin (by simp)
    simp [edge_terminate hb hopen, hnot]
  phiUses c j i incoming hi hin p hp := by
    obtain ⟨a, ha, hk⟩ := h.phiUses c j i incoming (has_terminate.mp hi) hin p hp
    exact ⟨a, ha, known_terminate.mpr hk⟩

/-! ## New blocks -/

/-- The table with a row for a new block, which another block dominates. -/
def Dominators.extend (D : Dominators) (n c : Nat) : Dominators :=
  fun b d => if b = n then d = n ∨ D c d else D b d

theorem Dominators.extend_of_ne (h : b ≠ n) : D.extend n c b d ↔ D b d := by
  simp [extend, h]

theorem Dominators.extend_self : D.extend n c n d ↔ d = n ∨ D c d := by
  simp [extend]

theorem Formed.addBlock {n : String} (h : f.Formed D) (hc : c < f.blocks.size) :
    (f.addBlock n).Formed (D.extend f.blocks.size c) where
  self b hb := by
    rw [blocks_size_addBlock] at hb
    by_cases hbn : b = f.blocks.size
    · subst hbn
      exact Dominators.extend_self.mpr (.inl rfl)
    · exact (Dominators.extend_of_ne hbn).mpr (h.self b (by omega))
  entry b hb := by
    rw [blocks_size_addBlock] at hb
    by_cases hbn : b = f.blocks.size
    · subst hbn
      exact Dominators.extend_self.mpr (.inr (h.entry c hc))
    · exact (Dominators.extend_of_ne hbn).mpr (h.entry b (by omega))
  root d hd := h.root d ((Dominators.extend_of_ne (by omega)).mp hd)
  targets b t ht x hx := by
    rw [term?_addBlock] at ht
    have hb := lt_size_of_term? ht
    obtain ⟨e, rfl, h0, hlt, hD⟩ := h.targets b t ht x hx
    refine ⟨e, rfl, h0, by rw [blocks_size_addBlock]; omega, fun d hd => ?_⟩
    rw [Dominators.extend_of_ne (by omega)] at hd ⊢
    exact hD d hd
  below b j i hi := h.below b j i (has_addBlock.mp hi)
  unique c i d j x y hx hy := h.unique c i d j x y (has_addBlock.mp hx) (has_addBlock.mp hy)
  uses b j i hi x hx := by
    have hi' := has_addBlock.mp hi
    have hb := lt_size_of_has hi'
    refine known_addBlock.mpr ((h.uses b j i hi' x hx).imp fun d k _ hdk => ?_)
    rwa [Dominators.extend_of_ne (by omega)]
  endUses b t ht x hx := by
    rw [term?_addBlock] at ht
    have hb := lt_size_of_term? ht
    refine known_addBlock.mpr ((h.endUses b t ht x hx).imp fun d k _ hdk => ?_)
    rwa [Dominators.extend_of_ne (by omega)]
  phiFirst b j i hi hin k hk := by
    obtain ⟨y, hy, hyin⟩ := h.phiFirst b j i (has_addBlock.mp hi) hin k hk
    exact ⟨y, has_addBlock.mpr hy, hyin⟩
  phiSources b j i incoming hi hin := by
    simpa using h.phiSources b j i incoming (has_addBlock.mp hi) hin
  phiUses b j i incoming hi hin p hp := by
    have hi' := has_addBlock.mp hi
    obtain ⟨a, ha, hk⟩ := h.phiUses b j i incoming hi' hin p hp
    refine ⟨a, ha, known_addBlock.mpr (hk.imp fun d _ _ hd => ?_)⟩
    -- the pair names a predecessor, which is an old block
    have hedge : f.Edge a b := by
      obtain ⟨a', ha', he⟩ := ((h.phiSources b j i incoming hi' hin).2 p.2).mp
        (List.mem_map_of_mem hp)
      rw [ha] at ha'
      obtain rfl : a = a' := by injection ha'
      exact he
    obtain ⟨t, ht, -⟩ := hedge
    have halt := lt_size_of_term? ht
    rwa [Dominators.extend_of_ne (by omega)]

/-! ## Back edges -/

/-- A block that is still open branches back to the head of a loop, whose one phi
takes a value from it. -/
theorem Formed.backEdge (h : f.Formed D) {head reg : Nat} {phi : Inst} {rest : List Inst}
    {incoming : List (Operand × Operand)} (ha : a < f.blocks.size) (hopen : f.term? a = none)
    (hmay : Formed.MayBranch f D a head) (hx : f.Known (fun d _ => D a d) x)
    (hcode : f.code head = phi :: rest) (hphi : phi.op = .phi incoming) (hreg : phi.id = reg)
    (hrest : ∀ i ∈ rest, i.op.incoming? = none) :
    ((f.addIncoming head reg x (.block a)).terminate a (.br (.block head))).Formed D := by
  have hsize : (f.addIncoming head reg x (.block a)).blocks.size = f.blocks.size :=
    blocks_size_addIncoming
  have ha' : a < (f.addIncoming head reg x (.block a)).blocks.size := by rwa [hsize]
  have hopen' : (f.addIncoming head reg x (.block a)).term? a = none := by
    rw [term?_addIncoming, hopen]
  -- the instructions are the old ones, except for the phi at the head
  have hhas : ∀ {c j i}, ((f.addIncoming head reg x (.block a)).terminate a
      (.br (.block head))).Has c j i →
      ∃ i0, f.Has c j i0 ∧ i.id = i0.id ∧
        (i = i0 ∧ (c = head → i0.op.incoming? = none) ∨ c = head ∧ j = 0 ∧ i0 = phi ∧
          i.op = .phi (incoming ++ [(x, .block a)])) := by
    intro c j i hi
    obtain ⟨i0, hi0, rfl⟩ := has_addIncoming.mp (has_terminate.mp hi)
    refine ⟨i0, hi0, ?_⟩
    by_cases hc : c = head
    · subst hc
      rw [if_pos rfl]
      refine ⟨extendPhi_id .., ?_⟩
      cases j with
      | zero =>
        have hp : i0 = phi := by
          unfold Has at hi0
          rw [hcode] at hi0
          exact (Option.some.inj hi0).symm
        subst hp
        refine .inr ⟨rfl, rfl, rfl, ?_⟩
        simp [extendPhi, hreg, hphi]
      | succ j =>
        have hmem : i0 ∈ rest := by
          unfold Has at hi0
          rw [hcode, List.getElem?_cons_succ] at hi0
          exact List.mem_of_getElem? hi0
        refine .inl ⟨?_, fun _ => hrest i0 hmem⟩
        have hno := hrest i0 hmem
        unfold extendPhi
        split
        · cases hop : i0.op <;> simp_all [Op.incoming?]
        · rfl
    · simp [hc]
  have hhas' : ∀ {c j i0}, f.Has c j i0 → ∃ i, ((f.addIncoming head reg x (.block a)).terminate a
      (.br (.block head))).Has c j i ∧ i.id = i0.id := by
    intro c j i0 hi0
    refine ⟨_, has_terminate.mpr (has_addIncoming.mpr ⟨i0, hi0, rfl⟩), ?_⟩
    split
    · exact extendPhi_id ..
    · rfl
  have hknown : ∀ {P y}, f.Known P y → ((f.addIncoming head reg x (.block a)).terminate a
      (.br (.block head))).Known P y :=
    fun hk => hk.grow (Nat.le_refl _) fun _ _ _ hi => hhas' hi
  have hedge : ∀ {c e}, ((f.addIncoming head reg x (.block a)).terminate a
      (.br (.block head))).Edge c e ↔ f.Edge c e ∨ c = a ∧ e = head := by
    intro c e
    rw [edge_terminate ha' hopen']
    simp [Edge, Term.successors]
  refine ⟨?_, ?_, h.root, ?_, ?_, ?_, ?_, ?_, ?_, ?_, ?_⟩
  · intro c hc
    exact h.self c (by simpa using hc)
  · intro c hc
    exact h.entry c (by simpa using hc)
  · intro c t ht y hy
    rw [term?_terminate ha'] at ht
    rw [blocks_size_terminate, hsize]
    split at ht
    · next hca =>
      subst hca
      obtain rfl := Option.some.inj ht
      obtain rfl := List.mem_singleton.mp hy
      exact ⟨head, rfl, hmay⟩
    · rw [term?_addIncoming] at ht
      exact h.targets c t ht y hy
  · intro c j i hi
    obtain ⟨i0, hi0, hid, -⟩ := hhas hi
    rw [hid]
    exact h.below c j i0 hi0
  · intro c i d j y z hy hz hyz
    obtain ⟨y0, hy0, hidy, -⟩ := hhas hy
    obtain ⟨z0, hz0, hidz, -⟩ := hhas hz
    exact h.unique c i d j y0 z0 hy0 hz0 (by rw [← hidy, ← hidz, hyz])
  · intro c j i hi y hy
    obtain ⟨i0, hi0, -, ⟨rfl, -⟩ | ⟨-, -, -, hop⟩⟩ := hhas hi
    · exact hknown (h.uses c j i hi0 y hy)
    · rw [hop] at hy
      exact absurd hy (by simp [Op.operands])
  · intro c t ht y hy
    rw [term?_terminate ha'] at ht
    split at ht
    · obtain rfl := Option.some.inj ht
      exact absurd hy (by simp [Term.operands])
    · rw [term?_addIncoming] at ht
      exact hknown (h.endUses c t ht y hy)
  · intro c j i hi hin k hk
    obtain ⟨i0, hi0, -, ⟨rfl, hne⟩ | ⟨rfl, rfl, -, -⟩⟩ := hhas hi
    · have hch : c ≠ head := by
        intro hch
        rw [hne hch] at hin
        exact absurd hin (by simp)
      obtain ⟨y, hy, hyin⟩ := h.phiFirst c j i hi0 hin k hk
      refine ⟨y, has_terminate.mpr (has_addIncoming.mpr ⟨y, hy, ?_⟩), hyin⟩
      rw [if_neg hch]
    · omega
  · intro c j i pairs hi hin
    obtain ⟨i0, hi0, -, ⟨rfl, hne⟩ | ⟨rfl, rfl, rfl, hop⟩⟩ := hhas hi
    · have hch : c ≠ head := by
        intro hch
        rw [hne hch] at hin
        exact absurd hin (by simp)
      obtain ⟨hnodup, hsources⟩ := h.phiSources c j i pairs hi0 hin
      refine ⟨hnodup, fun y => (hsources y).trans ?_⟩
      simp [hedge, hch]
    · rw [hop] at hin
      obtain rfl : incoming ++ [(x, Operand.block a)] = pairs := Option.some.inj hin
      obtain ⟨hnodup, hsources⟩ := h.phiSources c 0 i0 incoming hi0 (by rw [hphi]; rfl)
      -- the new pair is for a block that had no edge yet
      have hnew : Operand.block a ∉ incoming.map (·.2) := by
        rw [hsources]
        rintro ⟨a', ha', t, ht, -⟩
        obtain rfl : a = a' := by injection ha'
        rw [hopen] at ht
        exact absurd ht (by simp)
      refine ⟨?_, fun y => ?_⟩
      · rw [List.map_append, List.map_singleton]
        refine List.nodup_append.mpr ⟨hnodup, by simp, ?_⟩
        intro y hy z hz hyz
        rw [List.mem_singleton] at hz
        rw [hyz, hz] at hy
        exact hnew hy
      · rw [List.map_append, List.mem_append, hsources y]
        simp only [List.map_singleton, List.mem_singleton, hedge]
        constructor
        · rintro (⟨a', rfl, he⟩ | rfl)
          · exact ⟨a', rfl, .inl he⟩
          · exact ⟨a, rfl, .inr ⟨rfl, trivial⟩⟩
        · rintro ⟨a', rfl, he | ⟨rfl, -⟩⟩
          · exact .inl ⟨a', rfl, he⟩
          · exact .inr rfl
  · intro c j i pairs hi hin p hp
    obtain ⟨i0, hi0, -, ⟨rfl, hne⟩ | ⟨rfl, rfl, rfl, hop⟩⟩ := hhas hi
    · obtain ⟨a', ha', hk⟩ := h.phiUses c j i pairs hi0 hin p hp
      exact ⟨a', ha', hknown hk⟩
    · rw [hop] at hin
      obtain rfl : incoming ++ [(x, Operand.block a)] = pairs := Option.some.inj hin
      rcases List.mem_append.mp hp with hp | hp
      · obtain ⟨a', ha', hk⟩ := h.phiUses c 0 i0 incoming hi0 (by rw [hphi]; rfl) p hp
        exact ⟨a', ha', hknown hk⟩
      · obtain rfl := List.mem_singleton.mp hp
        exact ⟨a, rfl, hknown hx⟩

end Tenure.Ir.Func
