import Tenure.Lowering.Build
import Tenure.Proofs.ControlFlow
import Mathlib.Logic.Relation
import Mathlib.Order.Nat
import Mathlib.Tactic.Common

/-!
# Functions under construction

A function is built by edits: an instruction is appended to a block that is still
open, a block is ended, a block is added, a phi is given one more pair.  Stack
slots are the exception: they go to the entry, also after it was ended.

`Edit` lists the edits that are allowed, and `Built` relates a function to what
comes of it by them.  A block keeps a log of what was written to it, and by
`Built.logged` the logs of a function that is made by edits are in order: a block
that has an end was ended once, and nothing but stack slots came after it.

A piece of code is written from one open block on; `Evolves` says what it leaves
behind: all other blocks as they were, the first one longer, and of the blocks it
has touched only some still open.
-/

namespace Tenure.Ir

variable {i : Inst} {reg j : Nat} {x y : Operand}

theorem Op.incoming?_of_isAlloca {op : Op} (h : op.isAlloca) : op.incoming? = none := by
  cases op <;> simp_all [Op.isAlloca, Op.incoming?]

theorem Op.write_ne_term (op : Op) : op.write ≠ .term := by
  cases op <;> exact nofun

/-- An instruction in a later state: the same, but for new pairs of a phi. -/
def Inst.Becomes (i i' : Inst) : Prop :=
  i' = i ∨ ∃ pairs more, i.op = .phi pairs ∧ i' = { i with op := .phi (pairs ++ more) }

theorem Inst.Becomes.refl (i : Inst) : i.Becomes i := .inl rfl

variable {i' : Inst}

theorem Inst.Becomes.id_eq (h : i.Becomes i') : i'.id = i.id := by
  obtain rfl | ⟨_, _, _, rfl⟩ := h <;> rfl

theorem Inst.Becomes.write_eq (h : i.Becomes i') : i'.op.write = i.op.write := by
  obtain rfl | ⟨_, _, hop, rfl⟩ := h
  · rfl
  · rw [hop]
    rfl

theorem Inst.Becomes.trans {i'' : Inst} (h : i.Becomes i') (h' : i'.Becomes i'') :
    i.Becomes i'' := by
  obtain rfl | ⟨pairs, more, hop, rfl⟩ := h
  · exact h'
  · obtain rfl | ⟨pairs', more', hop', rfl⟩ := h'
    · exact .inr ⟨pairs, more, hop, rfl⟩
    · obtain rfl : pairs ++ more = pairs' := by injection hop'
      exact .inr ⟨pairs, more ++ more', hop, by simp⟩

theorem Inst.Becomes.eq_of_not_phi (h : i.Becomes i') (hphi : i.op.incoming? = none) : i' = i := by
  obtain rfl | ⟨_, _, hop, rfl⟩ := h
  · rfl
  · rw [hop] at hphi
    exact absurd hphi (by simp [Op.incoming?])

namespace Func

variable {f : Func} {b c : Nat} {name : String} {ty : Ty} {op : Op} {t : Term}

/-! ## What an edit changes -/

@[simp] theorem blocks_size_push : (f.push b name ty op).blocks.size = f.blocks.size := by
  simp [push]

@[simp] theorem blocks_size_terminate : (f.terminate b t).blocks.size = f.blocks.size := by
  simp [terminate]

@[simp] theorem blocks_size_addBlock : (f.addBlock name).blocks.size = f.blocks.size + 1 := by
  simp [addBlock]

@[simp] theorem blocks_size_addIncoming :
    (f.addIncoming b reg x y).blocks.size = f.blocks.size := by
  simp [addIncoming]

theorem code_push (hb : b < f.blocks.size) :
    (f.push b name ty op).code c =
      if c = b then f.code b ++ [{ id := f.nextReg, name, ty, op }] else f.code c := by
  unfold code push
  rw [Array.getElem?_modify]
  by_cases h : b = c
  · subst h
    simp [hb]
  · rw [if_neg h, if_neg (fun h' => h h'.symm)]

@[simp] theorem term?_push : (f.push b name ty op).term? c = f.term? c := by
  unfold term? push
  rw [Array.getElem?_modify]
  split <;> cases f.blocks[c]? <;> rfl

@[simp] theorem code_terminate : (f.terminate b t).code c = f.code c := by
  unfold code terminate
  rw [Array.getElem?_modify]
  split <;> cases f.blocks[c]? <;> rfl

theorem term?_terminate (hb : b < f.blocks.size) :
    (f.terminate b t).term? c = if c = b then some t else f.term? c := by
  unfold term? terminate
  rw [Array.getElem?_modify]
  by_cases h : b = c
  · subst h
    simp [hb]
  · rw [if_neg h, if_neg (fun h' => h h'.symm)]

theorem code_of_size_le (h : f.blocks.size ≤ b) : f.code b = [] := by
  unfold code
  rw [Array.getElem?_eq_none h]
  rfl

theorem term?_of_size_le (h : f.blocks.size ≤ b) : f.term? b = none := by
  unfold term?
  rw [Array.getElem?_eq_none h]
  rfl

theorem lt_size_of_has (h : f.Has b j i) : b < f.blocks.size := by
  by_contra hb
  unfold Has at h
  rw [code_of_size_le (by omega)] at h
  simp at h

theorem lt_size_of_term? (h : f.term? b = some t) : b < f.blocks.size := by
  by_contra hb
  rw [term?_of_size_le (by omega)] at h
  exact absurd h (by simp)

@[simp] theorem code_addBlock : (f.addBlock name).code c = f.code c := by
  unfold code addBlock
  rcases Nat.lt_trichotomy c f.blocks.size with h | rfl | h
  · rw [Array.getElem?_push_lt h, Array.getElem?_eq_getElem h]
  · simp
  · rw [Array.getElem?_eq_none (by simp; omega), Array.getElem?_eq_none (by omega)]

@[simp] theorem term?_addBlock : (f.addBlock name).term? c = f.term? c := by
  unfold term? addBlock
  rcases Nat.lt_trichotomy c f.blocks.size with h | rfl | h
  · rw [Array.getElem?_push_lt h, Array.getElem?_eq_getElem h]
  · simp
  · rw [Array.getElem?_eq_none (by simp; omega), Array.getElem?_eq_none (by omega)]

/-- The instruction with one more pair, if it is the phi of a register. -/
def extendPhi (reg : Nat) (x y : Operand) (i : Inst) : Inst :=
  if i.id = reg then
    match i.op with
    | .phi incoming => { i with op := .phi (incoming ++ [(x, y)]) }
    | _ => i
  else i

@[simp] theorem extendPhi_id (reg : Nat) (x y : Operand) (i : Inst) :
    (extendPhi reg x y i).id = i.id := by
  unfold extendPhi
  split
  · split <;> rfl
  · rfl

theorem code_addIncoming :
    (f.addIncoming b reg x y).code c =
      if c = b then (f.code b).map (extendPhi reg x y) else f.code c := by
  unfold code addIncoming
  rw [Array.getElem?_modify]
  by_cases h : b = c
  · subst h
    rw [if_pos rfl, if_pos rfl]
    cases f.blocks[b]? with
    | none => rfl
    | some block =>
      simp only [Option.map_some, Option.getD_some, Array.toList_map, List.map_inj_left]
      rintro ⟨id, _, _, op⟩ _
      unfold extendPhi
      cases op <;> rfl
  · rw [if_neg h, if_neg (fun h' => h h'.symm)]

@[simp] theorem term?_addIncoming : (f.addIncoming b reg x y).term? c = f.term? c := by
  unfold term? addIncoming
  rw [Array.getElem?_modify]
  split <;> cases f.blocks[c]? <;> rfl

/-! ## Edits -/

/-- The edits that building a function is made of. -/
inductive Edit (f : Func) : Func → Prop where
  /-- an instruction goes to the end of a block that is still open -/
  | push {b : Nat} {n : String} {t : Ty} {o : Op} (hb : b < f.blocks.size)
      (hopen : f.term? b = none) : Edit f (f.push b n t o)
  /-- a stack slot goes to the entry -/
  | slot {name : String} {ty elem : Ty} (hb : 0 < f.blocks.size) :
      Edit f (f.push 0 name ty (.alloca elem))
  /-- a block that is still open is ended -/
  | terminate {b : Nat} {t : Term} (hb : b < f.blocks.size) (hopen : f.term? b = none) :
      Edit f (f.terminate b t)
  | addBlock {name : String} : Edit f (f.addBlock name)
  /-- a phi takes a value from a block that is still open -/
  | addIncoming {b reg a : Nat} {x : Operand} (ha : a < f.blocks.size)
      (hopen : f.term? a = none) : Edit f (f.addIncoming b reg x (.block a))

/-- A function is made from another by edits. -/
def Built : Func → Func → Prop := Relation.ReflTransGen Edit

/-! ## What building never takes back -/

theorem extendPhi_becomes (reg : Nat) (x y : Operand) (i : Inst) :
    i.Becomes (extendPhi reg x y i) := by
  obtain ⟨id, name, ty, op⟩ := i
  unfold extendPhi
  split
  · cases op with
    | phi pairs => exact .inr ⟨pairs, [(x, y)], rfl, rfl⟩
    | _ => exact .inl rfl
  · exact .inl rfl

theorem has_push (hb : b < f.blocks.size) :
    (f.push b name ty op).Has c j i ↔
      f.Has c j i ∨
        c = b ∧ j = (f.code b).length ∧ i = { id := f.nextReg, name, ty, op } := by
  unfold Has
  rw [code_push hb]
  by_cases hc : c = b
  · subst hc
    rw [if_pos rfl]
    rcases Nat.lt_trichotomy j (f.code c).length with hj | rfl | hj
    · rw [List.getElem?_append_left hj]
      constructor
      · exact .inl
      · rintro (h | ⟨-, rfl, -⟩)
        · exact h
        · omega
    · simp [eq_comm]
    · rw [List.getElem?_eq_none (by simp; omega), List.getElem?_eq_none (by omega)]
      constructor
      · simp
      · rintro (h | ⟨-, rfl, -⟩)
        · exact h
        · omega
  · simp [hc]

theorem has_terminate : (f.terminate b t).Has c j i ↔ f.Has c j i := by
  unfold Has
  rw [code_terminate]

theorem has_addBlock : (f.addBlock name).Has c j i ↔ f.Has c j i := by
  unfold Has
  rw [code_addBlock]

theorem has_addIncoming :
    (f.addIncoming b reg x y).Has c j i ↔
      ∃ i0, f.Has c j i0 ∧ i = if c = b then extendPhi reg x y i0 else i0 := by
  unfold Has
  rw [code_addIncoming]
  by_cases hc : c = b
  · subst hc
    rw [if_pos rfl, List.getElem?_map, Option.map_eq_some_iff]
    simp [eq_comm (a := i)]
  · simp [hc]

/-- A function in a later state of its construction: every instruction is still at
its place and every end is still there; a block that had its end has grown only by
stack slots, and only if it is the entry.  New instructions have new registers. -/
structure Keeps (f f' : Func) : Prop where
  name : f'.name = f.name
  result : f'.result = f.result
  params : f'.params = f.params
  size : f.blocks.size ≤ f'.blocks.size
  regs : f.nextReg ≤ f'.nextReg
  fresh : ∀ b j i, f'.Has b j i → (f.code b).length ≤ j → f.nextReg ≤ i.id
  has : ∀ b j i, f.Has b j i → ∃ i', f'.Has b j i' ∧ i.Becomes i'
  ends : ∀ b t, f.term? b = some t → f'.term? b = some t
  tail : ∀ b t j i, f.term? b = some t → f'.Has b j i → (f.code b).length ≤ j →
    b = 0 ∧ i.op.isAlloca

theorem Keeps.refl (f : Func) : f.Keeps f where
  name := rfl
  result := rfl
  params := rfl
  size := Nat.le_refl _
  regs := Nat.le_refl _
  fresh _ _ _ hi hj := absurd (List.getElem?_eq_some_iff.mp hi).1 (Nat.not_lt.mpr hj)
  has _ _ i hi := ⟨i, hi, .refl i⟩
  ends _ _ ht := ht
  tail _ _ _ _ _ hi hj := absurd (List.getElem?_eq_some_iff.mp hi).1 (Nat.not_lt.mpr hj)

/-- An instruction at a place that was filled before has come from the one there. -/
theorem Keeps.has_of_lt {f' : Func} (h : f.Keeps f') (hi : f'.Has b j i)
    (hj : j < (f.code b).length) : ∃ i0, f.Has b j i0 ∧ i0.Becomes i := by
  have hi0 : f.Has b j (f.code b)[j] := List.getElem?_eq_getElem hj
  obtain ⟨i', hi', hb⟩ := h.has b j _ hi0
  obtain rfl : i = i' := Option.some.inj (hi.symm.trans hi')
  exact ⟨_, hi0, hb⟩

theorem Keeps.trans {f' f'' : Func} (h : f.Keeps f') (h' : f'.Keeps f'') : f.Keeps f'' where
  name := h'.name.trans h.name
  result := h'.result.trans h.result
  params := h'.params.trans h.params
  size := h.size.trans h'.size
  regs := h.regs.trans h'.regs
  fresh b j i hi hj := by
    by_cases hj' : (f'.code b).length ≤ j
    · exact h.regs.trans (h'.fresh b j i hi hj')
    · obtain ⟨i', hi', hb⟩ := h'.has_of_lt hi (Nat.lt_of_not_le hj')
      rw [hb.id_eq]
      exact h.fresh b j i' hi' hj
  has b j i hi := by
    obtain ⟨i', hi', hb⟩ := h.has b j i hi
    obtain ⟨i'', hi'', hb'⟩ := h'.has b j i' hi'
    exact ⟨i'', hi'', hb.trans hb'⟩
  ends b t ht := h'.ends b t (h.ends b t ht)
  tail b t j i ht hi hj := by
    by_cases hj' : (f'.code b).length ≤ j
    · exact h'.tail b t j i (h.ends b t ht) hi hj'
    · -- the instruction was there in the middle state already
      obtain ⟨i', hi', hb⟩ := h'.has_of_lt hi (Nat.lt_of_not_le hj')
      obtain ⟨hb0, ha⟩ := h.tail b t j i' ht hi' hj
      refine ⟨hb0, ?_⟩
      rw [hb.eq_of_not_phi (Op.incoming?_of_isAlloca ha)]
      exact ha

theorem fresh_push (hb : b < f.blocks.size)
    (hi : (f.push b name ty op).Has c j i) (hj : (f.code c).length ≤ j) : f.nextReg ≤ i.id := by
  rcases (has_push hb).mp hi with hi | ⟨-, -, rfl⟩
  · exact (Keeps.refl f).fresh c j i hi hj
  · exact Nat.le_refl _

theorem Edit.keeps {f' : Func} (h : f.Edit f') : f.Keeps f' := by
  cases h with
  | @push b name ty op hb hopen =>
    refine ⟨rfl, rfl, rfl, by simp, Nat.le_succ _, fun c j i hi hj => fresh_push hb hi hj,
      fun c j i hi => ⟨i, (has_push hb).mpr (.inl hi), .refl i⟩,
      fun c t ht => by simpa using ht, fun c t j i ht hi hj => ?_⟩
    rcases (has_push hb).mp hi with hi | ⟨rfl, -, -⟩
    · exact (Keeps.refl f).tail c t j i ht hi hj
    · rw [hopen] at ht
      exact absurd ht (by simp)
  | slot hb =>
    refine ⟨rfl, rfl, rfl, by simp, Nat.le_succ _, fun c j i hi hj => fresh_push hb hi hj,
      fun c j i hi => ⟨i, (has_push hb).mpr (.inl hi), .refl i⟩,
      fun c t ht => by simpa using ht, fun c t j i ht hi hj => ?_⟩
    rcases (has_push hb).mp hi with hi | ⟨rfl, -, rfl⟩
    · exact (Keeps.refl f).tail c t j i ht hi hj
    · exact ⟨rfl, rfl⟩
  | @terminate b t hb hopen =>
    refine ⟨rfl, rfl, rfl, by simp, Nat.le_refl _,
      fun c j i hi hj => (Keeps.refl f).fresh c j i (has_terminate.mp hi) hj,
      fun c j i hi => ⟨i, has_terminate.mpr hi, .refl i⟩, ?_,
      fun c t j i ht hi hj => (Keeps.refl f).tail c t j i ht (has_terminate.mp hi) hj⟩
    intro c t' ht'
    rw [term?_terminate hb]
    split
    · next hcb =>
      subst hcb
      rw [hopen] at ht'
      exact absurd ht' (by simp)
    · exact ht'
  | addBlock =>
    exact ⟨rfl, rfl, rfl, by simp, Nat.le_refl _,
      fun c j i hi hj => (Keeps.refl f).fresh c j i (has_addBlock.mp hi) hj,
      fun c j i hi => ⟨i, has_addBlock.mpr hi, .refl i⟩,
      fun c t ht => by simpa using ht,
      fun c t j i ht hi hj => (Keeps.refl f).tail c t j i ht (has_addBlock.mp hi) hj⟩
  | addIncoming ha hopen =>
    refine ⟨rfl, rfl, rfl, by simp, Nat.le_refl _, fun c j i hi hj => ?_,
      fun c j i hi => ⟨_, has_addIncoming.mpr ⟨i, hi, rfl⟩, ?_⟩,
      fun c t ht => by simpa using ht, fun c t j i ht hi hj => ?_⟩
    · obtain ⟨i0, hi0, -⟩ := has_addIncoming.mp hi
      exact absurd (List.getElem?_eq_some_iff.mp hi0).1 (Nat.not_lt.mpr hj)
    · split
      · exact extendPhi_becomes ..
      · exact .refl i
    · obtain ⟨i0, hi0, -⟩ := has_addIncoming.mp hi
      exact absurd (List.getElem?_eq_some_iff.mp hi0).1 (Nat.not_lt.mpr hj)

theorem Built.keeps {f' : Func} (h : Built f f') : f.Keeps f' := by
  induction h with
  | refl => exact .refl f
  | tail _ hedit ih => exact ih.trans hedit.keeps

/-! ## The order of writes -/

variable {k : Nat} {block : Block}

/-- The log of a block that is ended once, and that takes nothing but stack slots behind its end,
if it is the entry, and nothing at all if it is not. -/
def EndsOnce (k : Nat) (writes : List Write) : Prop :=
  ∃ before after, writes = before ++ .term :: after ∧ .term ∉ before ∧
    ∀ w ∈ after, w = .slot ∧ k = 0

/-- The log of a block tells of its instructions, and of its end as soon as it has one. -/
structure Logged (k : Nat) (block : Block) : Prop where
  insts : block.writes.filter (· ≠ .term) = block.insts.toList.map (·.op.write)
  opened : block.term = none → .term ∉ block.writes
  ended : block.term.isSome → EndsOnce k block.writes

theorem Logged.push (h : Logged k block) (i : Inst)
    (hi : block.term.isSome → i.op.write = .slot ∧ k = 0) : Logged k { block with
      insts := block.insts.push i
      writes := block.writes ++ [i.op.write] } where
  insts := by simpa [Op.write_ne_term] using h.insts
  opened hterm := by simpa [(Op.write_ne_term i.op).symm] using h.opened hterm
  ended hterm := by
    obtain ⟨before, after, hwrites, hbefore, hafter⟩ := h.ended hterm
    refine ⟨before, after ++ [i.op.write], by simp [hwrites], hbefore, fun w hw => ?_⟩
    rcases List.mem_append.mp hw with hw | hw
    · exact hafter w hw
    · exact List.mem_singleton.mp hw ▸ hi hterm

theorem Logged.terminate (h : Logged k block) (hopen : block.term = none) (t : Term) :
    Logged k { block with term := some t, writes := block.writes ++ [.term] } where
  insts := by simpa using h.insts
  opened := nofun
  ended _ := ⟨block.writes, [], rfl, h.opened hopen, nofun⟩

/-- A block that is changed in order leaves all logs in order. -/
theorem logged_modify {g : Block → Block}
    (h : ∀ k block, f.blocks[k]? = some block → Logged k block)
    (hg : ∀ block, f.blocks[b]? = some block → Logged b block → Logged b (g block)) :
    ∀ k block, (f.blocks.modify b g)[k]? = some block → Logged k block := by
  intro k block hblock
  rw [Array.getElem?_modify] at hblock
  split at hblock
  · next hk =>
    subst hk
    obtain ⟨old, hold, rfl⟩ := Option.map_eq_some_iff.mp hblock
    exact hg old hold (h _ old hold)
  · exact h k block hblock

theorem term_eq_none (hopen : f.term? b = none) (hblock : f.blocks[b]? = some block) :
    block.term = none := by
  simpa [term?, hblock] using hopen

theorem Edit.logged {f' : Func} (hedit : f.Edit f')
    (h : ∀ k block, f.blocks[k]? = some block → Logged k block) :
    ∀ k block, f'.blocks[k]? = some block → Logged k block := by
  cases hedit with
  | push hb hopen =>
    refine logged_modify h fun block hblock hlog => hlog.push _ fun hterm => ?_
    rw [term_eq_none hopen hblock] at hterm
    cases hterm
  | slot hb => exact logged_modify h fun block _ hlog => hlog.push _ fun _ => ⟨rfl, rfl⟩
  | @terminate b t hb hopen =>
    exact logged_modify h fun block hblock hlog => hlog.terminate (term_eq_none hopen hblock) t
  | addBlock =>
    intro k block hblock
    rw [Func.addBlock, Array.getElem?_push] at hblock
    split at hblock
    · obtain rfl := Option.some.inj hblock
      exact ⟨rfl, fun _ => List.not_mem_nil, nofun⟩
    · exact h k block hblock
  | addIncoming ha hopen =>
    refine logged_modify h fun block _ hlog => ⟨?_, hlog.opened, hlog.ended⟩
    rw [hlog.insts, Array.toList_map, List.map_map]
    exact List.map_congr_left fun i _ => (extendPhi_becomes _ _ _ i).write_eq.symm

theorem Built.logged {declared : Func} (h : Built declared f) (hempty : declared.blocks = #[]) :
    ∀ k block, f.blocks[k]? = some block → Logged k block := by
  induction h with
  | refl => simp [hempty]
  | tail _ hedit ih => exact hedit.logged ih

/-! ## What a piece of code leaves behind -/

/-- Instructions have been added to a list, with registers from a number on; none
of them is a phi. -/
def Longer (next : Nat) (old new : List Inst) : Prop :=
  ∃ extra, new = old ++ extra ∧ ∀ i ∈ extra, next ≤ i.id ∧ i.op.incoming? = none

theorem Longer.refl (next : Nat) (l : List Inst) : Longer next l l := ⟨[], by simp, by simp⟩

variable {l l' l'' : List Inst} {m n : Nat}

theorem Longer.trans (h : Longer m l l') (h' : Longer n l' l'') (hmn : m ≤ n) : Longer m l l'' := by
  obtain ⟨e, rfl, he⟩ := h
  obtain ⟨e', rfl, he'⟩ := h'
  refine ⟨e ++ e', by simp, fun i hi => ?_⟩
  rcases List.mem_append.mp hi with hi | hi
  · exact he i hi
  · exact ⟨hmn.trans (he' i hi).1, (he' i hi).2⟩

/-- Stack slots have been added to a block, if it is the entry. -/
def Slotted (next b : Nat) (old new : List Inst) : Prop :=
  ∃ tail, new = old ++ tail ∧ (∀ i ∈ tail, next ≤ i.id ∧ i.op.isAlloca) ∧ (b ≠ 0 → tail = [])

theorem Slotted.refl (next b : Nat) (l : List Inst) : Slotted next b l l :=
  ⟨[], by simp, by simp, by simp⟩

theorem Slotted.longer {next : Nat} (h : Slotted next b l l') : Longer next l l' := by
  obtain ⟨tail, rfl, htail, -⟩ := h
  exact ⟨tail, rfl, fun i hi => ⟨(htail i hi).1, Op.incoming?_of_isAlloca (htail i hi).2⟩⟩

theorem Slotted.trans (h : Slotted m b l l') (h' : Slotted n b l' l'') (hmn : m ≤ n) :
    Slotted m b l l'' := by
  obtain ⟨e, rfl, he, h0⟩ := h
  obtain ⟨e', rfl, he', h0'⟩ := h'
  refine ⟨e ++ e', by simp, fun i hi => ?_, fun hb => by simp [h0 hb, h0' hb]⟩
  rcases List.mem_append.mp hi with hi | hi
  · exact he i hi
  · exact ⟨hmn.trans (he' i hi).1, (he' i hi).2⟩

/-- Code has been written from an open block on; of the blocks it touched, those
of a set are still open. -/
structure Evolves (f0 : Func) (b0 : Nat) (f : Func) (O : Nat → Prop) : Prop where
  built : Built f0 f
  params : f.params = f0.params
  start : b0 < f0.blocks.size
  size : f0.blocks.size ≤ f.blocks.size
  regs : f0.nextReg ≤ f.nextReg
  /-- the open blocks are the first one or new ones -/
  opened : ∀ c, O c →
    (c = b0 ∨ f0.blocks.size ≤ c) ∧ c < f.blocks.size ∧ f.term? c = none
  kept : ∀ c < f0.blocks.size, c ≠ b0 →
    f.term? c = f0.term? c ∧ Slotted f0.nextReg c (f0.code c) (f.code c)
  first : Longer f0.nextReg (f0.code b0) (f.code b0)
  fresh : ∀ c, f0.blocks.size ≤ c → ∀ i ∈ f.code c, f0.nextReg ≤ i.id
  closed : ∀ c, c = b0 ∨ f0.blocks.size ≤ c → c < f.blocks.size → ¬ O c → (f.term? c).isSome

variable {f0 f' : Func} {b0 : Nat} {O O' : Nat → Prop}

/-- Only the entry takes stack slots, so another block stays as it was. -/
theorem Evolves.code_kept (h : Evolves f0 b0 f O) (hc : c < f0.blocks.size) (hne : c ≠ b0)
    (h0 : c ≠ 0) : f.code c = f0.code c := by
  obtain ⟨-, tail, hcode, -, htail⟩ := h.kept c hc hne
  rw [hcode, htail h0, List.append_nil]

theorem Evolves.refl (hb : b < f.blocks.size) (hopen : f.term? b = none) :
    Evolves f b f (· = b) where
  built := .refl
  params := rfl
  start := hb
  size := Nat.le_refl _
  regs := Nat.le_refl _
  opened c hc := ⟨.inl hc, hc ▸ hb, hc ▸ hopen⟩
  kept c _ _ := ⟨rfl, .refl _ _ _⟩
  first := .refl _ _
  fresh c hc i hi := by
    rw [code_of_size_le hc] at hi
    exact absurd hi (by simp)
  closed c hc hlt hO := by
    rcases hc with rfl | hc
    · exact absurd rfl hO
    · omega

theorem Evolves.congr (h : Evolves f0 b0 f O) (hO : ∀ c, O' c ↔ O c) : Evolves f0 b0 f O' := by
  have : O' = O := funext fun c => propext (hO c)
  rw [this]
  exact h

/-- Code written from one of the open blocks on. -/
theorem Evolves.continue (h : Evolves f0 b0 f O) (hb : O b) (h' : Evolves f b f' O') :
    Evolves f0 b0 f' (fun c => O c ∧ c ≠ b ∨ O' c) := by
  have hbw := (h.opened b hb).1
  refine ⟨h.built.trans h'.built, h'.params.trans h.params, h.start, h.size.trans h'.size,
    h.regs.trans h'.regs, ?_, ?_, ?_, ?_, ?_⟩
  · rintro c (⟨hc, hne⟩ | hc)
    · obtain ⟨hw, hlt, hopen⟩ := h.opened c hc
      refine ⟨hw, hlt.trans_le h'.size, ?_⟩
      rw [(h'.kept c hlt hne).1, hopen]
    · obtain ⟨hw, hlt, hopen⟩ := h'.opened c hc
      refine ⟨?_, hlt, hopen⟩
      rcases hw with rfl | hw
      · exact hbw
      · exact .inr (h.size.trans hw)
  · intro c hc hne
    have hcb : c ≠ b := by
      rintro rfl
      rcases hbw with hbw | hbw
      · exact hne hbw
      · omega
    obtain ⟨ht, hs⟩ := h.kept c hc hne
    obtain ⟨ht', hs'⟩ := h'.kept c (hc.trans_le h.size) hcb
    exact ⟨ht'.trans ht, hs.trans hs' h.regs⟩
  · by_cases hbb : b0 = b
    · subst hbb
      exact h.first.trans h'.first h.regs
    · exact h.first.trans (h'.kept b0 (h.start.trans_le h.size) hbb).2.longer h.regs
  · intro c hc i hi
    by_cases hlt : c < f.blocks.size
    · by_cases hcb : c = b
      · subst hcb
        obtain ⟨extra, heq, hextra⟩ := h'.first
        rw [heq] at hi
        rcases List.mem_append.mp hi with hi | hi
        · exact h.fresh c hc i hi
        · exact h.regs.trans (hextra i hi).1
      · obtain ⟨extra, heq, hextra⟩ := (h'.kept c hlt hcb).2.longer
        rw [heq] at hi
        rcases List.mem_append.mp hi with hi | hi
        · exact h.fresh c hc i hi
        · exact h.regs.trans (hextra i hi).1
    · exact h.regs.trans (h'.fresh c (by omega) i hi)
  · intro c hc hlt hO
    rw [not_or, not_and, not_not] at hO
    by_cases hltf : c < f.blocks.size
    · by_cases hcb : c = b
      · exact h'.closed c (.inl hcb) hlt hO.2
      · rw [(h'.kept c hltf hcb).1]
        exact h.closed c hc hltf fun hOc => hcb (hO.1 hOc)
    · exact h'.closed c (.inr (by omega)) hlt hO.2

/-- Code written on from the one open block. -/
theorem Evolves.trans (h : Evolves f0 b0 f (· = b)) (h' : Evolves f b f' O') :
    Evolves f0 b0 f' O' :=
  (h.continue (b := b) rfl h').congr fun c => by simp

theorem Evolves.addBlock {n : String} (h : Evolves f0 b0 f O) :
    Evolves f0 b0 (f.addBlock n) (fun c => O c ∨ c = f.blocks.size) where
  built := h.built.tail .addBlock
  params := h.params
  start := h.start
  size := by simpa using h.size.trans (Nat.le_succ _)
  regs := h.regs
  opened := by
    rintro c (hc | rfl)
    · obtain ⟨hw, hlt, hopen⟩ := h.opened c hc
      exact ⟨hw, by simp; omega, by simpa using hopen⟩
    · exact ⟨.inr h.size, by simp, by simpa using term?_of_size_le (Nat.le_refl _)⟩
  kept c hc hne := by simpa using h.kept c hc hne
  first := by simpa using h.first
  fresh c hc i hi := h.fresh c hc i (by simpa using hi)
  closed c hc hlt hO := by
    rw [not_or] at hO
    rw [blocks_size_addBlock] at hlt
    rw [term?_addBlock]
    exact h.closed c hc (by omega) hO.1

theorem Evolves.terminate (h : Evolves f0 b0 f O) (hb : O b) :
    Evolves f0 b0 (f.terminate b t) (fun c => O c ∧ c ≠ b) := by
  obtain ⟨hw, hlt, hopen⟩ := h.opened b hb
  refine ⟨h.built.tail (.terminate hlt hopen), h.params, h.start, by simpa using h.size, h.regs,
    ?_, ?_, by simpa using h.first, fun c hc i hi => h.fresh c hc i (by simpa using hi), ?_⟩
  · rintro c ⟨hc, hne⟩
    rw [blocks_size_terminate, term?_terminate hlt, if_neg hne]
    exact h.opened c hc
  · intro c hc hne
    have hcb : c ≠ b := by
      rintro rfl
      rcases hw with hw | hw
      · exact hne hw
      · omega
    rw [term?_terminate hlt, if_neg hcb, code_terminate]
    exact h.kept c hc hne
  · intro c hc hclt hO
    rw [blocks_size_terminate] at hclt
    rw [term?_terminate hlt]
    by_cases hcb : c = b
    · rw [if_pos hcb]; rfl
    · rw [if_neg hcb]
      exact h.closed c hc hclt fun hOc => hO ⟨hOc, hcb⟩

/-- An instruction goes to one of the open blocks; a phi only to a new one. -/
theorem Evolves.push {n : String} {t : Ty} {o : Op} (h : Evolves f0 b0 f O) (hb : O b)
    (hphi : b = b0 → o.incoming? = none) : Evolves f0 b0 (f.push b n t o) O := by
  obtain ⟨hw, hlt, hopen⟩ := h.opened b hb
  refine ⟨h.built.tail (.push hlt hopen), h.params, h.start, by simpa using h.size,
    h.regs.trans (Nat.le_succ _), ?_, ?_, ?_, ?_, ?_⟩
  · intro c hc
    simpa using h.opened c hc
  · intro c hc hne
    have hcb : c ≠ b := by
      rintro rfl
      rcases hw with hw | hw
      · exact hne hw
      · omega
    rw [term?_push, code_push hlt, if_neg hcb]
    exact h.kept c hc hne
  · rw [code_push hlt]
    split
    · next hbb =>
      subst hbb
      exact h.first.trans ⟨_, rfl, by simp [h.regs, hphi rfl]⟩ (Nat.le_refl _)
    · exact h.first
  · intro c hc i hi
    rw [code_push hlt] at hi
    split at hi
    · next hcb =>
      subst hcb
      rcases List.mem_append.mp hi with hi | hi
      · exact h.fresh c hc i hi
      · rw [List.mem_singleton.mp hi]
        exact h.regs
    · exact h.fresh c hc i hi
  · intro c hc hclt hO
    rw [term?_push]
    exact h.closed c hc (by simpa using hclt) hO

/-- A phi of a new block takes a value from a block that is still open. -/
theorem Evolves.addIncoming (h : Evolves f0 b0 f O) {head a : Nat} (ha : O a)
    (hhead : f0.blocks.size ≤ head) : Evolves f0 b0 (f.addIncoming head reg x (.block a)) O := by
  obtain ⟨-, hlt, hopen⟩ := h.opened a ha
  have hold : ∀ c < f0.blocks.size, (f.addIncoming head reg x (.block a)).code c = f.code c := by
    intro c hc
    rw [code_addIncoming, if_neg (by omega)]
  refine ⟨h.built.tail (.addIncoming hlt hopen), h.params, h.start, by simpa using h.size, h.regs,
    fun c hc => by simpa using h.opened c hc, ?_, ?_, ?_, ?_⟩
  · intro c hc hne
    rw [term?_addIncoming, hold c hc]
    exact h.kept c hc hne
  · rw [hold b0 h.start]
    exact h.first
  · intro c hc i hi
    obtain ⟨j, hj⟩ := List.mem_iff_getElem?.mp hi
    obtain ⟨i0, hi0, rfl⟩ := has_addIncoming.mp hj
    have hreg := h.fresh c hc i0 (List.mem_of_getElem? hi0)
    split
    · rwa [extendPhi_id]
    · exact hreg
  · intro c hc hclt hO
    rw [term?_addIncoming]
    exact h.closed c hc (by simpa using hclt) hO

/-- A stack slot goes to the entry, wherever the code is being written. -/
theorem Evolves.slot (h : Evolves f0 b0 f O) {elem : Ty} :
    Evolves f0 b0 (f.push 0 name ty (.alloca elem)) O := by
  have h0 : 0 < f.blocks.size := by have := h.start; have := h.size; omega
  have hnew : ∀ i ∈ [({ id := f.nextReg, name, ty, op := .alloca elem } : Inst)],
      f0.nextReg ≤ i.id ∧ i.op.isAlloca := by
    intro i hi
    rw [List.mem_singleton.mp hi]
    exact ⟨h.regs, rfl⟩
  refine ⟨h.built.tail (.slot h0), h.params, h.start, by simpa using h.size,
    h.regs.trans (Nat.le_succ _), ?_, ?_, ?_, ?_, ?_⟩
  · intro c hc
    simpa using h.opened c hc
  · intro c hc hne
    obtain ⟨ht, hs⟩ := h.kept c hc hne
    rw [term?_push, code_push h0]
    refine ⟨ht, ?_⟩
    split
    · next hc0 =>
      subst hc0
      exact hs.trans ⟨_, rfl, hnew, by simp⟩ (Nat.le_refl _)
    · exact hs
  · rw [code_push h0]
    split
    · next hb0 =>
      subst hb0
      have hslot : Slotted f0.nextReg 0 (f.code 0) (f.code 0 ++ _) := ⟨_, rfl, hnew, by simp⟩
      exact h.first.trans hslot.longer (Nat.le_refl _)
    · exact h.first
  · intro c hc i hi
    have hc0 : c ≠ 0 := by have := h.start; omega
    rw [code_push h0, if_neg hc0] at hi
    exact h.fresh c hc i hi
  · intro c hc hclt hO
    rw [term?_push]
    exact h.closed c hc (by simpa using hclt) hO

end Func
end Tenure.Ir
