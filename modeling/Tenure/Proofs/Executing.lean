import Tenure.Proofs.EmittedValues
import Tenure.Proofs.Lifetimes
import Tenure.Proofs.Running

/-!
# Executing what was emitted

Lowering writes the code of a function in pieces, and the machine runs the
finished function.  A piece takes lowering from a state to another, and the
function under construction with it (`Extends`); the finished function has come
from there (`Within`), so what the piece wrote is found in it.

Two things are shared by all pieces and need not be mentioned by them.  Registers
are written once, so an operand keeps its value while later pieces run.  Stack
slots are all allocated in the entry of a function, those of later pieces as soon
as control leaves the entry; `Ready` says which of them are there.
-/

namespace Tenure.Lowering

open Ir (Ty Const Operand Op Term Func Inst)
open Interp (Call World Goal Value Memory Native)

variable {i : Inst} {size : Int64} {x : Operand} {v : Value}

/-! ## Pieces of code -/

/-- A piece of code has been written. -/
structure Extends (s : State) (f : Func) (s' : State) (f' : Func) : Prop where
  placed : Placed s' f'
  framed : Framed s s'
  block : s'.block = s.block ∨ f.blocks.size ≤ s'.block
  evolves : f.Evolves s.block f' (fun c => c = s'.block ∧ f'.term? c = none)

variable {s s' : State} {f f' : Func}

theorem Grown.toExtends {U V : List Operand} (h : Grown U V s f s' f') : Extends s f s' f' :=
  ⟨h.placed, h.framed, h.block, h.evolves⟩

theorem Extends.keeps (h : Extends s f s' f') : f.Keeps f' := h.evolves.built.keeps

/-! ## The finished function -/

/-- What a piece of code is seen from: the program, the finished module, the
registered functions, and how many calls are under way. -/
structure Setting where
  env : Env
  final : State
  natives : List (String × (List Value → Native))
  depth : Int

/-- A call runs in a setting. -/
structure Hosted (A : Interp.Fault → Prop) (T : Setting) (C : Call) : Prop where
  code : C.code = T.final.module
  natives : C.machine.natives = T.natives
  depth : C.machine.depth = T.depth
  ssa : C.body.IsSsa
  /-- a stack slot without a size ends the run in a fault that is allowed -/
  sized : ∀ j i elem, C.body.Has 0 j i → i.op = .alloca elem →
    ∀ e, Interp.sizeOf (elem.expand C.code.types) = .error e → A e

/-- Branches lead to blocks of the function. -/
theorem Hosted.target {A : Interp.Fault → Prop} {T : Setting} {C : Call} {b c : Nat} {t : Term}
    (h : Hosted A T C) (ht : C.body.term? b = some t) (hc : .block c ∈ t.successors) :
    c < C.body.blocks.size := by
  obtain ⟨c', hc', -, hlt⟩ := h.ssa.targets b t ht _ hc
  obtain rfl : c = c' := by injection hc'
  exact hlt

/-- The finished function has come from a state of its construction. -/
structure Within (T : Setting) (C : Call) (s : State) (f : Func) : Prop where
  tables : Tables s T.final
  keeps : f.Keeps C.body
  /-- what comes next in the current block is no phi -/
  plain : ∀ i, C.body.Has s.block (f.code s.block).length i → i.op.incoming? = none

variable {elem : Ty} {id j : Nat} {F : Func}

theorem incoming?_of_closed {C : Call} {b : Nat} {t : Term} (hk : f.Keeps C.body)
    (ht : f.term? b = some t) (hi : C.body.Has b j i) (hj : (f.code b).length ≤ j) :
    i.op.incoming? = none :=
  Ir.Op.incoming?_of_isAlloca (hk.tail b t j i ht hi hj).2

/-- What holds where a piece ends holds where it begins. -/
theorem Within.back {T : Setting} {C : Call} (h : Within T C s' f') (hx : Extends s f s' f') :
    Within T C s f where
  tables := hx.framed.toTables.trans h.tables
  keeps := hx.keeps.trans h.keeps
  plain i hi := by
    obtain ⟨extra, hcode, hextra⟩ := hx.evolves.first
    cases extra with
    | cons j js =>
      -- the piece has gone on with the block
      have hj : f'.Has s.block (f.code s.block).length j := by
        rw [Func.Has, hcode]
        simp
      obtain ⟨j', hj', hbecomes⟩ := h.keeps.has _ _ _ hj
      obtain rfl : i = j' := Option.some.inj (hi.symm.trans hj')
      have hplain := (hextra j (by simp)).2
      rw [hbecomes.eq_of_not_phi hplain]
      exact hplain
    | nil =>
      rw [List.append_nil] at hcode
      cases hend : f'.term? s.block with
      | some t => exact incoming?_of_closed h.keeps hend hi (by rw [hcode])
      | none =>
        -- the block is still open, so it is the current one
        by_cases hb : s.block = s'.block
        · refine h.plain i ?_
          rw [← hb, hcode]
          exact hi
        · have hclosed := hx.evolves.closed s.block (.inl rfl)
            (Nat.lt_of_lt_of_le hx.evolves.start hx.evolves.size) (fun h => hb h.1)
          rw [hend] at hclosed
          cases hclosed

/-- Where a block is ended, what comes next is a stack slot. -/
theorem Within.ofClosed {T : Setting} {C : Call} {t : Term} (htables : Tables s T.final)
    (hkeeps : f.Keeps f') (hcode : f'.code s.block = f.code s.block)
    (ht : f'.term? s.block = some t) (h : f'.Keeps C.body) : Within T C s f where
  tables := htables
  keeps := hkeeps.trans h
  plain i hi := incoming?_of_closed h ht hi (by rw [hcode])

/-- The configuration of a call at the end of what has been written so far. -/
def standing (C : Call) (s : State) (f : Func) (w : World) : Interp.Config :=
  C.here s.block (f.code s.block).length w

/-! ## Stack slots -/

/-- A register holds the address of a live stack object for values of a type. -/
structure SlotAt (C : Call) (w : World) (id : Nat) (elem : Ty) (o : Nat) : Prop where
  reg : w.regs[id]? = some (.ptr { base := .object o .stack })
  object : ∃ obj, w.memory.objects[o]? = some obj ∧ obj.region = .stack ∧ obj.dead = false ∧
    Interp.sizeOf (elem.expand C.code.types) = .ok obj.size
  mem : o ∈ w.slots

/-- A register belongs to a stack slot that has been allocated when control is at a
position of a block. -/
def IsSlot (F : Func) (b k id : Nat) : Prop :=
  ∃ j i, F.Has 0 j i ∧ i.op.isAlloca ∧ i.id = id ∧ (b = 0 → j < k)

/-- The stack slots that are there when control is at a position of a block. -/
structure Ready (C : Call) (b k : Nat) (w : World) : Prop where
  slot : ∀ j i elem, C.body.Has 0 j i → i.op = .alloca elem → (b = 0 → j < k) →
    ∃ o, SlotAt C w i.id elem o
  /-- different slots are different objects -/
  apart : ∀ id id' o, IsSlot C.body b k id → IsSlot C.body b k id' →
    w.regs[id]? = some (.ptr { base := .object o .stack }) →
    w.regs[id']? = some (.ptr { base := .object o .stack }) → id = id'
  /-- the objects that die with the call are its own -/
  own : ∀ o ∈ w.slots, C.machine.memory.objects.size ≤ o ∧
    ∃ obj, w.memory.objects[o]? = some obj ∧ obj.region = .stack
  since : C.machine.memory.Later w.memory

/-- What a piece of code leaves as it was: registers below a number, registers of
slots, and what `Later` says of memory. -/
structure Moves (C : Call) (b k n : Nat) (w w' : World) : Prop where
  regs : ∀ id, id < n ∨ IsSlot C.body b k id → w'.regs[id]? = w.regs[id]?
  memory : w.memory.Later w'.memory
  slots : ∀ o ∈ w.slots, o ∈ w'.slots

variable {C : Call} {b b' k k' n n' : Nat} {w w' w'' : World}

theorem Moves.refl : Moves C b k n w w := ⟨fun _ _ => rfl, .refl _, fun _ ho => ho⟩

theorem Moves.trans (h : Moves C b k n w w') (h' : Moves C b' k' n' w' w'') (hn : n ≤ n')
    (hslots : ∀ id, IsSlot C.body b k id → IsSlot C.body b' k' id) : Moves C b k n w w'' where
  regs id hid := by
    rw [h'.regs id (hid.imp (fun h => Nat.lt_of_lt_of_le h hn) (hslots id)), h.regs id hid]
  memory := h.memory.trans h'.memory
  slots o ho := h'.slots o (h.slots o ho)

theorem SlotAt.move {o : Nat} (h : SlotAt C w id elem o) (hm : Moves C b k n w w')
    (hid : IsSlot C.body b k id) : SlotAt C w' id elem o where
  reg := by rw [hm.regs id (.inr hid), h.reg]
  object := by
    obtain ⟨obj, hobj, hregion, hdead, hsize⟩ := h.object
    obtain ⟨obj', hobj', hregion', hsize', hdead', -⟩ := hm.memory.kept o obj hobj
    have hstack : obj.region ≠ .heap := by rw [hregion]; simp
    exact ⟨obj', hobj', hregion'.trans hregion, (hdead' hstack).trans hdead, hsize'.symm ▸ hsize⟩
  mem := hm.slots o h.mem

theorem isSlot_of_has (hi : F.Has 0 j i) (hop : i.op = .alloca elem) (hj : b = 0 → j < k) :
    IsSlot F b k i.id :=
  ⟨j, i, hi, by rw [hop]; rfl, rfl, hj⟩

/-- The slots stay, as long as no other one is counted in. -/
theorem Ready.move (h : Ready C b k w) (hm : Moves C b k n w w')
    (hslots : ∀ j i, C.body.Has 0 j i → i.op.isAlloca → (b' = 0 → j < k') → (b = 0 → j < k))
    (hown : ∀ o ∈ w'.slots, o ∈ w.slots ∨ C.machine.memory.objects.size ≤ o ∧
      ∃ obj, w'.memory.objects[o]? = some obj ∧ obj.region = .stack) : Ready C b' k' w' where
  slot j i elem hi hop hj := by
    have hj' := hslots j i hi (by rw [hop]; rfl) hj
    obtain ⟨o, ho⟩ := h.slot j i elem hi hop hj'
    exact ⟨o, ho.move hm (isSlot_of_has hi hop hj')⟩
  apart id id' o hid hid' ho ho' := by
    have hback : ∀ id, IsSlot C.body b' k' id → IsSlot C.body b k id := by
      rintro _ ⟨j, i, hi, ha, rfl, hj⟩
      exact ⟨j, i, hi, ha, rfl, hslots j i hi ha hj⟩
    rw [hm.regs id (.inr (hback id hid))] at ho
    rw [hm.regs id' (.inr (hback id' hid'))] at ho'
    exact h.apart id id' o (hback id hid) (hback id' hid') ho ho'
  own o ho := by
    rcases hown o ho with ho | ho
    · obtain ⟨hlow, obj, hobj, hregion⟩ := h.own o ho
      obtain ⟨obj', hobj', hregion', -⟩ := hm.memory.kept o obj hobj
      exact ⟨hlow, obj', hobj', hregion'.trans hregion⟩
    · exact ho
  since := h.since.trans hm.memory

/-! ## Leaving the entry -/

/-- A world with one more stack slot. -/
def slotted (w : World) (id : Nat) (size : Int64) : World :=
  { w with
    memory := w.memory.add .stack size
    regs := w.regs.insert id (.ptr { base := .object w.memory.objects.size .stack })
    slots := w.memory.objects.size :: w.slots }

theorem stacked_slotted : w.memory.Stacked (slotted w id size).memory :=
  Memory.stacked_add

theorem slotted_object :
    (slotted w id size).memory.objects[w.memory.objects.size]? =
      some { region := .stack, address := w.memory.nextAddress, size } := by
  simp [slotted, Memory.add]

theorem step_slot (hi : C.body.Has b k i) (hop : i.op = .alloca elem)
    (hsize : Interp.sizeOf (elem.expand C.code.types) = .ok size) :
    (C.here b k w).step = .inl (C.here b (k + 1) (slotted w i.id size)) := by
  have hex : Interp.execute C.code (C.frame b k w) i.op w.memory =
      .ok (.slot { base := .object w.memory.objects.size .stack })
        (slotted w i.id size).memory := by
    rw [hop]
    exact Interp.execute_alloca hsize
  exact Interp.step_execute hi hex

variable {A : Interp.Fault → Prop} {T : Setting} {G : Interp.Config → Prop}

/-- An instruction writes to a register that nothing else has been put into. -/
theorem not_isSlot_of_has (hC : C.body.IsSsa) (hi : C.body.Has b k i) :
    ¬ IsSlot C.body b k i.id := by
  rintro ⟨j, i', hi', -, heq, hj⟩
  obtain ⟨rfl, rfl⟩ := hC.unique _ _ _ _ _ _ hi' hi heq
  exact absurd (hj rfl) (Nat.lt_irrefl _)

/-- A stack slot is allocated where its instruction stands. -/
theorem ready_slotted (hC : Hosted A T C) (h : Ready C 0 k w) (hi : C.body.Has 0 k i)
    (hop : i.op = .alloca elem) (hsize : Interp.sizeOf (elem.expand C.code.types) = .ok size)
    (hn : n ≤ i.id) :
    Moves C 0 k n w (slotted w i.id size) ∧ Ready C 0 (k + 1) (slotted w i.id size) := by
  have hnew : (slotted w i.id size).regs[i.id]? =
      some (.ptr { base := .object w.memory.objects.size .stack }) := by
    simp [slotted]
  have hold : ∀ id, id ≠ i.id → (slotted w i.id size).regs[id]? = w.regs[id]? := by
    intro id hid
    simp only [slotted]
    rw [Std.HashMap.getElem?_insert, if_neg (by simpa using fun h => hid h.symm)]
  have hm : Moves C 0 k n w (slotted w i.id size) := by
    refine ⟨fun id hid => hold id ?_, stacked_slotted.later, fun o ho => List.mem_cons_of_mem _ ho⟩
    rintro rfl
    rcases hid with hid | hid
    · omega
    · exact not_isSlot_of_has hC.ssa hi hid
  have hlast : ∀ id, IsSlot C.body 0 (k + 1) id → id = i.id ∨ IsSlot C.body 0 k id := by
    rintro _ ⟨j, i', hi', ha, rfl, hj⟩
    have hj := hj rfl
    by_cases hjk : j = k
    · subst hjk
      obtain rfl := Option.some.inj (hi'.symm.trans hi)
      exact .inl rfl
    · exact .inr ⟨j, i', hi', ha, rfl, fun _ => by omega⟩
  have hsmall : ∀ id o, IsSlot C.body 0 k id →
      (slotted w i.id size).regs[id]? = some (.ptr { base := .object o .stack }) →
      o < w.memory.objects.size := by
    rintro _ o ⟨j, i', hi', ha, rfl, hj⟩ ho
    obtain ⟨elem', hop'⟩ : ∃ elem', i'.op = .alloca elem' := by
      cases hop' : i'.op <;> simp [hop', Ir.Op.isAlloca] at ha
      exact ⟨_, rfl⟩
    obtain ⟨o', ho'⟩ := h.slot j i' elem' hi' hop' hj
    rw [hm.regs _ (.inr (isSlot_of_has hi' hop' hj)), ho'.reg] at ho
    obtain ⟨obj, hobj, -⟩ := ho'.object
    have : o' = o := by simpa using ho
    exact this ▸ (Array.getElem?_eq_some_iff.mp hobj).1
  refine ⟨hm, ⟨fun j i' elem' hi' hop' hj => ?_, fun id id' o hid hid' ho ho' => ?_, ?_,
    h.since.trans hm.memory⟩⟩
  · rcases hlast i'.id (isSlot_of_has hi' hop' hj) with heq | hslot
    · obtain ⟨-, rfl⟩ := hC.ssa.unique _ _ _ _ _ _ hi' hi heq
      obtain rfl := Option.some.inj (hi'.symm.trans hi)
      obtain rfl : elem = elem' := by
        rw [hop] at hop'
        injection hop'
      exact ⟨_, hnew, ⟨_, slotted_object, rfl, rfl, hsize⟩, List.mem_cons_self ..⟩
    · obtain ⟨j', i'', hi'', -, heq, hj'⟩ := hslot
      obtain ⟨-, rfl⟩ := hC.ssa.unique _ _ _ _ _ _ hi'' hi' heq
      obtain ⟨o, ho⟩ := h.slot _ i' elem' hi' hop' hj'
      exact ⟨o, ho.move hm (isSlot_of_has hi' hop' hj')⟩
  · rcases hlast id hid with rfl | hslot <;> rcases hlast id' hid' with rfl | hslot'
    · rfl
    · have hlt := hsmall id' o hslot' ho'
      rw [hnew] at ho
      have : w.memory.objects.size = o := by simpa using ho
      omega
    · have hlt := hsmall id o hslot ho
      rw [hnew] at ho'
      have : w.memory.objects.size = o := by simpa using ho'
      omega
    · rw [hm.regs id (.inr hslot)] at ho
      rw [hm.regs id' (.inr hslot')] at ho'
      exact h.apart id id' o hslot hslot' ho ho'
  · intro o ho
    rcases List.mem_cons.mp ho with rfl | ho
    · exact ⟨h.since.size, _, slotted_object, rfl⟩
    · obtain ⟨hlow, obj, hobj, hregion⟩ := h.own o ho
      exact ⟨hlow, obj, stacked_slotted.getElem? hobj, hregion⟩

theorem alloca_of_isAlloca {op : Op} (h : op.isAlloca) : ∃ elem, op = .alloca elem := by
  cases op with
  | alloca elem => exact ⟨elem, rfl⟩
  | _ => cases h

/-- All slots are there once all instructions of a block are done. -/
theorem Ready.all (h : Ready C b k w) (hk : (C.body.code b).length ≤ k) : Ready C 1 0 w := by
  refine h.move (n := 0) .refl (fun j i hi _ _ hb => ?_) fun o ho => .inl ho
  subst hb
  exact Nat.lt_of_lt_of_le (List.getElem?_eq_some_iff.mp hi).1 hk

/-- What happens on the way from a position of a block to its end, once the block
was ended there. -/
structure Leaving (C : Call) (b k n : Nat) (w w' : World) : Prop where
  moves : Moves C b k n w w'
  ready : Ready C 1 0 w'
  stacked : w.memory.Stacked w'.memory
  same : b ≠ 0 → w' = w

theorem leaves_from (hC : Hosted A T C) (hG : Goal A C.rest G) (hk : f.Keeps C.body) {t : Term}
    (ht : f.term? b = some t) (hlow : (f.code b).length ≤ k) (hr : Ready C b k w)
    (hnext : ∀ w', Leaving C b k f.nextReg w w' → G (C.here b (C.body.code b).length w'))
    (d : Nat) (hd : k + d = (C.body.code b).length) : G (C.here b k w) := by
  induction d generalizing k w with
  | zero =>
    rw [Nat.add_zero] at hd
    subst hd
    exact hnext w ⟨.refl, hr.all (Nat.le_refl _), .refl _, fun _ => rfl⟩
  | succ d ih =>
    -- what is left are stack slots, and the block is the entry
    have hi : C.body.Has b k (C.body.code b)[k] := List.getElem?_eq_getElem (by omega)
    obtain ⟨rfl, halloca⟩ := hk.tail b t k _ ht hi hlow
    obtain ⟨elem, hop⟩ := alloca_of_isAlloca halloca
    cases hsize : Interp.sizeOf (elem.expand C.code.types) with
    | error e =>
      refine hG.back _ _ (Interp.step_fault (e := e) (m := w.memory) hi ?_)
        (hG.fault_frame (hC.sized _ _ _ hi hop e hsize))
      rw [hop]
      simp only [Interp.execute, hsize]
      rfl
    | ok size =>
      refine hG.back _ _ (step_slot hi hop hsize) ?_
      obtain ⟨hm, hr'⟩ := ready_slotted hC hr hi hop hsize (hk.fresh _ _ _ hi hlow)
      refine ih (by omega) hr' (fun w' hleft => ?_) (by omega)
      refine hnext w' ⟨hm.trans hleft.moves (Nat.le_refl _) fun id hid => ?_, hleft.ready,
        stacked_slotted.trans hleft.stacked, fun hb => absurd rfl hb⟩
      obtain ⟨j, i, hi, ha, heq, hj⟩ := hid
      exact ⟨j, i, hi, ha, heq, fun hb => Nat.lt_succ_of_lt (hj hb)⟩

/-- Control goes to the end of a block that is ended: on the way out of the entry,
the stack slots of all that is still to come are allocated. -/
theorem leaves (hC : Hosted A T C) (hG : Goal A C.rest G) (hk : f.Keeps C.body) {t : Term}
    (ht : f.term? b = some t) (hr : Ready C b (f.code b).length w)
    (hnext : ∀ w', Leaving C b (f.code b).length f.nextReg w w' →
      G (C.here b (C.body.code b).length w')) : G (C.here b (f.code b).length w) := by
  have hle : (f.code b).length ≤ (C.body.code b).length := by
    by_contra hlt
    have hi : f.Has b (C.body.code b).length _ :=
      List.getElem?_eq_getElem (l := f.code b) (Nat.lt_of_not_le hlt)
    obtain ⟨i', hi', -⟩ := hk.has _ _ _ hi
    exact Nat.lt_irrefl _ (List.getElem?_eq_some_iff.mp hi').1
  exact leaves_from hC hG hk ht (Nat.le_refl _) hr hnext
    ((C.body.code b).length - (f.code b).length) (by omega)

/-! ## What operands stand for -/

/-- Operands with the values they stand for. -/
abbrev Facts := List (Operand × Value)

/-- An operand is a constant, a parameter or a register below a number. -/
def Below (n : Nat) : Operand → Prop
  | .reg id _ => id < n
  | .block _ => False
  | _ => True

def Holds (C : Call) (L : Facts) (n : Nat) (w : World) : Prop :=
  ∀ p ∈ L, Below n p.1 ∧ C.Means w.regs p.1 p.2

theorem Below.mono (h : Below n x) (hn : n ≤ n') : Below n' x := by
  cases x with
  | reg id t => exact Nat.lt_of_lt_of_le h hn
  | block i => exact h
  | _ => trivial

theorem means_move (h : C.Means w.regs x v) (hx : Below n x)
    (hm : Moves C b k n w w') : C.Means w'.regs x v := by
  cases x with
  | reg id t =>
    simp only [Call.Means] at h ⊢
    rw [hm.regs id (.inl hx), h]
  | block i => exact hx
  | _ => exact h

variable {L : Facts}

theorem Holds.move (h : Holds C L n w) (hm : Moves C b k n w w') (hn : n ≤ n') :
    Holds C L n' w' := fun p hp =>
  ⟨(h p hp).1.mono hn, means_move (h p hp).2 (h p hp).1 hm⟩

theorem Holds.mono (h : Holds C L n w) (hn : n ≤ n') : Holds C L n' w := fun p hp =>
  ⟨(h p hp).1.mono hn, (h p hp).2⟩

theorem Holds.cons (h : Holds C L n w) (hx : Below n x)
    (hv : C.Means w.regs x v) : Holds C ((x, v) :: L) n w := by
  intro p hp
  rcases List.mem_cons.mp hp with rfl | hp
  · exact ⟨hx, hv⟩
  · exact h p hp

/-- A constant stands for a value, whatever the memory. -/
def ConstIs (T : Setting) (c : Const) (v : Value) : Prop :=
  ∀ m, Interp.evalConst T.final.module c m = .ok v m

/-- It is known what an operand stands for. -/
def Knows (T : Setting) (L : Facts) (x : Operand) (v : Value) : Prop :=
  (x, v) ∈ L ∨ ∃ c, x = .const c ∧ ConstIs T c v

theorem Knows.means (h : Knows T L x v)
    (hcode : C.code = T.final.module) (hL : Holds C L n w) : C.Means w.regs x v := by
  rcases h with h | ⟨c, rfl, hc⟩
  · exact (hL _ h).2
  · intro m
    rw [hcode]
    exact hc m

theorem Knows.below (h : Knows T L x v) (hL : Holds C L n w) : Below n x := by
  rcases h with h | ⟨c, rfl, -⟩
  · exact (hL _ h).1
  · trivial

/-! ## Branches -/

/-- The slots of a call are all there. -/
theorem Ready.anywhere (h : Ready C 1 0 w) : Ready C b k w :=
  h.move (n := 0) .refl (fun _ _ _ _ _ hb => absurd hb (by omega)) fun _ ho => .inl ho

theorem has_zero_of_head (hi : i ∈ (F.code b).head?) : F.Has b 0 i := by
  rw [Func.Has, ← List.head?_eq_getElem?]
  exact hi

variable {t : Nat}

/-- Control goes to another block, which has no phi.  There, a goal may do that is
one step further from the other one. -/
theorem goes_br_later {G' : Interp.Config → Prop} (hC : Hosted A T C) (hG : Goal A C.rest G)
    (hG' : Goal A C.rest G') (hstep : ∀ c c', c.step = .inl c' → G' c' → G c)
    (hk : f.Keeps C.body) (ht : f.term? b = some (.br (.block t)))
    (hr : Ready C b (f.code b).length w)
    (hplain : ∀ i, C.body.Has t 0 i → i.op.incoming? = none)
    (hnext : ∀ w', Leaving C b (f.code b).length f.nextReg w w' → G' (C.here t 0 w')) :
    G (C.here b (f.code b).length w) := by
  refine leaves hC hG hk ht hr fun w' hleft => ?_
  have hend := hk.ends b _ ht
  have hlt : t < C.body.blocks.size := hC.target hend (by simp [Term.successors])
  refine hstep _ _ (Interp.step_br (Nat.le_refl _) hend) ?_
  refine hG'.back _ _ (Interp.step_enter_plain hlt fun i hi => hplain i (has_zero_of_head hi)) ?_
  exact hnext w' hleft

theorem goes_br (hC : Hosted A T C) (hG : Goal A C.rest G) (hk : f.Keeps C.body)
    (ht : f.term? b = some (.br (.block t))) (hr : Ready C b (f.code b).length w)
    (hplain : ∀ i, C.body.Has t 0 i → i.op.incoming? = none)
    (hnext : ∀ w', Leaving C b (f.code b).length f.nextReg w w' → G (C.here t 0 w')) :
    G (C.here b (f.code b).length w) :=
  goes_br_later hC hG hG hG.back hk ht hr hplain hnext

/-- Control goes to one of two blocks, which have no phis. -/
theorem goes_condBr {t' : Nat} {v : Int64} (hC : Hosted A T C)
    (hG : Goal A C.rest G) (hk : f.Keeps C.body)
    (ht : f.term? b = some (.condBr x (.block t) (.block t')))
    (hr : Ready C b (f.code b).length w) (hx : C.Means w.regs x (.int v)) (hlow : Below f.nextReg x)
    (hplain : ∀ i, C.body.Has (if v ≠ 0 then t else t') 0 i → i.op.incoming? = none)
    (hnext : ∀ w', Leaving C b (f.code b).length f.nextReg w w' →
      G (C.here (if v ≠ 0 then t else t') 0 w')) : G (C.here b (f.code b).length w) := by
  refine leaves hC hG hk ht hr fun w' hleft => ?_
  have hend := hk.ends b _ ht
  have hlt : (if v ≠ 0 then t else t') < C.body.blocks.size := by
    split
    · exact hC.target hend (by simp [Term.successors])
    · exact hC.target hend (by simp [Term.successors])
  refine hG.back _ _ (Interp.step_condBr (Nat.le_refl _) hend (means_move hx hlow hleft.moves)) ?_
  refine hG.back _ _ (Interp.step_enter_plain hlt fun i hi => hplain i (has_zero_of_head hi)) ?_
  exact hnext w' hleft

/-- Control goes to a block with one phi, which takes the value that comes from
here. -/
theorem goes_phi {is : List Inst} {incoming : List (Operand × Operand)}
    (hC : Hosted A T C) (hG : Goal A C.rest G) (hk : f.Keeps C.body)
    (ht : f.term? b = some (.br (.block t))) (hr : Ready C b (f.code b).length w)
    (hcode : C.body.code t = i :: is) (hi : i.op = .phi incoming)
    (his : ∀ j ∈ is.head?, j.op.incoming? = none) (hmem : (x, .block b) ∈ incoming)
    (hx : C.Means w.regs x v) (hlow : Below f.nextReg x)
    (hnext : ∀ w', Leaving C b (f.code b).length f.nextReg w w' →
      G (C.here t 1 { w' with regs := w'.regs.insert i.id v })) :
    G (C.here b (f.code b).length w) := by
  refine leaves hC hG hk ht hr fun w' hleft => ?_
  have hend := hk.ends b _ ht
  have hlt : t < C.body.blocks.size := hC.target hend (by simp [Term.successors])
  have hhas : C.body.Has t 0 i := by
    rw [Func.Has, hcode]
    rfl
  have hsources := hC.ssa.phiSources t 0 i incoming hhas (by rw [hi]; rfl)
  have hblocks : ∀ p ∈ incoming, ∃ a, p.2 = .block a := fun p hp => by
    obtain ⟨a, ha, -⟩ := (hsources.2 p.2).mp (List.mem_map_of_mem hp)
    exact ⟨a, ha⟩
  refine hG.back _ _ (Interp.step_br (Nat.le_refl _) hend) ?_
  refine hG.steps (Interp.steps_enter_phi hlt hcode hi his hsources.1 hblocks hmem
    (means_move hx hlow hleft.moves)) ?_
  exact hnext w' hleft

/-- A block that was ended, and that is not the entry, is as it was. -/
theorem code_of_closed {t : Term} (hk : f.Keeps C.body) (ht : f.term? b = some t) (hb : b ≠ 0) :
    (C.body.code b).length = (f.code b).length := by
  refine Nat.le_antisymm (Nat.le_of_not_lt fun hlt => ?_) (Nat.le_of_not_lt fun hlt => ?_)
  · have hi : C.body.Has b (f.code b).length _ := List.getElem?_eq_getElem hlt
    exact hb (hk.tail b t _ _ ht hi (Nat.le_refl _)).1
  · have hi : f.Has b (C.body.code b).length _ := List.getElem?_eq_getElem hlt
    obtain ⟨i', hi', -⟩ := hk.has _ _ _ hi
    exact Nat.lt_irrefl _ (List.getElem?_eq_some_iff.mp hi').1

end Tenure.Lowering
