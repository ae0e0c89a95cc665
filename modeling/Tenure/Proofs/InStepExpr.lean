import Tenure.Proofs.InStepParts

/-!
# Expressions in step

An expression is lowered in two runs, for a program and for the one with its
functions in another order, where the expression calls the functions at their new
places.  Both runs write the same code, but for places.  Here literals are met: in
the second run a literal may have been met before, or for the first time, whatever
the first run has seen of it.
-/

namespace Tenure.Lowering

open Ir (Operand Op Relocation)

variable {C : Course} {w w' : Pools} {H : Prop} {x y x' y' : Operand}

set_option synthInstance.maxSize 4000

/-! ## Literals -/

/-- A literal has been met, and all else is as it was. -/
structure Meets (bytes : ByteArray) (x : Operand) (s t : State) : Prop where
  mem : (bytes, x) ∈ t.literals
  old : s.literals ⊆ t.literals
  new : ∀ e ∈ t.literals, e ∈ s.literals ∨ e.1 = bytes
  funcs : t.module.funcs = s.module.funcs
  func : t.func = s.func
  block : t.block = s.block
  blockCount : t.blockCount = s.blockCount
  slots : t.slots = s.slots

section Unary

variable {names : Tenure.Declared} {p : Program} {P : Plan} {L : Places} {env : Env} {s : State}

/-- One more literal is put behind the others. -/
theorem Settled.pushLiteral (hs : Settled names p P L s) {bytes : ByteArray}
    (hnew : bytes ∉ s.literals.map (·.1)) : Settled names p P L { s with
      module := { s.module with
        globals := s.module.globals.push (literalGlobal s.literals.length bytes) }
      literals := (bytes, literalOperand s.module.globals.size bytes) :: s.literals } := by
  have hsize := hs.pooled.size
  refine { hs with
    contents := fun i hi => ?_
    pooled := ⟨?_, fun k b x hk => ?_, List.nodup_cons.mpr ⟨hnew, hs.pooled.distinct⟩⟩ }
  · rw [← hs.contents i hi, Array.getElem?_push, if_neg (by omega)]
  · simp only [Array.size_push, List.length_cons]
    omega
  · rw [List.reverse_cons] at hk
    by_cases hlt : k < s.literals.reverse.length
    · rw [List.getElem?_append_left hlt] at hk
      obtain ⟨hx, hg⟩ := hs.pooled.entries k b x hk
      rw [List.length_reverse] at hlt
      exact ⟨hx, by rw [Array.getElem?_push, if_neg (by omega), hg]⟩
    · rw [List.getElem?_append_right (by omega)] at hk
      obtain ⟨h0, heq⟩ := List.getElem?_eq_some_iff.mp hk
      rw [List.length_reverse] at hlt
      obtain rfl : k = s.literals.length := by simp at h0; omega
      obtain ⟨rfl, rfl⟩ : bytes = b ∧ literalOperand s.module.globals.size bytes = x := by
        simpa using heq
      exact ⟨by rw [hsize], by rw [Array.getElem?_push, if_pos hsize.symm]⟩

theorem literal_meets (env : Env) (hs : Settled names p P L s) (bytes : ByteArray) :
    ∃ x t, literal bytes env s = .ok x t ∧ Settled names p P L t ∧ Meets bytes x s t := by
  cases hfound : s.literals.find? (·.1 == bytes) with
  | some e =>
    obtain ⟨b, x⟩ := e
    have hkey : b = bytes := by simpa using List.find?_some hfound
    subst hkey
    refine ⟨x, s, ?_, hs, List.mem_of_find?_eq_some hfound, fun _ h => h,
      fun _ h => .inl h, rfl, rfl,
      rfl, rfl, rfl⟩
    rw [literal, bind_of_ok (show (get : Build State) env s = .ok s s from rfl), hfound]
    rfl
  | none =>
    have hnew : bytes ∉ s.literals.map (·.1) := by
      intro hmem
      obtain ⟨e, he, rfl⟩ := List.mem_map.mp hmem
      simpa using List.find?_eq_none.mp hfound e he
    refine ⟨_, _, ?_, hs.pushLiteral hnew, List.mem_cons_self, fun _ h => List.mem_cons_of_mem _ h,
      fun e he => ?_, rfl, rfl, rfl, rfl, rfl⟩
    · rw [literal, bind_of_ok (show (get : Build State) env s = .ok s s from rfl), hfound]
      rfl
    · obtain rfl | he := List.mem_cons.mp he
      · exact .inr rfl
      · exact .inl he

end Unary

theorem SlotAlike.mono {p q : Int × Slot} (h : SlotAlike C w p q) (hw : w.Grows w') :
    SlotAlike C w' p q :=
  ⟨h.id, h.elem, h.address.mono hw⟩

/-! ## Parts that meet literals -/

/-- `Onward` as a class. -/
class Advances {α : Type} [Likeness α] (C : Course) (w : Pools) (H : Prop)
    (x y : Build α) : Prop where
  onward : H → Onward C w x y (Likeness.Like C)

namespace Advances

variable {α γ : Type} [Likeness γ] {x y : Build α} {x' y' z z' : Build γ} {k k' : α → Build γ}

instance (priority := low) ofParallel [h : Parallel C w H x' y'] : Advances C w H x' y' :=
  ⟨fun hH => (h.inStep hH).onward fun _ _ h => h⟩

instance (priority := high) {v : Violation} : Advances C w H (violation v >>= k) y' :=
  ⟨fun _ => .throw⟩

theorem bindSame [Lore α] [hx : @Parallel α .same C w H x y]
    (hk : ∀ a, Advances C w (Lore.Known C a ∧ H) (k a) (k' a)) :
      Advances C w H (x >>= k) (y >>= k') :=
  ⟨fun hH => (hx.inStep hH).then fun ⟨heq, ha⟩ => heq ▸ (hk _).onward ⟨ha, hH⟩⟩

theorem bind [Likeness α] [hx : Advances C w H x y]
    (hk : ∀ w' a b, Advances C w' (Likeness.Like C w' a b ∧ w.Grows w' ∧ H) (k a) (k' b)) :
    Advances C w H (x >>= k) (y >>= k') :=
  ⟨fun hH => (hx.onward hH).bind fun w' hw h => (hk w' _ _).onward ⟨h, hw, hH⟩⟩

theorem ite {c : Prop} [Decidable c] (hx : Advances C w H x' y') (hz : Advances C w H z z') :
    Advances C w H (if c then x' else z) (if c then y' else z') :=
  by split <;> assumption

instance [Lore α] [@Parallel α .same C w H x y]
    [hk : ∀ a, Advances C w (Lore.Known C a ∧ H) (k a) (k' a)] :
      Advances C w H (x >>= k) (y >>= k') :=
  bindSame hk

instance (priority := low) [Likeness α] [hx : Parallel C w H x y]
    [hk : ∀ a b, Advances C w (Likeness.Like C w a b ∧ H) (k a) (k' b)] :
    Advances C w H (x >>= k) (y >>= k') :=
  ⟨fun hH => (hx.inStep hH).then fun h => (hk _ _).onward ⟨h, hH⟩⟩

instance (priority := low) [Likeness α] [Advances C w H x y]
    [hk : ∀ w' a b, Advances C w' (Likeness.Like C w' a b ∧ w.Grows w' ∧ H) (k a) (k' b)] :
    Advances C w H (x >>= k) (y >>= k') :=
  bind hk

instance {c : Prop} [Decidable c] [hx : Advances C w H x' y'] [hz : Advances C w H z z'] :
    Advances C w H (if c then x' else z) (if c then y' else z') :=
  ite hx hz

end Advances

/-- Whether the runs have met a literal before or not, they have both met it now. -/
instance {bytes : ByteArray} : Advances C w H (literal bytes) (literal bytes) := by
  refine ⟨fun _ s s' x t hs hrun => ?_⟩
  obtain ⟨x0, t0, hrun0, ht, hmeets⟩ := literal_meets C.env hs.left bytes
  rw [hrun0] at hrun
  cases hrun
  obtain ⟨y, t', hrun', ht', hmeets'⟩ := literal_meets C.env' hs.right bytes
  have hw : w.Grows ⟨t.literals, t'.literals⟩ := by
    refine ⟨?_, ?_, fun e he => ?_, fun e he => ?_⟩
    · rw [← hs.met]
      exact hmeets.old
    · rw [← hs.met']
      exact hmeets'.old
    · rw [← hs.met]
      refine (hmeets.new e he).imp (fun h => List.mem_map_of_mem h) fun h => ?_
      rw [h]
      exact List.mem_map_of_mem hmeets'.mem
    · rw [← hs.met']
      refine (hmeets'.new e he).imp (fun h => List.mem_map_of_mem h) fun h => ?_
      rw [h]
      exact List.mem_map_of_mem hmeets.mem
  refine ⟨⟨t.literals, t'.literals⟩, y, t', hrun', hw, ?_, fun r hr => ?_⟩
  · obtain ⟨f, f', hf, hf', halike⟩ := hs.func
    exact {
      left := ht
      right := ht'
      met := rfl
      met' := rfl
      func := ⟨f, f', by rw [hmeets.funcs, hmeets.func, hf], by
        rw [hmeets'.funcs, hmeets'.func, hf'],
        fun r hr => halike r (hr.of_grows hw)⟩
      block := by rw [hmeets.block, hmeets'.block, hs.block]
      blockCount := by rw [hmeets.blockCount, hmeets'.blockCount, hs.blockCount]
      slots := by
        rw [hmeets.slots, hmeets'.slots]
        exact hs.slots.imp fun _ _ h => h.mono hw }
  · exact hr.literals bytes x y hmeets.mem hmeets'.mem


instance {bytes : ByteArray} : Advances C w H (lowerLiteral bytes) (lowerLiteral bytes) := by
  unfold lowerLiteral
  infer_instance

instance {kind : String} : Advances C w H (flare kind) (flare kind) := by
  unfold flare
  infer_instance

/-! ## Locals -/

section Slots

variable {ps qs : List (Int × Slot)}

theorem any_slotAlike (h : List.Forall₂ (SlotAlike C w) ps qs) (id : Int) :
    qs.any (·.1 == id) = ps.any (·.1 == id) := by
  induction h with
  | nil => rfl
  | cons h _ ih => rw [List.any_cons, List.any_cons, ih, h.id]

theorem filter_slotAlike (h : List.Forall₂ (SlotAlike C w) ps qs) (id : Int) :
    List.Forall₂ (SlotAlike C w) (ps.filter (·.1 != id)) (qs.filter (·.1 != id)) := by
  induction h with
  | nil => exact .nil
  | cons h _ ih =>
    rw [List.filter_cons, List.filter_cons, h.id]
    split
    · exact .cons h ih
    · exact ih

end Slots

instance : Lore Local := ⟨fun C l => Written C.names l.type⟩
instance : Likeness Slot :=
  ⟨fun C w p q => q.elem = p.elem ∧ Alike C w p.address q.address, fun hw h => ⟨h.1, h.2.mono hw⟩⟩

section Locals

variable {l : Local} {slot slot' : Slot}

instance [h : Learnt C H l] : Legible C H l.type := ⟨h.grant⟩

instance {o : Option Local} [h : Legible C H (o.bind (·.type))] :
    Parallel C w H (require o) (require o) :=
  ⟨fun hH => .require fun l hl => ⟨l, hl, rfl, fun r hr => h.grant hH r (by simpa [hl] using hr)⟩⟩

instance [h : Similar C w H slot slot'] : Similar C w H slot.address slot'.address :=
  ⟨fun hH => (h.grant hH).2⟩

instance [h : Similar C w H slot slot'] :
    Parallel C w H (emitLoad slot.elem slot.address) (emitLoad slot'.elem slot'.address) := by
  refine .ofKnown fun hH => ?_
  rw [(h.grant hH).1]
  infer_instance

instance [Similar C w H x y] [Legible C H l.type] : Parallel C w H (openLocal l x)
    (openLocal l y) := by
  refine .get fun s s' hs => ?_
  rw [any_slotAlike hs.slots]
  refine .ite inferInstance (.bindSame fun elem => .bind fun address address' =>
    .bindSame fun _ => ?_)
  refine ⟨fun hH s s' a t hs hrun => ?_⟩
  rw [modify_ok hrun]
  exact ⟨(), _, rfl, { hs with
    left := hs.left.at s.func s.block s.blockCount _
    right := hs.right.at s'.func s'.block s'.blockCount _
    slots := .cons ⟨rfl, rfl, hH.2.1⟩ hs.slots }, rfl, trivial⟩

instance : Parallel C w H (slotOf l) (slotOf l) := by
  refine .get fun s s' hs => ?_
  have hslots := hs.slots
  generalize s.slots = slots at hslots
  generalize s'.slots = slots' at hslots
  induction hslots with
  | nil => exact inferInstanceAs (Parallel C w H (violation _) (violation _))
  | @cons p q _ _ h _ ih =>
    rw [List.find?_cons, List.find?_cons, h.id]
    cases p.1 == l.id with
    | true => exact ⟨fun _ => .pure ⟨h.elem, h.address⟩⟩
    | false => exact ih

instance : Parallel C w H (closeLocal l) (closeLocal l) where
  inStep _ s s' a t hs hrun := by
    rw [modify_ok hrun]
    exact ⟨(), _, rfl, { hs with
      left := hs.left.at s.func s.block s.blockCount _
      right := hs.right.at s'.func s'.block s'.blockCount _
      slots := filter_slotAlike hs.slots l.id }, rfl, trivial⟩

instance {r : Reference} {i : Nat} {ms : List StructMember} {ls : List (Option Local)}
    [Similar C w H x y] [hms : Granted H (∀ m ∈ ms, Written C.names m.type)]
    [hls : Granted H (∀ l ∈ ls, Written C.names (l.bind (·.type)))] :
    Parallel C w H (openMembers x r i ms ls) (openMembers y r i ms ls) := by
  induction ms generalizing H i ls with
  | nil => exact inferInstanceAs (Parallel C w H (pure ()) (pure ()))
  | cons m ms ih =>
    cases ls with
    | nil => exact inferInstanceAs (Parallel C w H (pure ()) (pure ()))
    | cons l ls =>
      obtain ⟨_, _⟩ := hms.uncons
      obtain ⟨_, _⟩ := hls.uncons
      unfold openMembers
      infer_instance

end Locals

/-! ## Calls -/

/-- The same signature at another place. -/
structure ProtoAlike (C : Course) (p p' : Prototype) : Prop where
  name : p'.name = p.name
  params : p'.params = p.params
  result : p'.result = p.result

/-- A signature with its index, which is known to both programs. -/
structure ProtoPlaced (C : Course) (p p' : Prototype) : Prop where
  id : ∃ k : Nat, p.id = k ∧ p'.id = C.order k
  written : ∀ t ∈ p.types, Written C.names t

theorem prototype?_reordered {f : Callee} {p : Prototype}
    (h : C.env.program.prototype? f = some p) :
    ∃ p', C.env'.program.prototype? ((functionOrder C.order).callee f) = some p' ∧
      ProtoAlike C p p' ∧ (f.types = [] → ProtoPlaced C p p') := by
  cases f with
  | function k =>
    obtain ⟨fn, hfn, rfl⟩ := Option.map_eq_some_iff.mp h
    have hid := C.numbered.functions k fn hfn
    have hmoved := C.reordered k
    rw [List.getElem?_map, Array.getElem?_toList, Array.getElem?_toList, hfn] at hmoved
    refine ⟨_, congrArg (Option.map Function.proto) hmoved, ⟨rfl, rfl, rfl⟩,
      fun _ => ⟨⟨k, hid, ?_⟩, ?_⟩⟩
    · simp only [Reordering.functionDef, hid, newIndex_natCast]
      rfl
    · exact C.written.functions fn (Array.mem_of_getElem? hfn)
  | native k =>
    have hid := C.numbered.natives k p h
    have hfix := C.fixes (C.env.program.functions.size + k) (Nat.le_add_right _ _)
    refine ⟨p, h, ⟨rfl, rfl, rfl⟩, fun _ => ⟨⟨C.env.program.functions.size + k, ?_, ?_⟩, ?_⟩⟩
    · rw [hid, Int.natCast_add]
    · rw [hid, hfix, Int.natCast_add]
    · exact C.written.natives p (Array.mem_of_getElem? h)
  | inPlace proto =>
    obtain rfl := Option.some.inj h
    exact ⟨proto, rfl, ⟨rfl, rfl, rfl⟩, fun hnone => by
      simp [Callee.types, Prototype.types] at hnone⟩


/-- Functions are told apart by their places in both programs. -/
class AllKnown (C : Course) : Prop where
  known : ∀ i, C.known i

instance : Likeness Prototype :=
  ⟨fun C _ p p' => ProtoAlike C p p' ∧ ProtoPlaced C p p', fun _ h => h⟩

section Calls

variable {c : Option Callee} {p p' : Prototype}

theorem inStep_signatureOf (c : Option Callee) : InStep C w (signatureOf c)
    (signatureOf (c.map (functionOrder C.order).callee)) (fun p p' => ProtoAlike C p p' ∧
      ((∀ f ∈ c, f.types = []) → ProtoPlaced C p p')) := by
  refine .program ?_
  cases c with
  | none => exact .throw
  | some f =>
    refine .require fun p hp => ?_
    obtain ⟨p', hp', halike, hplaced⟩ := prototype?_reordered hp
    exact ⟨p', hp', halike, fun hall => hplaced (hall f rfl)⟩

instance [hc : Granted H (∀ f ∈ c, f.types = [])] :
    Parallel C w H (signatureOf c) (signatureOf (c.map (functionOrder C.order).callee)) :=
  ⟨fun hH => (inStep_signatureOf c).imp fun h => ⟨h.1, h.2 (hc.grant hH)⟩⟩

/-- The result of a call is of the type that the signature states. -/
instance [hx : Similar C w H x y] :
    Parallel C w H (do return (some ⟨x, (← signatureOf c).result⟩ : Result)) (do
      return (some ⟨y, (← signatureOf (c.map (functionOrder C.order).callee)).result⟩ : Result)) :=
  ⟨fun hH => (inStep_signatureOf c).bind fun h => .pure (.some ⟨hx.grant hH, h.1.result⟩)⟩

variable [hp : Similar C w H p p']

instance [hx : Similar C w H x y] : Similar C w H (Held.mk x p.result) (Held.mk y p'.result) :=
  ⟨fun hH => ⟨hx.grant hH, (hp.grant hH).1.result⟩⟩

instance [hknown : AllKnown C] : Parallel C w H (functionFor p) (functionFor p') := by
  refine .ofKnown fun hH => .get fun s s' hs => ?_
  obtain ⟨k, hid, hid'⟩ := (hp.grant hH).2.id
  have hplace : Program.byId s'.funcs p'.id =
      (Program.byId s.funcs p.id).map (·.map C.place) := by
    rw [hid, hid', Program.byId, Program.byId, if_pos (Int.natCast_nonneg _),
      if_pos (Int.natCast_nonneg _), Int.toNat_natCast, Int.toNat_natCast, hs.left.funcs,
      hs.right.funcs, C.funcs]
  rw [hplace]
  cases Program.byId s.funcs p.id with
  | none => exact inferInstanceAs (Parallel C w H (violation _) _)
  | some place =>
    cases place with
    | none => exact inferInstanceAs (Parallel C w H (violation _) _)
    | some i => exact parallel_funcOperand (hknown.known i)

instance [AllKnown C] {rs rs' : List Result} [hrs : Similar C w H rs rs'] :
    Parallel C w H (callNative p rs) (callNative p' rs') := by
  refine .ofKnown fun hH => ?_
  obtain ⟨halike, hplaced⟩ := hp.grant hH
  have : Granted H (∀ t ∈ p.params, Written C.names t) :=
    ⟨fun _ t ht => hplaced.written t (List.mem_cons_of_mem _ ht)⟩
  unfold callNative
  rw [halike.name, halike.params, ← (hrs.grant hH).length_eq]
  cases Builtin.ofName? p.name <;> infer_instance

end Calls

/-! ## Branches -/

/-- Two branches that come to their ends. -/
structure BranchAlike (C : Course) (w : Pools) (b b' : Nat × Result) : Prop where
  block : b'.1 = b.1
  result : ResultAlike C w b.2 b'.2

instance : Likeness (List (Nat × Result)) :=
  ⟨fun C w => List.Forall₂ (BranchAlike C w), fun hw h => h.imp fun _ _ h =>
    ⟨h.block, ResultAlike.mono h.result hw⟩⟩

/-- Two values that branches bring along, with the blocks they come from. -/
structure IncomingAlike (C : Course) (w : Pools) (p q : Operand × Nat) : Prop where
  value : Alike C w p.1 q.1
  block : q.2 = p.2

theorem incomingAlike_of_branches {bs bs' : List (Nat × Result)}
    (hbs : List.Forall₂ (BranchAlike C w) bs bs') : List.Forall₂ (IncomingAlike C w)
      (bs.filterMap fun (b, r) => r.map fun h => (h.value, b))
      (bs'.filterMap fun (b, r) => r.map fun h => (h.value, b)) := by
  induction hbs with
  | nil => exact .nil
  | @cons b b' _ _ h _ ih =>
    obtain ⟨k, r⟩ := b
    obtain ⟨k', r'⟩ := b'
    obtain ⟨rfl, hr⟩ := h
    cases hr with
    | none => exact ih
    | some hh => exact .cons ⟨hh.value, rfl⟩ ih

theorem Suits.map_incoming {r : Relocation} (hr : Suits C w r) {ps qs : List (Operand × Nat)}
    (h : List.Forall₂ (IncomingAlike C w) ps qs) :
    qs.map (fun q => (q.1, Operand.block q.2)) =
      (ps.map fun p => (p.1, Operand.block p.2)).map fun (x, b) =>
        (x.relocate r, b.relocate r) := by
  induction h with
  | nil => rfl
  | cons h _ ih => rw [List.map_cons, List.map_cons, List.map_cons, ih, h.value r hr, h.block]; rfl

section Branches

variable {bs bs' ds ds' : List (Nat × Result)} {r r' : Result}

instance : Similar C w H ([] : List (Nat × Result)) [] := ⟨fun _ => .nil⟩
instance {b : Nat} [h : Similar C w H r r'] : Similar C w H [(b, r)] [(b, r')] :=
  ⟨fun hH => .cons ⟨rfl, h.grant hH⟩ .nil⟩
instance [hbs : Similar C w H bs bs'] [hds : Similar C w H ds ds'] :
    Similar C w H (bs ++ ds) (bs' ++ ds') :=
  ⟨fun hH => List.rel_append (hbs.grant hH) (hds.grant hH)⟩

instance [Similar C w H r r'] : Parallel C w H (liveBranch r) (liveBranch r') := by
  unfold liveBranch
  infer_instance

instance {after : Nat} [hbs : Similar C w H bs bs'] : Parallel C w H
    (forIn bs PUnit.unit fun b _ => do
      terminateBlock b.1 (.br (.block after))
      pure (.yield PUnit.unit))
    (forIn bs' PUnit.unit fun b _ => do
      terminateBlock b.1 (.br (.block after))
      pure (.yield PUnit.unit)) := by
  refine .ofKnown fun hH => ?_
  replace hbs := hbs.grant hH
  induction hbs with
  | nil => exact inferInstanceAs (Parallel C w H (pure _) (pure _))
  | cons h _ ih =>
    have := ih.weaken
    simp only [List.forIn_cons, h.block, bind_assoc, pure_bind]
    infer_instance

instance {type : Option Reference} [hbs : Similar C w H bs bs'] :
    Parallel C w H (joinBranches type bs) (joinBranches type bs') := by
  refine .ofKnown fun hH => ?_
  have hempty : bs'.isEmpty = bs.isEmpty := by cases hbs.grant hH <;> rfl
  have hincoming := incomingAlike_of_branches (hbs.grant hH)
  unfold joinBranches
  dsimp only
  rw [hempty, ← (hbs.grant hH).length_eq, ← hincoming.length_eq]
  refine .ite inferInstance (.bindSame fun after => .bindSame fun _ => .bindSame fun _ => ?_)
  refine .requireSame fun r _ => .ite inferInstance (.ite inferInstance ?_)
  generalize bs.filterMap _ = incoming at hincoming
  generalize bs'.filterMap _ = incoming' at hincoming
  match incoming, incoming', hincoming with
  | [], [], .nil => infer_instance
  | [(x, b)], [(y, b')], .cons h .nil => exact ⟨fun _ => .pure (.some ⟨h.value, rfl⟩)⟩
  | (x, b) :: p :: ps, (y, b') :: q :: qs, .cons h hrest =>
    refine .ofSuits fun r hr _ => ?_
    dsimp only
    rw [hr.ty h.value]
    have (G : Prop) :
      Similar C w G (Op.phi ((x, .block b) :: (p :: ps).map fun p => (p.1, .block p.2)))
        (.phi ((y, .block b') :: (q :: qs).map fun p => (p.1, .block p.2))) :=
      ⟨fun _ r hr => congrArg Op.phi (hr.map_incoming (.cons h hrest))⟩
    infer_instance

end Branches

/-! ## Around expressions -/

theorem releasing_of_ok {α : Type} {h : Held} {body : Build α} {env : Env} {s s1 s' : State} {a : α}
    (hbody : body env s = .ok a s1)
    (hclose : (do if !(← terminated) then discard h : Build Unit) env s1 = .ok () s') :
    releasing h body env s = .ok a s' := by
  unfold releasing
  dsimp only
  rw [hbody]
  dsimp only
  rw [hclose]

instance {α : Type} [Likeness α] {h h' : Held} {body body' : Build α}
    [hbody : Advances C w H body body']
    [hh : Similar C w H h h'] [ht : Legible C H h.type] :
    Advances C w H (releasing h body) (releasing h' body') := by
  refine ⟨fun hH s s' a t hs hrun => ?_⟩
  obtain ⟨s1, hrun1, hclose⟩ := releasing_ok hrun
  obtain ⟨w', b, s1', hrun1', hw, hs1, hab⟩ := hbody.onward hH hs hrun1
  have hstep : Parallel C w' (w.Grows w' ∧ H) (do if !(← terminated) then discard h)
      (do if !(← terminated) then discard h') := inferInstance
  obtain ⟨_, t', hclose', ht', -⟩ := hstep.inStep ⟨hw, hH⟩ hs1 hclose
  exact ⟨w', b, t', releasing_of_ok hrun1' hclose', hw, ht', hab⟩

/-! ## Expressions -/

/-- The types that an expression states have a written form, and what it mentions is there. -/
structure Body (P : ProgramPair) (e : Expr) : Prop where
  types : ∀ d, Expr.Occurs d e → ∀ t ∈ d.types, Written P.names t
  links : ∀ d, Expr.Occurs d e → d.Links P.env.program

section Body

variable {P : ProgramPair} {e d : Expr}

theorem Body.type (h : Body P e) {t : Option Reference} (ht : t ∈ e.types) : Written P.names t :=
  h.types e .here t ht

theorem Body.part (h : Body P e) (hd : d ∈ e.parts) : Body P d :=
  ⟨fun _ hd' => h.types _ (.part hd hd'), fun _ hd' => h.links _ (.part hd hd')⟩

end Body

theorem kind_reordered (ρ : Reordering) (e : Expr) : (ρ.expr e).kind = e.kind := by
  cases e <;> rfl

theorem length_exprs (ρ : Reordering) (es : List Expr) : (ρ.exprs es).length = es.length := by
  induction es with
  | nil => rfl
  | cons e es ih => rw [Reordering.exprs, List.length_cons, List.length_cons, ih]

/-- Edges are found by structs and interfaces, which keep their places. -/
theorem edgeIndex?_reordered (i j : Int) :
    C.env'.program.edgeIndex? i j = C.env.program.edgeIndex? i j :=
  rfl

/-- The two lowerings of an expression come to the same code, but for places. -/
class LowersAlike (C : Course) (e : Expr) : Prop where
  advances : ∀ w H, Advances C w H (lowerExpr e) (lowerExpr ((functionOrder C.order).expr e))

instance {e : Expr} [h : LowersAlike C e] : Advances C w H (arriving e (lowerExpr e))
    (arriving ((functionOrder C.order).expr e) (lowerExpr ((functionOrder C.order).expr e))) := by
  have := h.advances
  have hflare (G : Prop) (w : Pools) : Advances C w G
      (do
        if (← read).options.flares then flare e.kind
        lowerExpr e)
      (do
        if (← read).options.flares then flare e.kind
        lowerExpr ((functionOrder C.order).expr e)) := by
    refine ⟨fun hG => .read ((?_ : Advances C w G _ _).onward hG)⟩
    rw [show C.env'.options = C.env.options from rfl]
    infer_instance
  unfold arriving
  rw [kind_reordered]
  infer_instance

section Lists

variable (es : List Expr) (h : ∀ e ∈ es, LowersAlike C e)
include h

theorem advances_lowerExprs (w : Pools) (H : Prop) :
    Advances C w H (lowerExprs es) (lowerExprs ((functionOrder C.order).exprs es)) := by
  induction es generalizing w H with
  | nil =>
    rw [Reordering.exprs, lowerExprs]
    infer_instance
  | cons e es ih =>
    obtain ⟨he, hes⟩ := List.forall_mem_cons.mp h
    have := ih hes
    rw [Reordering.exprs, lowerExprs, lowerExprs]
    infer_instance

theorem advances_lowerSequence (w : Pools) (H : Prop) (last last' : Result)
    [hlast : Similar C w H last last'] :
    Advances C w H (lowerSequence last es)
      (lowerSequence last' ((functionOrder C.order).exprs es)) := by
  induction es generalizing w H last last' with
  | nil =>
    rw [Reordering.exprs, lowerSequence, lowerSequence]
    infer_instance
  | cons e es ih =>
    obtain ⟨he, hes⟩ := List.forall_mem_cons.mp h
    have := ih hes
    rw [Reordering.exprs, lowerSequence, lowerSequence]
    infer_instance

end Lists

/-- An expression is lowered to the same code, but for places. -/
theorem lowersAlike (hknown : ∀ i, C.known i) (e : Expr) :
    Body C.toProgramPair e → LowersAlike C e := by
  induction e using Expr.parts_induction with
  | step e ih =>
  intro hb
  have : AllKnown C := ⟨hknown⟩
  have hpart : ∀ d ∈ e.parts, LowersAlike C d := fun d hd => ih d hd (hb.part hd)
  have hnear (d : Expr) [h : Among d e.parts] : LowersAlike C d := hpart d h.mem
  have hargs := advances_lowerExprs e.parts hpart
  have htype (t : Option Reference) (H : Prop) [h : Among t e.types] : Legible C H t :=
    ⟨fun _ => hb.type h.mem⟩
  have hlength (es : List Expr) := length_exprs (functionOrder C.order) es
  refine ⟨fun w H => ?_⟩
  cases e with
    simp only [Expr.parts, Expr.types, Reordering.expr, lowerExpr, hlength] at hnear hargs htype ⊢
  | missing | constantI64 | constantBool | constantStr | discard | ret | stackify | unstackify
  | localLoad | localStore | interfaceCall | newStruct | ite | loop | memberLoad | memberStore
  | knownArrayLoad | unknownArrayLoad | arrayLength | consumeKnownArray | consumeUnknownArray =>
    infer_instance
  | argument type index =>
    refine @Advances.ofParallel _ _ _ _ _ _ _ (.currentFunc fun r f => ?_)
    rw [Ir.Func.params_relocate]
    cases Program.byId f.params.toArray index with
    | none => exact inferInstanceAs (Parallel C w H (violation _) _)
    | some p => exact inferInstanceAs (Parallel C w H (pure _) (pure _))
  | call function args | externCall function args =>
    have (H : Prop) : Granted H (∀ f ∈ function, f.types = []) := ⟨fun _ => hb.links _ .here⟩
    infer_instance
  | block exprs =>
    have := advances_lowerSequence exprs hpart w H none none
    have hempty : ((functionOrder C.order).exprs exprs).isEmpty = exprs.isEmpty := by
      cases exprs <;> rfl
    rw [hempty]
    infer_instance
  | destroy source type slots =>
    have (H : Prop) : Granted H (∀ l ∈ slots, Written C.names (l.bind (·.type))) :=
      ⟨fun _ l hl => hb.type (List.mem_cons_of_mem _ (List.mem_map_of_mem hl))⟩
    infer_instance
  | upcast source type struct interface =>
    refine .bindSame fun r => .ite inferInstance (.bind fun w1 _ _ => ?_)
    refine @Advances.ofParallel _ _ _ _ _ _ _ (.bind fun h h' => .bindSame fun n =>
      .bindSame fun sid => ?_)
    refine .bindSame fun i => .bindSame fun iid =>
      ⟨fun hH => .program ((?_ : Parallel C w1 _ _ _).inStep hH)⟩
    rw [edgeIndex?_reordered]
    cases C.env.program.edgeIndex? sid iid <;> infer_instance
  | newArray | tabulate =>
    refine .bindSame fun r => ?_
    split <;> infer_instance

end Tenure.Lowering
