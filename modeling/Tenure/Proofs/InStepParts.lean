import Tenure.Proofs.EmittedExpr
import Tenure.Proofs.InStep

/-!
# The parts of lowering in step

Every part of lowering below expressions, for two runs: handed operands that are
alike, and types with a written form, it gives operands that are alike.  How a part is
put together is found by its shape.  What is left to say is where the program or the
state is read, and how a part recurses.
-/

namespace Tenure.Lowering

open Ir (Ty Const Operand Op Func)

variable {P : ProgramPair} {C : Course} {w : Pools} {H : Prop} {x y x' y' : Operand}

set_option synthInstance.maxSize 4000

/-! ## Types -/

theorem even_structIndex (n : Symbol) : Even P.names P.env P.env' (structIndex n) (structIndex n) :=
  ⟨structIndex? P.env.program n, reckons_structIndex, reckons_structIndex⟩

theorem even_interfaceIndex (n : Symbol) :
    Even P.names P.env P.env' (interfaceIndex n) (interfaceIndex n) :=
  ⟨interfaceIndex? P.env.program n, reckons_interfaceIndex, reckons_interfaceIndex⟩

theorem even_lowerReferend {o : Ownership} {l : Location} {r : Referend}
    (hr : r.Printable P.names) :
    Even P.names P.env P.env' (lowerReferend o l r) (lowerReferend o l r) := by
  refine ⟨typeOf? P.env.program l r, reckons_lowerReferend hr, ?_⟩
  rw [← typeOf?_withFunctions P.env.program P.functions P.edges]
  exact reckons_lowerReferend hr

theorem even_lowerType {t : Option Reference} (ht : Written P.names t) :
    Even P.names P.env P.env' (lowerType t) (lowerType t) :=
  .requireBind fun r hr => even_lowerReferend (ht r hr)

theorem even_arrayLayout {r : Referend} (hr : r.Printable P.names) :
    Even P.names P.env P.env' (arrayLayout r) (arrayLayout r) := by
  refine ⟨layoutOf? P.env.program r, reckons_arrayLayout hr, ?_⟩
  rw [← layoutOf?_withFunctions P.env.program P.functions P.edges]
  exact reckons_arrayLayout hr

theorem even_receiverIndex (d : InterfaceDef) (m : Prototype) :
    Even P.names P.env P.env' (receiverIndex d m) (receiverIndex d m) := by
  refine .program ?_
  generalize 0 = i
  induction m.params generalizing i with
  | nil => exact .violation
  | cons t ts ih =>
    refine .requireBind fun r _ => ?_
    cases r.referend with
    | interface n => exact .ite .pure (ih (i + 1))
    | _ => exact ih (i + 1)

/-- It is known that a referend has a written form. -/
abbrev Printed (C : Course) (H : Prop) (e : Referend) : Prop := Granted H (e.Printable C.names)

/-- It is known that a stated type has a written form. -/
abbrev Legible (C : Course) (H : Prop) (t : Option Reference) : Prop :=
  Granted H (Written C.names t)

instance : Lore Reference := ⟨fun C r => r.referend.Printable C.names⟩
instance : Lore StructDef := ⟨fun C d => d ∈ C.env.program.structs⟩
instance : Lore InterfaceDef := ⟨fun C d => d ∈ C.env.program.interfaces⟩
instance : Lore StructMember := ⟨fun C m => Written C.names m.type⟩
instance : Lore (Nat × InterfaceDef × Prototype) := ⟨fun C p => Written C.names p.2.2.result⟩

section Types

variable {n : Symbol} {i : Nat} {t : Option Reference} {r : Reference} {e : Referend}

instance [h : Learnt C H r] : Printed C H r.referend := ⟨h.grant⟩
instance {m : StructMember} [h : Learnt C H m] : Legible C H m.type := ⟨h.grant⟩
instance {i : Nat} {d : InterfaceDef} {m : Prototype} :
    Legible C (Lore.Known C (i, d, m) ∧ H) m.result := ⟨And.left⟩
instance {d : StructDef} [h : Learnt C H d] : Granted H (∀ m ∈ d.members, Written C.names m.type) :=
  ⟨fun hH => C.written.members d (h.grant hH)⟩

instance [h : Printed C H r.referend] : Legible C H (some r) where
  grant hH _ he := by
    obtain rfl := Option.some.inj he
    exact h.grant hH

instance [h : Printed C H r.referend] {o : Ownership} : Printed C H (r.withOwnership o).referend :=
  h

instance [Printed C H r.referend] : Printed C H (lentElement r).referend := by
  unfold lentElement
  split <;> infer_instance

/-- The element type of a written type is written too. -/
instance [hr : Printed C H r.referend] : Legible C H (r.referend.elem?.getD none) where
  grant hH := by
    have hr := hr.grant hH
    cases hkind : r.referend with
    | array size o l elem =>
      rw [hkind] at hr
      intro e he
      obtain rfl : (⟨o, l, elem⟩ : Reference) = e := by simpa [Referend.elem?] using he
      exact hr.2.2.2
    | _ => exact fun e he => by simp [Referend.elem?] at he

instance [h : Legible C H t] : Parallel C w H (require t) (require t) :=
  ⟨fun hH => .require fun r hr => ⟨r, hr, rfl, h.grant hH r hr⟩⟩

instance : Parallel C w H (structIndex n) (structIndex n) := .ofEven (even_structIndex n)
instance : Parallel C w H (interfaceIndex n) (interfaceIndex n) := .ofEven (even_interfaceIndex n)
instance {d : InterfaceDef} {m : Prototype} : Parallel C w H (receiverIndex d m)
    (receiverIndex d m) :=
  .ofEven (even_receiverIndex d m)
instance [h : Printed C H r.referend] : Parallel C w H (lowerReference r) (lowerReference r) :=
  ⟨fun hH => (Parallel.ofEven (even_lowerReferend (h.grant hH))).inStep hH⟩
instance [h : Legible C H t] : Parallel C w H (lowerType t) (lowerType t) :=
  ⟨fun hH => (Parallel.ofEven (even_lowerType (h.grant hH))).inStep hH⟩
instance [h : Printed C H e] : Parallel C w H (arrayLayout e) (arrayLayout e) :=
  ⟨fun hH => (Parallel.ofEven (even_arrayLayout (h.grant hH))).inStep hH⟩

instance : Parallel C w H (structAt i) (structAt i) :=
  ⟨fun _ => .program (.require fun d hd => ⟨d, hd, rfl, Array.mem_of_getElem? hd⟩)⟩

instance : Parallel C w H (interfaceAt i) (interfaceAt i) :=
  ⟨fun _ => .program (.require fun d hd => ⟨d, hd, rfl, Array.mem_of_getElem? hd⟩)⟩

instance {id : Int} {count : Nat} : Parallel C w H (ownIndex id count) (ownIndex id count) := by
  unfold ownIndex
  infer_instance

instance [h : Similar C w H x y] : Parallel C w H (require x.ty.pointee?)
    (require y.ty.pointee?) := by
  refine .ofSuits fun r hr hH => ?_
  rw [hr.ty (h.grant hH)]
  infer_instance

end Types

/-! ## Results -/

/-- Two values of the two runs, under one type. -/
structure HeldAlike (C : Course) (w : Pools) (h h' : Held) : Prop where
  value : Alike C w h.value h'.value
  type : h'.type = h.type

/-- Two results of the two runs. -/
abbrev ResultAlike (C : Course) (w : Pools) : Result → Result → Prop := Option.Rel (HeldAlike C w)

/-- Two arguments of a builtin, under a type with a written form. -/
structure ArgAlike (C : Course) (w : Pools) (h h' : Held) : Prop extends HeldAlike C w h h' where
  written : Written C.names h.type

section Results

variable {w' : Pools} {h h' : Held} {r r' : Result} {rs rs' : List Result} {t : Option Reference}

theorem HeldAlike.mono (h0 : HeldAlike C w h h') (hw : w.Grows w') : HeldAlike C w' h h' :=
  ⟨h0.value.mono hw, h0.type⟩

theorem ResultAlike.mono (h0 : ResultAlike C w r r') (hw : w.Grows w') : ResultAlike C w' r r' := by
  cases h0 with
  | none => exact .none
  | some h0 => exact .some (h0.mono hw)

instance : Likeness Held := ⟨HeldAlike, fun hw h => h.mono hw⟩
instance : Likeness Result := ⟨ResultAlike, fun hw h => ResultAlike.mono h hw⟩
instance : Likeness (List Result) :=
  ⟨fun C w => List.Forall₂ (ResultAlike C w), fun hw h => h.imp fun _ _ h => ResultAlike.mono h hw⟩
instance : Likeness (List Held) :=
  ⟨fun C w => List.Forall₂ (ArgAlike C w), fun hw h => h.imp fun _ _ h =>
    ⟨h.toHeldAlike.mono hw, h.written⟩⟩

instance [hh : Similar C w H h h'] : Similar C w H h.value h'.value :=
  ⟨fun hH => (hh.grant hH).value⟩
instance [hx : Similar C w H x y] : Similar C w H (Held.mk x t) (Held.mk y t) :=
  ⟨fun hH => ⟨hx.grant hH, rfl⟩⟩
instance [Similar C w H x y] : Similar C w H (Held.int x) (Held.int y) :=
  inferInstanceAs (Similar C w H (Held.mk x _) (Held.mk y _))
instance [Similar C w H x y] : Similar C w H (Held.bool x) (Held.bool y) :=
  inferInstanceAs (Similar C w H (Held.mk x _) (Held.mk y _))
instance [Similar C w H x y] : Similar C w H (Held.str x) (Held.str y) :=
  inferInstanceAs (Similar C w H (Held.mk x _) (Held.mk y _))
instance : Similar C w H Held.void Held.void := ⟨fun _ => ⟨fun _ _ => rfl, rfl⟩⟩
instance : Similar C w H (none : Result) none := ⟨fun _ => .none⟩
instance [hh : Similar C w H h h'] : Similar C w H (some h : Result) (some h') :=
  ⟨fun hH => .some (hh.grant hH)⟩

instance : Similar C w H ([] : List Result) [] := ⟨fun _ => .nil⟩
instance [hr : Similar C w H r r'] [hrs : Similar C w H rs rs'] : Similar C w H (r :: rs)
    (r' :: rs') :=
  ⟨fun hH => .cons (hr.grant hH) (hrs.grant hH)⟩

section Arguments

variable {xs ys : List Operand} {i : Nat} [hxs : Similar C w H xs ys]

instance : Parallel C w H (require xs[i]?) (require ys[i]?) :=
  ⟨fun hH => .require fun _ hx => getElem?_forall₂ (hxs.grant hH) hx⟩

instance [hx : Similar C w H x y] : Similar C w H (xs.set i x) (ys.set i y) :=
  ⟨fun hH => forall₂_set (hxs.grant hH) (hx.grant hH)⟩

end Arguments

instance [h0 : Similar C w H r r'] : Parallel C w H (use r) (use r') := by
  refine ⟨fun hH => ?_⟩
  cases h0.grant hH with
  | none => exact .throw
  | some hh => exact .pure hh

instance [h0 : Similar C w H rs rs'] : Parallel C w H (useAll rs) (useAll rs') := by
  refine .ofKnown fun hH => ?_
  replace h0 := h0.grant hH
  unfold useAll
  induction h0 with
  | nil => exact inferInstanceAs (Parallel C w H (pure []) (pure []))
  | @cons r r' _ _ hr _ ih =>
    have : Similar C w H r r' := ⟨fun _ => hr⟩
    have := ih.weaken
    rw [List.mapM_cons, List.mapM_cons]
    infer_instance

instance [hh : Similar C w H h h']
    [Legible C H h.type] : Parallel C w H h.reference h'.reference := by
  refine .ofKnown fun hH => ?_
  unfold Held.reference
  rw [(hh.grant hH).type]
  infer_instance

end Results

/-! ## Loops and elements -/

instance {head last : Nat} {f f' : Func} [hf : Similar C w H f f'] [h : Similar C w H x y] :
    Parallel C w H (modifyFunc (·.addIncoming head f.nextReg x (.block last)))
      (modifyFunc (·.addIncoming head f'.nextReg y (.block last))) := by
  refine .ofSuits fun r hr hH => ?_
  rw [hf.grant hH r hr, Ir.Func.nextReg_relocate]
  exact parallel_modifyFunc (fun _ => rfl) (fun _ => rfl) fun hH r hr f => by
    rw [h.grant hH r hr, f.relocate_addIncoming]
    rfl

instance {b : Nat} : Similar C w H (Op.phi [(.i64 0, .block b)]) (.phi [(.i64 0, .block b)]) :=
  ⟨fun _ _ _ => rfl⟩

section Elements

variable {r : Reference} {body body' : Operand → Build Unit} [Similar C w H x y]

instance [hbody : ∀ i j, Parallel C w (Likeness.Like C w i j ∧ H) (body i) (body' j)] :
    Parallel C w H (buildLoop x body) (buildLoop y body') := by
  have := Parallel.weakenBody hbody
  unfold buildLoop
  infer_instance

instance [hr : Printed C H r.referend] : Parallel C w H (arrayLength x r) (arrayLength y r) := by
  unfold arrayLength
  split <;> infer_instance

instance [Printed C H r.referend] [Similar C w H x' y'] :
    Parallel C w H (elementPtr x r x') (elementPtr y r y') := by
  unfold elementPtr
  infer_instance

instance [Printed C H r.referend]
    [hbody : ∀ i j, Parallel C w (Likeness.Like C w i j ∧ H) (body i) (body' j)] :
    Parallel C w H (forEachElement x r body) (forEachElement y r body') := by
  have := Parallel.weakenBody hbody
  unfold forEachElement
  infer_instance

instance [Similar C w H x' y'] : Parallel C w H (checkBounds x x') (checkBounds y y') := by
  refine ⟨fun hH => .read ((?_ : Parallel C w H _ _).inStep hH)⟩
  rw [show C.env'.options = C.env.options from rfl]
  cases C.env.options.bounds <;> infer_instance

end Elements

/-! ## Counting -/

section Counting

variable {r : Reference} {n : Symbol} [hx : Similar C w H x y]

instance : Parallel C w H (countPtr x r) (countPtr y r) := by
  unfold countPtr
  cases r.referend <;> infer_instance

instance {delta : Int} : Parallel C w H (adjustCount x r delta) (adjustCount y r delta) := by
  unfold adjustCount
  infer_instance

instance : Parallel C w H (freeStorage x r) (freeStorage y r) := by
  unfold freeStorage
  cases r.referend <;> infer_instance

instance : Parallel C w H (destroyStorage x r) (destroyStorage y r) := by
  unfold destroyStorage
  cases r.ownership <;> infer_instance

instance {layout : Ty} : Parallel C w H (allocObject layout x) (allocObject layout y) := by
  unfold allocObject
  infer_instance

instance : Parallel C w H nestingFuel nestingFuel := .program rfl inferInstance

instance : Parallel C w H (dropStruct x n) (dropStruct y n) := by
  refine .bind fun raw raw' => .get fun s s' hs => .bindSame fun i => ?_
  rw [hs.left.drops, hs.right.drops]
  refine .requireSame fun drop hdrop => ?_
  obtain ⟨hknown, hplace⟩ := C.drops drop (Array.mem_of_getElem? hdrop)
  have hfunc (G : Prop) := parallel_funcOperand (w := w) (H := G) hknown
  rw [hplace] at hfunc
  infer_instance

instance : Parallel C w H (dropThroughTable x n) (dropThroughTable y n) := by
  refine .bind fun object object' => .bind fun itable itable' => .program rfl ?_
  infer_instance

instance {drop drop' : Build Unit} [hdrop : Parallel C w H drop drop'] :
    Parallel C w H (releaseShared x r drop) (releaseShared y r drop') := by
  have := hdrop.weaken
  unfold releaseShared
  infer_instance

end Counting

/-- Values under types with a written form are visited in step. -/
class Visits (C : Course) (visit : Held → Build Unit) : Prop where
  parallel : ∀ w H h h' [Similar C w H h h'] [Legible C H h.type],
    Parallel C w H (visit h) (visit h')

section Members

variable {visit : Held → Build Unit} [hvisit : Visits C visit] {r : Reference} {e : Referend}

instance {i : Nat} {ms : List StructMember} [hx : Similar C w H x y]
    [hms : Granted H (∀ m ∈ ms, Written C.names m.type)] :
    Parallel C w H (visitMembers x visit i ms) (visitMembers y visit i ms) := by
  have := hvisit.parallel
  induction ms generalizing H i with
  | nil => exact inferInstanceAs (Parallel C w H (pure ()) (pure ()))
  | cons m ms ih =>
    obtain ⟨_, _⟩ := hms.uncons
    unfold visitMembers
    infer_instance

instance [hx : Similar C w H x y] :
    Parallel C w H (forEachMember x e visit) (forEachMember y e visit) := by
  unfold forEachMember
  cases e <;> infer_instance

instance {drop drop' : Build Unit} [hx : Similar C w H x y] [Parallel C w H drop drop'] :
    Parallel C w H (releaseBy visit x r drop) (releaseBy visit y r drop') := by
  unfold releaseBy
  cases r.ownership <;> infer_instance

instance {o : Ownership} {l : Location} [hx : Similar C w H x y] [he : Printed C H e] :
    Parallel C w H (release visit x o l e) (release visit y o l e) := by
  induction e generalizing H x y o l with
  | array size o' l' elem ih =>
    have (G : Prop) [hG : Granted G H] : Printed C G elem :=
      ⟨fun hg => (he.grant (hG.grant hg)).2.2.2⟩
    unfold release
    infer_instance
  | _ =>
    unfold release
    infer_instance

end Members

section Values

variable {h h' : Held}

instance (n : Nat) : Visits C (acquireFuel n) := by
  induction n with
  | zero => exact ⟨fun _ _ _ _ => inferInstanceAs (Parallel _ _ _ crash crash)⟩
  | succ n ih =>
    refine ⟨fun w H h h' => ?_⟩
    unfold acquireFuel
    infer_instance

instance (n : Nat) : Visits C (discardFuel n) := by
  induction n with
  | zero => exact ⟨fun _ _ _ _ => inferInstanceAs (Parallel _ _ _ crash crash)⟩
  | succ n ih =>
    refine ⟨fun w H h h' => ?_⟩
    unfold discardFuel
    infer_instance

instance [Similar C w H h h'] [Legible C H h.type] : Parallel C w H (acquire h) (acquire h') := by
  have := fun n => (inferInstance : Visits C (acquireFuel n)).parallel
  unfold acquire
  infer_instance

instance [Similar C w H h h'] [Legible C H h.type] : Parallel C w H (discard h) (discard h') := by
  have := fun n => (inferInstance : Visits C (discardFuel n)).parallel
  unfold discard
  infer_instance

end Values

/-! ## Strings -/

section Strings

variable [Similar C w H x y]

instance : Parallel C w H (allocStr x) (allocStr y) := by
  unfold allocStr
  infer_instance

instance : Parallel C w H (strChars x) (strChars y) := by
  unfold strChars
  infer_instance

instance : Parallel C w H (strLength x) (strLength y) := by
  unfold strLength
  infer_instance

instance : Parallel C w H (Builtin.lowerIntToStr x) (Builtin.lowerIntToStr y) := by
  unfold Builtin.lowerIntToStr
  infer_instance

end Strings

section Builtins

variable {b : Builtin} {h h' g g' : Held}

instance [Similar C w H h h'] [Legible C H h.type] :
    Parallel C w H (b.lowerUnary h) (b.lowerUnary h') := by
  unfold Builtin.lowerUnary
  cases b <;> infer_instance

instance [Similar C w H h h'] [Legible C H h.type] [Similar C w H g g'] [Legible C H g.type] :
    Parallel C w H (b.lowerBinary h g) (b.lowerBinary h' g') := by
  unfold Builtin.lowerBinary
  cases b <;> infer_instance

instance {hs hs' : List Held} [hargs : Similar C w H hs hs'] :
    Parallel C w H (b.lower hs) (b.lower hs') := by
  have hone {h h' : Held} (hh : ArgAlike C w h h') : Similar C w H h h' ∧ Legible C H h.type :=
    ⟨⟨fun _ => hh.toHeldAlike⟩, ⟨fun _ => hh.written⟩⟩
  refine .ofKnown fun hH => ?_
  match hs, hs', hargs.grant hH with
  | [], [], .nil => exact inferInstanceAs (Parallel C w H crash crash)
  | [h], [h'], .cons hh .nil =>
    obtain ⟨_, _⟩ := hone hh
    exact inferInstanceAs (Parallel C w H (b.lowerUnary h) (b.lowerUnary h'))
  | [h, g], [h', g'], .cons hh (.cons hg .nil) =>
    obtain ⟨_, _⟩ := hone hh
    obtain ⟨_, _⟩ := hone hg
    exact inferInstanceAs (Parallel C w H (b.lowerBinary h g) (b.lowerBinary h' g'))
  | _ :: _ :: _ :: _, _, _ => exact inferInstanceAs (Parallel C w H crash _)

instance : Similar C w H ([] : List Held) [] := ⟨fun _ => .nil⟩
instance {hs hs' : List Held} {t : Option Reference} [hx : Similar C w H x y] [ht : Legible C H t]
    [hhs : Similar C w H hs hs'] : Similar C w H (Held.mk x t :: hs) (Held.mk y t :: hs') :=
  ⟨fun hH => .cons ⟨⟨hx.grant hH, rfl⟩, ht.grant hH⟩ (hhs.grant hH)⟩

instance {rs rs' : List Result} {ts : List (Option Reference)} [hrs : Similar C w H rs rs']
    [hts : Granted H (∀ t ∈ ts, Written C.names t)] :
    Parallel C w H (builtinArgs rs ts) (builtinArgs rs' ts) := by
  refine .ofKnown fun hH => ?_
  replace hrs := hrs.grant hH
  induction hrs generalizing ts with
  | nil => exact inferInstanceAs (Parallel C w H (pure []) (pure []))
  | @cons r r' _ _ hr _ ih =>
    cases ts with
    | nil => exact inferInstanceAs (Parallel C w H (pure []) (pure []))
    | cons t ts =>
      obtain ⟨_, _⟩ := hts.uncons
      have : Similar C w H r r' := ⟨fun _ => hr⟩
      have := (@ih ts _).weaken
      unfold builtinArgs
      infer_instance

end Builtins

/-! ## Interfaces -/

section Interfaces

variable {functor functor' : Held} {i : Nat}

instance [Similar C w H x y] [Similar C w H x' y'] :
    Parallel C w H (makeInterfaceRef i x x') (makeInterfaceRef i y y') :=
  .program rfl inferInstance

instance {edge : Nat} : Parallel C w H (tableOperand edge) (tableOperand edge) := by
  refine .get fun s s' hs => ?_
  rw [hs.left.itables, hs.right.itables]
  refine .requireSame fun i hi => ⟨fun _ => .get fun s s' hs => ?_⟩
  have hlt := C.itables i (Array.mem_of_getElem? hi)
  refine InStep.bind (V := fun g g' => g'.content = g.content) (.require fun g hg => ?_)
    fun heq => .pure fun r hr => ?_
  · have hright := hs.right.contents i hlt
    rw [← hs.left.contents i hlt, hg] at hright
    exact Option.map_eq_some_iff.mp hright
  · rw [Operand.relocate, Const.relocate, hr.global i hlt, heq]

instance {method : Int} [Similar C w H x y] :
    Parallel C w H (loadMethod i x method) (loadMethod i y method) :=
  .bindSame fun _ => .ite inferInstance (.program rfl inferInstance)

variable [hh : Similar C w H functor functor'] [Legible C H functor.type]

instance : Parallel C w H (functorMethod functor) (functorMethod functor') := by
  refine .bindSame fun r => ?_
  cases r.referend with
  | interface n =>
    refine .bindSame fun i => .bindSame fun d => ?_
    cases hms : d.methods with
    | nil => infer_instance
    | cons m ms =>
      refine .ite ⟨fun hH => .pure ⟨rfl, ?_⟩⟩ inferInstance
      exact C.written.methods d hH.1 m (by simp [hms]) _ (by simp [Prototype.types])
  | _ => infer_instance

instance [Similar C w H x y] : Parallel C w H (callFunctor functor x) (callFunctor functor' y) :=
  .bindSame fun ⟨_, _, _⟩ => inferInstance

end Interfaces

/-! ## Structs -/

section Structs

variable {r : Reference} {i : Int} {xs ys : List Operand}

instance : Parallel C w H (structDef r) (structDef r) := by
  unfold structDef
  cases r.referend <;> infer_instance

instance : Parallel C w H (memberOf r i) (memberOf r i) := by
  refine .bindSame fun d => ?_
  cases hm : Program.byId d.members.toArray i with
  | none => infer_instance
  | some m =>
    refine ⟨fun hH => .pure ⟨rfl, C.written.members d hH.1 m ?_⟩⟩
    unfold Program.byId at hm
    split at hm
    · simpa using Array.mem_of_getElem? hm
    · cases hm

instance {d : StructDef} : Parallel C w H (structOwnIndex d) (structOwnIndex d) :=
  .program rfl inferInstance

instance : Parallel C w H (isMutableView r) (isMutableView r) := by
  unfold isMutableView
  cases r.ownership <;> infer_instance

section Object

variable [Similar C w H x y]

instance : Parallel C w H (memberPtr x r i) (memberPtr y r i) := .program rfl inferInstance

instance {i : Nat} {m : StructMember} [Legible C H m.type] :
    Parallel C w H (readMember x r i m) (readMember y r i m) := by
  unfold readMember
  infer_instance

end Object

instance {i : Nat} [Similar C w H x y] [hxs : Similar C w H xs ys] :
    Parallel C w H (storeMembers x r i xs) (storeMembers y r i ys) := by
  refine .ofKnown fun hH => ?_
  replace hxs := hxs.grant hH
  induction hxs generalizing i with
  | nil => exact inferInstanceAs (Parallel C w H (pure ()) (pure ()))
  | @cons x y _ _ h _ ih =>
    have : Similar C w H x y := ⟨fun _ => h⟩
    have (i : Nat) := (ih (i := i)).weaken
    unfold storeMembers
    infer_instance

instance {i : Nat} [hx : Similar C w H x y] [hxs : Similar C w H xs ys] :
    Parallel C w H (insertMembers x i xs) (insertMembers y i ys) := by
  refine ⟨fun hH => ?_⟩
  replace hx := hx.grant hH
  induction hxs.grant hH generalizing x y i with
  | nil => exact .pure hx
  | @cons x' y' _ _ h _ ih =>
    have : Similar C w True x y := ⟨fun _ => hx⟩
    have : Similar C w True x' y' := ⟨fun _ => h⟩
    exact ((inferInstance : Parallel C w True _ _).inStep trivial).bind fun hagg => ih hagg

instance {d : StructDef} [Similar C w H xs ys] :
    Parallel C w H (makeStruct d r xs) (makeStruct d r ys) :=
  .bindSame fun _ => .ite (.program rfl inferInstance) (.program rfl inferInstance)

end Structs

/-! ## Arrays -/

section Arrays

variable {r : Reference} [Printed C H r.referend] [Similar C w H x y]

instance [Similar C w H x' y'] : Parallel C w H (loadElement x r x') (loadElement y r y') := by
  have helem : Legible C H (r.referend.elem?.getD none) := inferInstance
  unfold loadElement
  cases hkind : r.referend.elem? with
  | none => infer_instance
  | some elem =>
    rw [hkind, Option.getD_some] at helem
    dsimp only
    infer_instance

instance {rs rs' : List Result} {i : Nat} [hrs : Similar C w H rs rs'] :
    Parallel C w H (storeElements x r i rs) (storeElements y r i rs') := by
  refine .ofKnown fun hH => ?_
  replace hrs := hrs.grant hH
  induction hrs generalizing i with
  | nil => exact inferInstanceAs (Parallel C w H (pure ()) (pure ()))
  | @cons r r' _ _ h _ ih =>
    have : Similar C w H r r' := ⟨fun _ => h⟩
    have (i : Nat) := (ih (i := i)).weaken
    unfold storeElements
    infer_instance

variable {functor functor' : Held} [Similar C w H functor functor'] [Legible C H functor.type]

instance : Parallel C w H (tabulate x functor r) (tabulate y functor' r) := by
  unfold tabulate
  infer_instance

instance : Parallel C w H (consume x r functor) (consume y r functor') := by
  unfold consume
  infer_instance

end Arrays

end Tenure.Lowering
