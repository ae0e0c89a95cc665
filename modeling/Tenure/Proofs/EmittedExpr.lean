import Tenure.Proofs.EmittedValues

/-!
# Expressions emit code in order

An expression may end control: then it gives no value, and the current block is
closed.  `Lowers` is the judgement for parts that may do so.  That a value is only
given where control goes on is what lets the parts around an expression write
more code.
-/

namespace Tenure.Lowering

open Ir (Operand Func)

variable {α β : Type} {U : List Operand} {env : Env} {s s' : State} {f f' : Func}
variable {x : Build Result} {r : Result} {rs : List Result} {h : Held} {v : Operand}

set_option synthInstance.maxSize 4000

/-! ## Results -/

def Result.operands (r : Result) : List Operand := r.toList.map (·.value)

@[simp] theorem Result.operands_none : Result.operands none = [] := rfl
@[simp] theorem Result.operands_some : Result.operands (some h) = [h.value] := rfl

/-- A part of lowering writes code that is in order, and may end control; it gives
a value only if it does not. -/
def Lowers (U : List Operand) (x : Build Result) : Prop :=
  ∀ ⦃env : Env⦄ ⦃s : State⦄ ⦃r : Result⦄ ⦃s' : State⦄ ⦃f : Func⦄, Placed s f →
    f.term? s.block = none → x env s = .ok r s' →
    ∃ f', Grown U r.operands s f s' f' ∧ (r.isSome → f'.term? s'.block = none)

instance : Hands Result := ⟨Result.operands⟩
instance : Provided U (none : Result) := ⟨by simp [Hands.operands]⟩
instance [hh : Provided U h] : Provided U (some h : Result) := ⟨hh.given⟩

theorem Emits.lowers (h : Emits U x Result.operands) : Lowers U x := by
  intro env s r s' f hp hopen hrun
  obtain ⟨f', hg, hopen'⟩ := h hp hopen hrun
  exact ⟨f', hg, fun _ => hopen'⟩

theorem Lowers.of [hx : Orderly U x] : Lowers U x := hx.emits.lowers

theorem use_ok (hrun : use r env s = .ok h s') : r = some h ∧ s = s' := by
  cases r with
  | none => exact absurd hrun throw_ne_ok
  | some g =>
    obtain ⟨rfl, rfl⟩ := pure_ok hrun
    exact ⟨rfl, rfl⟩

variable {k : Held → Build β} {K : β → List Operand} {e : Expr}

theorem use_then {b : β} (hrun : (use r >>= k) env s = .ok b s') :
    ∃ h, r = some h ∧ k h env s = .ok b s' := by
  obtain ⟨h, _, h1, hrun⟩ := bind_ok hrun
  obtain ⟨rfl, rfl⟩ := use_ok h1
  exact ⟨h, rfl, hrun⟩

/-- The value of an expression is used. -/
theorem Lowers.use (hx : Lowers U x) (hk : ∀ h, Emits (h.value :: U) (k h) K) :
    Emits U (x >>= fun r => use r >>= k) K := by
  intro env s b s'' f hp hopen hrun
  obtain ⟨r, s', h1, hrun⟩ := bind_ok hrun
  obtain ⟨h, rfl, hrun⟩ := use_then hrun
  obtain ⟨f', hg, hopen'⟩ := hx hp hopen h1
  obtain ⟨f'', hg', hopen''⟩ := hk h hg.placed (hopen' rfl) hrun
  exact ⟨f'', hg.trans (hopen' rfl) hg', hopen''⟩

/-- The value of an expression is used by a part that may end control. -/
theorem Lowers.useThen {k : Held → Build Result} (hx : Lowers U x)
    (hk : ∀ h, Lowers (h.value :: U) (k h)) : Lowers U (x >>= fun r => Lowering.use r >>= k) := by
  intro env s b s'' f hp hopen hrun
  obtain ⟨r, s', h1, hrun⟩ := bind_ok hrun
  obtain ⟨h, rfl, hrun⟩ := use_then hrun
  obtain ⟨f', hg, hopen'⟩ := hx hp hopen h1
  obtain ⟨f'', hg', hopen''⟩ := hk h hg.placed (hopen' rfl) hrun
  exact ⟨f'', hg.trans (hopen' rfl) hg', hopen''⟩

/-- Control gets to an expression that is lowered. -/
theorem arriving_ok (h : arriving e x env s = .ok r s') (hp : Placed s f) :
    f.term? s.block = none := by
  replace h := terminated_then h hp.func
  cases hterm : f.term? s.block with
  | none => rfl
  | some t =>
    rw [hterm] at h
    exact absurd h refused_ne_ok

theorem Lowers.arriving (hx : Lowers U x) : Lowers U (arriving e x) := by
  intro env s r s' f hp hopen hrun
  have h := read_then (open_then hrun hp hopen)
  by_cases hflares : env.options.flares
  · rw [if_pos hflares] at h
    obtain ⟨_, s1, h1, h⟩ := bind_ok h
    obtain ⟨f1, hg, hopen1⟩ := Orderly.emits (U := U) hp hopen h1
    obtain ⟨f2, hg', hopen2⟩ := hx hg.placed hopen1 h
    exact ⟨f2, hg.trans hopen1 hg', hopen2⟩
  · rw [if_neg hflares] at h
    exact hx hp hopen h

/-! ## Lists of results -/

/-- A part that succeeds only if all results are values. -/
def Uses (rs : List Result) (x : Build α) : Prop :=
  ∀ ⦃env : Env⦄ ⦃s : State⦄ ⦃a : α⦄ ⦃s' : State⦄, x env s = .ok a s' → ∀ r ∈ rs, r.isSome

theorem Uses.first {x : Build α} {k : α → Build β} (hx : Uses rs x) : Uses rs (x >>= k) := by
  intro env s b s'' hrun
  obtain ⟨a, s', h1, -⟩ := bind_ok hrun
  exact hx h1

theorem Uses.later {x : Build α} {k : α → Build β} (hk : ∀ a, Uses rs (k a)) :
    Uses rs (x >>= k) := by
  intro env s b s'' hrun
  obtain ⟨a, s', -, h2⟩ := bind_ok hrun
  exact hk a h2

theorem Uses.use {k : Held → Build α}
    (hk : ∀ h, Uses rs (k h)) : Uses (r :: rs) (use r >>= k) := by
  intro env s b s'' hrun
  obtain ⟨h, rfl, h2⟩ := use_then hrun
  intro r hr
  rcases List.mem_cons.mp hr with rfl | hr
  · rfl
  · exact hk h h2 r hr

theorem Uses.nil {x : Build α} : Uses [] x := fun _ _ _ _ _ _ hr => absurd hr (by simp)

theorem useAll_uses : Uses rs (useAll rs) := by
  unfold useAll
  induction rs with
  | nil => exact .nil
  | cons r rs ih =>
    rw [List.mapM_cons, bind_assoc]
    exact .use fun _ => .later fun _ => ih.first

/-- The values of a list of expressions. -/
def operandsOf (rs : List Result) : List Operand := rs.flatMap Result.operands

instance : Hands (List Result) := ⟨operandsOf⟩
instance : Hands (List Held) := ⟨List.map (·.value)⟩
instance : Hands Slot := ⟨fun slot => [slot.address]⟩

instance {slot : Slot} : Handed (Hands.operands slot ++ U) slot.address :=
  ⟨given_of_mem (List.mem_cons_self ..)⟩
instance : Provided U ([] : List Held) := ⟨by simp [Hands.operands]⟩
instance {hs : List Held} [hh : Handed U h.value] [hhs : Provided U hs] : Provided U (h :: hs) :=
  ⟨List.forall_mem_cons.mpr ⟨hh.given, hhs.given⟩⟩

theorem Provided.uncons (hrs : Provided U (r :: rs)) : Provided U r ∧ Provided U rs :=
  ⟨⟨fun v hv => hrs.given v (List.mem_append_left _ hv)⟩,
    ⟨fun v hv => hrs.given v (List.mem_append_right _ hv)⟩⟩

instance [hr : Provided U r] : Orderly U (use r) := by
  cases r with
  | none => exact ⟨.violation⟩
  | some g => exact ⟨.pure hr.given⟩

instance [hrs : Provided U rs] : Orderly U (useAll rs) := by
  unfold useAll
  induction rs generalizing U with
  | nil => exact inferInstanceAs (Orderly U (pure []))
  | cons r rs ih =>
    obtain ⟨_, _⟩ := hrs.uncons
    rw [List.mapM_cons]
    infer_instance

/-- Expressions are lowered one after the other.  Control may have ended before
the last of them is used, but then some result is no value. -/
def LowersAll (U : List Operand) (x : Build (List Result)) : Prop :=
  ∀ ⦃env : Env⦄ ⦃s : State⦄ ⦃rs : List Result⦄ ⦃s' : State⦄ ⦃f : Func⦄, Placed s f →
    f.term? s.block = none → x env s = .ok rs s' →
    ∃ f', Grown U (operandsOf rs) s f s' f' ∧ ((∀ r ∈ rs, r.isSome) → f'.term? s'.block = none)

theorem LowersAll.bind {x : Build (List Result)} {k : List Result → Build β} (hx : LowersAll U x)
    (huses : ∀ rs, Uses rs (k rs)) (hk : ∀ rs, Emits (Hands.operands rs ++ U) (k rs) K) :
    Emits U (x >>= k) K := by
  intro env s b s'' f hp hopen hrun
  obtain ⟨rs, s', h1, h2⟩ := bind_ok hrun
  obtain ⟨f', hg, hopen'⟩ := hx hp hopen h1
  have hopen' := hopen' (huses rs h2)
  obtain ⟨f'', hg', hopen''⟩ := hk rs hg.placed hopen' h2
  exact ⟨f'', hg.trans hopen' hg', hopen''⟩

theorem storeElements_uses {array : Operand} {r : Reference} {i : Nat} :
    Uses rs (storeElements array r i rs) := by
  induction rs generalizing i with
  | nil => exact .nil
  | cons x xs ih => exact .use fun _ => .later fun _ => .later fun _ => ih

instance {r : Reference} {i : Nat} [Handed U v] [hrs : Provided U rs] :
    Orderly U (storeElements v r i rs) := by
  induction rs generalizing U i with
  | nil => exact inferInstanceAs (Orderly U (pure ()))
  | cons x xs ih =>
    obtain ⟨_, _⟩ := hrs.uncons
    unfold storeElements
    infer_instance

theorem builtinArgs_uses {ts : List (Option Reference)}
    (h : rs.length = ts.length) : Uses rs (builtinArgs rs ts) := by
  induction rs generalizing ts with
  | nil => exact .nil
  | cons x xs ih =>
    cases ts with
    | nil => exact absurd h (by simp)
    | cons t ts => exact .use fun _ => (ih (by simpa using h)).first

instance {ts : List (Option Reference)} [hrs : Provided U rs] : Orderly U (builtinArgs rs ts) := by
  induction rs generalizing U ts with
  | nil => exact inferInstanceAs (Orderly U (pure []))
  | cons x xs ih =>
    obtain ⟨_, _⟩ := hrs.uncons
    cases ts <;> unfold builtinArgs <;> infer_instance

theorem callNative_uses {p : Prototype} : Uses rs (callNative p rs) := by
  unfold callNative
  split
  · intro env s h s' hrun
    split at hrun
    · exact absurd hrun refused_ne_ok
    · next hlen =>
      rw [not_or, not_not, not_not] at hlen
      exact (builtinArgs_uses (hlen.1.trans hlen.2.symm)).first hrun
  · exact .later fun _ => useAll_uses.first

instance {b : Builtin} {hs : List Held} [hhs : Provided U hs] : Orderly U (b.lower hs) := by
  have hall (h : Held) (hmem : h ∈ hs) : Handed U h.value :=
    ⟨hhs.given _ (List.mem_map_of_mem hmem)⟩
  unfold Builtin.lower
  split
  · have := hall _ (List.mem_singleton_self _)
    infer_instance
  · next x y =>
    have := hall x (by simp)
    have := hall y (by simp)
    infer_instance
  · infer_instance

instance {p : Prototype} [Provided U rs] : Orderly U (callNative p rs) := by
  unfold callNative
  split <;> infer_instance

/-! ## Operands that are released -/

theorem releasing_ok {body : Build α} {a : α} (hrun : releasing h body env s = .ok a s') :
    ∃ s1, body env s = .ok a s1 ∧
      (do if !(← terminated) then discard h : Build Unit) env s1 = .ok () s' := by
  unfold releasing at hrun
  dsimp only at hrun
  split at hrun
  · next a' s1 hbody =>
    split at hrun
    · next hclose =>
      injection hrun with ha hs
      subst ha hs
      exact ⟨s1, hbody, hclose⟩
    · cases hrun
  · split at hrun <;> cases hrun

instance [Hands α] {body : Build α} [Handed U h.value] [hbody : Orderly U body] :
    Orderly U (releasing h body) where
  emits env s a s' f hp hopen hrun := by
    obtain ⟨s1, h1, h2⟩ := releasing_ok hrun
    refine Emits.bind (k := fun a => do (do if !(← terminated) then discard h); pure a) hbody.emits
      (fun a => ?_) hp hopen ((bind_of_ok h1).trans (bind_of_ok h2))
    exact Emits.bind (.terminated Orderly.emits) fun _ => Orderly.emits

/-! ## Locals -/

theorem slotOf_ok {l : Local} {slot : Slot} (h : slotOf l env s = .ok slot s') :
    (∃ id, (id, slot) ∈ s.slots) ∧ s = s' := by
  replace h := get_then h
  cases hfound : s.slots.find? (·.1 == l.id) with
  | none =>
    rw [hfound] at h
    exact absurd h throw_ne_ok
  | some p =>
    rw [hfound] at h
    obtain ⟨rfl, rfl⟩ := pure_ok h
    exact ⟨⟨p.1, List.mem_of_find?_eq_some hfound⟩, rfl⟩

instance {l : Local} : Orderly U (slotOf l) where
  emits env s slot s' f hp hopen hrun := by
    obtain ⟨⟨id, hmem⟩, rfl⟩ := slotOf_ok hrun
    refine ⟨f, Grown.ofOpen hp (.refl _) (Ir.Func.Evolves.refl hp.lt hopen) fun D hD hU => ?_⟩
    refine ⟨D, hD, fun _ _ _ => Iff.rfl, fun _ hd => hd, fun v hv => ?_⟩
    obtain rfl := List.mem_singleton.mp hv
    -- slots are in the entry, which dominates every block
    refine (hp.slots _ hmem).imp fun d _ _ hd => ?_
    rw [hd]
    exact hD.entry _ hp.lt

instance {l : Local} : Orderly U (closeLocal l) where
  emits env s u s' f hp hopen hrun := by
    have hs := modify_ok hrun
    refine ⟨f, Grown.same ?_ ?_ (by rw [hs]) hopen (by simp)⟩
    · rw [hs]
      exact ⟨hp.func, hp.lt, fun p hmem => hp.slots p (List.mem_filter.mp hmem).1, hp.literals⟩
    · rw [hs]
      exact .ofTables { Tables.refl _ with } rfl rfl rfl

instance {l : Local} [Handed U v] : Orderly U (openLocal l v) := by
  refine ⟨.after .get fun _ => .ite (fun _ => .violation) fun _ => ?_⟩
  refine .after quiet_lowerType fun elem env s u s' f hp hopen hrun => ?_
  obtain ⟨address, s1, h1, hrun⟩ := bind_ok hrun
  obtain ⟨_, s2, h2, h3⟩ := bind_ok hrun
  -- the slot is in the entry
  have h0 : 0 < f.blocks.size := Nat.zero_lt_of_lt hp.lt
  obtain ⟨rfl, he⟩ := emitTo_ok h1 hp.func
  have hslot : (f.push 0 l.name (.ptr elem) (.alloca elem)).Known (fun d _ => d = 0)
      (.reg f.nextReg (.ptr elem)) :=
    ⟨0, _, _, (Ir.Func.has_push h0).mpr (.inr ⟨rfl, rfl, rfl⟩), rfl, rfl⟩
  obtain ⟨f1, hg1, hopen1⟩ := Orderly.emits (U := U) hp hopen h1
  obtain rfl := Option.some.inj (he.func.symm.trans hg1.placed.func)
  obtain ⟨f2, hg2, hopen2⟩ := Orderly.emits (U := .reg f.nextReg (.ptr elem) :: U)
    hg1.placed hopen1 h2
  have hg := hg1.trans hopen1 hg2
  have hs := modify_ok h3
  have hp2 := hg.placed
  refine ⟨f2, (hg.mono (W := U) (by simp)).trans hopen2 (Grown.same (V := []) ?_ ?_ ?_ hopen2
    (by simp)).1, ?_⟩
  · rw [hs]
    refine ⟨hp2.func, hp2.lt, fun p hmem => ?_, hp2.literals⟩
    rcases List.mem_cons.mp hmem with rfl | hmem
    · exact known_of_keeps hg2.keeps hslot
    · exact hp2.slots p hmem
  · rw [hs]
    exact .ofTables { Tables.refl _ with } rfl rfl rfl
  · rw [hs]
  · rw [hs]
    exact hopen2

instance {r : Reference} {i : Nat} {ms : List StructMember} {ls : List (Option Local)}
    [Handed U v] : Orderly U (openMembers v r i ms ls) := by
  induction ms generalizing U i ls with
  | nil => exact inferInstanceAs (Orderly U (pure ()))
  | cons m ms ih => cases ls <;> unfold openMembers <;> infer_instance

end Tenure.Lowering
