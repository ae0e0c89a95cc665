import Tenure.Proofs.ScopedExpr

/-!
# The arms of a conditional

The table of open locals goes through the arms of a conditional one after the other:
the second arm starts with what the first one has left open.  So arms that could be
lowered each on its own from the condition on may still not go together
(`ite_refused_closing_in_both_arms`).  They do go together as far as locals are concerned
exactly if the first arm leaves every local that the second one mentions open or closed
as it was (`ite_spares_locals`).
-/

namespace Tenure

namespace LocalEvent

/-- The local that an event is about. -/
def id : LocalEvent → Int
  | opens id | closes id | uses id => id

variable {opened opened' : Finset Int} {ts : List LocalEvent}
variable {t : LocalEvent}

theorem playAll_cons : playAll opened (t :: ts) = (t.play opened).bind (playAll · ts) :=
  List.foldlM_cons

/-- Whether an event is in order, and what it changes, is seen at its own local. -/
theorem play_eq_some (h : t.play opened = some opened') :
    (t.id ∈ opened ↔ ∀ i, t ≠ .opens i) ∧
      ∀ i, i ∈ opened' ↔ if i = t.id then ∀ j, t ≠ .closes j else i ∈ opened := by
  cases t with
  | opens j =>
    simp only [play] at h
    split at h <;> cases h
    next hj => simpa [id, hj] using fun i => by by_cases hi : i = j <;> simp [hi]
  | closes j =>
    simp only [play] at h
    split at h <;> cases h
    next hj => simp [id, hj]
  | uses j =>
    simp only [play] at h
    split at h <;> cases h
    next hj => simpa [id, hj] using fun i => by by_cases hi : i = j <;> simp [hi, hj]

theorem play_isSome : (t.play opened).isSome ↔ (t.id ∈ opened ↔ ∀ i, t ≠ .opens i) := by
  cases t <;> simp [play, id]

/-- Two sets of open locals that agree on the locals of a script play it alike. -/
theorem playAll_isSome_of_agree (h : ∀ t ∈ ts, (t.id ∈ opened' ↔ t.id ∈ opened))
    (hplay : (playAll opened ts).isSome) : (playAll opened' ts).isSome := by
  induction ts generalizing opened opened' with
  | nil => rfl
  | cons t ts ih =>
    obtain ⟨ht, hts⟩ := List.forall_mem_cons.1 h
    rw [playAll_cons] at hplay ⊢
    obtain ⟨left, hleft⟩ := Option.isSome_iff_exists.1 hplay
    obtain ⟨mid, hmid, hrest⟩ := Option.bind_eq_some_iff.1 hleft
    have horder : (t.play opened').isSome := by
      rw [play_isSome, ht, ← play_isSome, hmid]
      rfl
    obtain ⟨mid', hmid'⟩ := Option.isSome_iff_exists.1 horder
    rw [hmid', Option.bind_some]
    refine ih (fun u hu => ?_) (Option.isSome_of_eq_some hrest)
    rw [(play_eq_some hmid').2, (play_eq_some hmid).2]
    by_cases hid : u.id = t.id
    · simp [hid]
    · simpa [hid] using hts u hu

/-- A script in order from two sets of open locals tells them to agree on its locals. -/
theorem agree_of_playAll_isSome (h : (playAll opened ts).isSome)
    (h' : (playAll opened' ts).isSome) : ∀ t ∈ ts, (t.id ∈ opened' ↔ t.id ∈ opened) := by
  induction ts generalizing opened opened' with
  | nil => exact nofun
  | cons t ts ih =>
    rw [playAll_cons] at h h'
    obtain ⟨left, hleft⟩ := Option.isSome_iff_exists.1 h
    obtain ⟨mid, hmid, hrest⟩ := Option.bind_eq_some_iff.1 hleft
    obtain ⟨left', hleft'⟩ := Option.isSome_iff_exists.1 h'
    obtain ⟨mid', hmid', hrest'⟩ := Option.bind_eq_some_iff.1 hleft'
    have ht : t.id ∈ opened' ↔ t.id ∈ opened :=
      (play_eq_some hmid').1.trans (play_eq_some hmid).1.symm
    refine List.forall_mem_cons.2 ⟨ht, fun u hu => ?_⟩
    have hlater := ih (Option.isSome_of_eq_some hrest)
      (Option.isSome_of_eq_some hrest') u hu
    by_cases hid : u.id = t.id
    · rwa [hid]
    · rwa [(play_eq_some hmid').2, (play_eq_some hmid).2, if_neg hid, if_neg hid] at hlater

end LocalEvent
end Tenure

namespace Tenure.Lowering

open LocalEvent (playAll)

variable {env : Env} {s s1 s2 s3 : State} {cond thenBranch elseBranch : Expr}
  {type : Option Reference}

/-! ## A conditional, arm by arm -/

/-- The condition of a conditional, up to where control goes to the arms; gives their blocks. -/
def lowerCondition (cond : Expr) : Build (Nat × Nat) := do
  let c ← use (← lower cond)
  let thenBlock ← addBlock "then"
  let elseBlock ← addBlock "else"
  terminate (.condBr c.value (.block thenBlock) (.block elseBlock))
  return (thenBlock, elseBlock)

/-- An arm of a conditional, in its block. -/
def lowerArm (block : Nat) (e : Expr) : Build Result := do
  setBlock block
  lower e

theorem lowerExpr_ite : lowerExpr (.ite cond thenBranch elseBranch type) = (do
    let blocks ← lowerCondition cond
    let t ← liveBranch (← lowerArm blocks.1 thenBranch)
    let e ← liveBranch (← lowerArm blocks.2 elseBranch)
    joinBranches type (t ++ e)) := by
  simp only [lowerExpr, lowerCondition, lowerArm, lower, bind_assoc, pure_bind]

section Arm

variable {b : Nat} {e : Expr} {r : Result} {v : Violation}

theorem lowerArm_heeds : Heeds env .locals (env.program.TypesInScope ∧ e.InScope env.program)
    (lowerArm b e) e.script := by
  have := @heeds_lowerExpr env .locals e
  exact .after fun _ => inferInstanceAs (Heeds _ _ _ (arriving _ _) _)

theorem plays_lowerArm (h : lowerArm b e env s = .ok r s1) :
    playAll (openIds s) e.script = some (openIds s1) :=
  lowerArm_heeds.plays h

theorem heeds_lowerArm
    (hscript : Concern.locals = .locals → (playAll (openIds s) e.script).isSome)
    (h : lowerArm b e env s = .error (.violation v) s1) : v.concern? ≠ some .locals :=
  lowerArm_heeds.spares nofun hscript h

end Arm

/-- **Arms of a conditional and locals.**  A conditional whose condition can be lowered, whose
first arm can be lowered from there, and whose second arm could be lowered from there on its own,
is not refused because a local is not open or opened twice, if the first arm has every local that
the second one mentions open or closed as it was; and it is lowered only then. -/
theorem ite_spares_locals {a b : Nat} {r r' : Result}
    (hcond : lowerCondition cond env s = .ok (a, b) s1)
    (hthen : lowerArm a thenBranch env s1 = .ok r s2)
    (helse : lowerArm b elseBranch env s1 = .ok r' s3) :
    ((∀ t ∈ elseBranch.script, (t.id ∈ openIds s2 ↔ t.id ∈ openIds s1)) →
      ∀ v s', v.concern? = some .locals →
        lowerExpr (.ite cond thenBranch elseBranch type) env s ≠ .error (.violation v) s') ∧
    ((∃ x s', lowerExpr (.ite cond thenBranch elseBranch type) env s = .ok x s') →
      ∀ t ∈ elseBranch.script, (t.id ∈ openIds s2 ↔ t.id ∈ openIds s1)) := by
  have halone : (playAll (openIds s1) elseBranch.script).isSome := by
    rw [plays_lowerArm helse]
    rfl
  rw [lowerExpr_ite, bind_of_ok hcond, bind_of_ok hthen]
  constructor
  · rintro hkept v s' hv h
    have : Spares env .locals True (liveBranch r) := inferInstance
    obtain ⟨t, s4, h4, h⟩ : ∃ t s4, liveBranch r env s2 = .ok t s4 ∧ _ := by
      rcases bind_error h with h | h
      · exact absurd hv (this.shows nofun h)
      · exact h
    rcases bind_error h with h | ⟨_, s5, -, h⟩
    · refine heeds_lowerArm (fun _ => ?_) h hv
      rw [Idle.openIds_eq h4]
      exact LocalEvent.playAll_isSome_of_agree hkept halone
    · exact Spares.concern_ne (fun _ => trivial) h hv
  · rintro ⟨x, s', h⟩
    obtain ⟨t, s4, h4, h⟩ := bind_ok h
    obtain ⟨r5, s5, h5, -⟩ := bind_ok h
    have hafter := plays_lowerArm h5
    rw [Idle.openIds_eq h4] at hafter
    refine LocalEvent.agree_of_playAll_isSome halone ?_
    rw [hafter]
    rfl

/-! ## Two conditionals -/

/-- An int that is local `i`. -/
def intLocal (i : Int) : Option Local := some ⟨i, "n", some .int⟩

/-- A function of no block but its first one, where local 0 is open. -/
def oneOpen : State where
  module := { funcs := #[
    { name := "f", result := .int 64, params := [], blocks := #[{ name := "entry" }] }] }
  slots := [(0, { address := .param 0 (.ptr (.int 64)), elem := .int 64 })]

/-- Each arm closes local 0: either of them can be lowered after the condition, but not both. -/
theorem ite_refused_closing_in_both_arms : ∃ a b s1 r s2 r' s3 s',
    lowerCondition (.constantBool true) ⟨{}, {}⟩ oneOpen = .ok (a, b) s1 ∧
    lowerArm a (.unstackify (intLocal 0)) ⟨{}, {}⟩ s1 = .ok r s2 ∧
    lowerArm b (.unstackify (intLocal 0)) ⟨{}, {}⟩ s1 = .ok r' s3 ∧
    lowerExpr (.ite (.constantBool true) (.unstackify (intLocal 0)) (.unstackify (intLocal 0))
      (some .int)) ⟨{}, {}⟩ oneOpen = .error (.violation (.notOpen "n" 0)) s' :=
  ⟨1, 2, _, _, _, _, _, _, rfl, rfl, rfl, rfl⟩

/-- Opens and closes local 1. -/
def ownLocal : Expr :=
  .block [.stackify (.constantI64 1) (intLocal 1), .unstackify (intLocal 1)]

/-- The first arm opens and closes a local of its own, the second one closes local 0. -/
theorem ite_spares_locals_own_local : ∃ a b s1 r s2 r' s3,
    lowerCondition (.constantBool true) ⟨{}, {}⟩ oneOpen = .ok (a, b) s1 ∧
    lowerArm a ownLocal ⟨{}, {}⟩ s1 = .ok r s2 ∧
    lowerArm b (.unstackify (intLocal 0)) ⟨{}, {}⟩ s1 = .ok r' s3 ∧
    ∀ v s', v.concern? = some .locals →
      lowerExpr (.ite (.constantBool true) ownLocal (.unstackify (intLocal 0)) (some .int))
        ⟨{}, {}⟩ oneOpen ≠ .error (.violation v) s' := by
  refine ⟨1, 2, _, _, _, _, _, rfl, rfl, rfl, ?_⟩
  refine (ite_spares_locals rfl rfl rfl).1 ?_
  decide +kernel

end Tenure.Lowering
