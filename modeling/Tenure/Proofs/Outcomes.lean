import Mathlib.Data.List.Forall2
import Mathlib.Tactic.Common

/-!
# Computations that may fail

What is known of the parts of a computation that came to its end.
-/

namespace Tenure

variable {ε α β : Type}
variable {f : α → Except ε β} {xs : List α} {ys : List β} {x : Except ε α} {γ : Type}

/-- A computation that may fail has come to its end only through both its halves. -/
theorem except_bind_ok {y : α → Except ε β} {b : β} (h : x >>= y = .ok b) :
    ∃ a, x = .ok a ∧ y a = .ok b := by
  cases x with
  | error e => cases h
  | ok a => exact ⟨a, rfl, h⟩

/-- A computation that passes a test has come to its end. -/
theorem except_of_any {P : α → Bool} (h : x.toOption.any P = true) :
    ∃ a, x = .ok a ∧ P a = true := by
  cases x with
  | error e => cases h
  | ok a => exact ⟨a, rfl, h⟩

theorem except_mapError_ok {ε' : Type} {g : ε → ε'} {a : α} (h : x.mapError g = .ok a) :
    x = .ok a := by
  cases x with
  | error e => cases h
  | ok a' => cases h; rfl

theorem except_mapM_ok (h : xs.mapM f = .ok ys) : List.Forall₂ (fun x y => f x = .ok y) xs ys := by
  induction xs generalizing ys with
  | nil =>
    cases h
    exact .nil
  | cons x xs ih =>
    rw [List.mapM_cons] at h
    obtain ⟨y, hy, h⟩ := except_bind_ok h
    obtain ⟨ys', hys, h⟩ := except_bind_ok h
    cases h
    exact .cons hy (ih hys)

theorem exists_of_mem_mapM (h : xs.mapM f = .ok ys) {y : β} (hy : y ∈ ys) :
    ∃ x ∈ xs, f x = .ok y := by
  obtain ⟨k, hk, rfl⟩ := List.getElem_of_mem hy
  have hxs := except_mapM_ok h
  have hk' := hxs.length_eq ▸ hk
  exact ⟨xs[k], List.getElem_mem hk', hxs.get hk' hk⟩

theorem except_mapM_of_forall (h : ∀ x ∈ xs, ∃ y, f x = .ok y) : ∃ ys, xs.mapM f = .ok ys := by
  induction xs with
  | nil => exact ⟨[], rfl⟩
  | cons x xs ih =>
    obtain ⟨⟨y, hy⟩, hxs⟩ := List.forall_mem_cons.mp h
    obtain ⟨ys, hys⟩ := ih hxs
    refine ⟨y :: ys, ?_⟩
    rw [List.mapM_cons, hy, hys]
    rfl

theorem except_mapM_getElem? (h : xs.mapM f = .ok ys) (k : Nat) :
    ys[k]? = xs[k]?.bind fun x => (f x).toOption := by
  replace h := except_mapM_ok h
  induction h generalizing k with
  | nil => simp
  | cons hy _ ih =>
    cases k with
    | zero => simp [hy, Except.toOption]
    | succ k => simpa using ih k

theorem except_mapM_map (g : β → γ) (h : xs.mapM f = .ok ys) :
    xs.mapM (fun x => (f x).map g) = .ok (ys.map g) := by
  replace h := except_mapM_ok h
  induction h with
  | nil => rfl
  | cons hy _ ih =>
    rw [List.mapM_cons, hy, ih]
    rfl

/-- What every result takes over from its source, the list of results takes over. -/
theorem map_eq_of_mapM {g : β → γ} {g' : α → γ} (h : xs.mapM f = .ok ys)
    (hg : ∀ x y, f x = .ok y → g y = g' x) : ys.map g = xs.map g' := by
  have hforall := (except_mapM_ok h).imp fun x y hxy => (hg x y hxy).symm
  rw [← List.forall₂_eq_eq_eq, List.forall₂_map_left_iff, List.forall₂_map_right_iff]
  exact hforall.flip.imp fun _ _ => Eq.symm

end Tenure
