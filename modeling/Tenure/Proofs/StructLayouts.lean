import Tenure.Proofs.ArrayElements

/-!
# Layouts of structs

The table of types has, for every struct, the types of its members and the object around them,
and one entry for texts (`ObjectTable`).
-/

namespace Tenure.Lowering

open Ir (Ty)

/-! ## The types of objects -/

/-- The members of a struct have their types in the table. -/
def MemberTypes (env : Env) (d : StructDef) (ts : List Ty) : Prop :=
  List.Forall₂ (fun m t => ∃ r, m.type = some r ∧ Becomes env r t) d.members ts

/-- What the table of types has for texts and for structs. -/
structure ObjectTable (env : Env) (types : Ir.TypeDefs) : Prop where
  text : ∃ name, types[1]? = some ⟨name, [controlBlockType, .i64, .array 0 .i8]⟩
  structs : ∀ (i : Nat) (d : StructDef), env.program.structs[i]? = some d → ∃ name wrapper ts,
    types[3 + 2 * i]? = some ⟨name, ts⟩ ∧
      types[4 + 2 * i]? = some ⟨wrapper, [controlBlockType, innerType env.program i]⟩ ∧
      MemberTypes env d ts

section Table

variable {env : Env} {s s' : State}

theorem mapM_forall₂ {α β : Type} {xs : List α} {k : α → Build β} {rs : List β}
    (h : xs.mapM k env s = .ok rs s') :
    List.Forall₂ (fun x r => ∃ s1 s2, k x env s1 = .ok r s2) xs rs := by
  induction xs generalizing s rs with
  | nil =>
    obtain ⟨rfl, -⟩ := pure_ok h
    exact .nil
  | cons x xs ih =>
    rw [List.mapM_cons] at h
    obtain ⟨r, s1, h1, h⟩ := bind_ok h
    obtain ⟨rs, s2, h2, h⟩ := bind_ok h
    obtain ⟨rfl, rfl⟩ := pure_ok h
    exact .cons ⟨s, s1, h1⟩ (ih h2)

variable {u : Unit}

theorem fillStructs_members {i : Nat} {ds : List StructDef} (h : fillStructs i ds env s = .ok u s')
    (hsize : 3 + 2 * (i + ds.length) ≤ s.module.types.size) {k : Nat} {d : StructDef}
    (hk : ds[k]? = some d) : ∃ name wrapper ts,
      s'.module.types[3 + 2 * (i + k)]? = some ⟨name, ts⟩ ∧
        s'.module.types[4 + 2 * (i + k)]? =
          some ⟨wrapper, [controlBlockType, innerType env.program (i + k)]⟩ ∧
        MemberTypes env d ts := by
  induction ds generalizing i s k with
  | nil => cases hk
  | cons d' ds ih =>
    rw [List.length_cons] at hsize
    obtain ⟨_, _, h1, h⟩ := bind_ok h
    obtain ⟨rfl, rfl⟩ := getProgram_ok h1
    obtain ⟨fields, s1, h1, h⟩ := bind_ok h
    obtain ⟨_, s2, h2, h⟩ := bind_ok h
    obtain ⟨_, s3, h3, h⟩ := bind_ok h
    have hquiet : Quiet (d'.members.mapM fun m => lowerType m.type) :=
      .mapM fun _ => quiet_lowerType
    have htypes : s3.module.types = (s.module.types.modify (3 + 2 * i) fun t =>
        { t with fields }).modify (4 + 2 * i) fun t =>
          { t with fields := [controlBlockType, innerType env.program i] } := by
      rw [setFields_types h3, setFields_types h2, hquiet.types h1]
    cases k with
    | zero =>
      obtain rfl := Option.some.inj hk
      have hlow : ∀ j < 3 + 2 * (i + 1), s'.module.types[j]? = s3.module.types[j]? :=
        fun j hj => fillStructs_types h (.inl hj)
      have hinner : 3 + 2 * i < s.module.types.size := by omega
      have hwrapper : 4 + 2 * i < s.module.types.size := by omega
      refine ⟨s.module.types[3 + 2 * i].name, s.module.types[4 + 2 * i].name, fields, ?_, ?_, ?_⟩
      · rw [Nat.add_zero, hlow _ (by omega), htypes, Array.getElem?_modify, if_neg (by omega),
          Array.getElem?_modify, if_pos rfl, Array.getElem?_eq_getElem hinner]
        rfl
      · rw [Nat.add_zero, hlow _ (by omega), htypes, Array.getElem?_modify, if_pos rfl,
          Array.getElem?_modify, if_neg (by omega), Array.getElem?_eq_getElem hwrapper]
        rfl
      · refine (mapM_forall₂ h1).imp fun m t hm => ?_
        obtain ⟨s1, s2, hm⟩ := hm
        obtain ⟨r, _, hr, ht⟩ := bind_ok hm
        exact ⟨r, (require_ok hr).1, _, _, ht⟩
    | succ k =>
      have := ih h (by rw [htypes]; simp; omega) hk
      rwa [show i + 1 + k = i + (k + 1) by omega] at this

/-- The entries of a blank table that belong to a struct. -/
theorem length_blankTypes (p : Program) : 3 + 2 * p.structs.size ≤ (blankTypes p).length := by
  rw [blankTypes, List.length_append, List.length_append, length_pairs]
  simp

theorem declareTypes_objects (h : declareTypes env s = .ok u s') :
    ObjectTable env s'.module.types := by
  replace h := getProgram_then h
  obtain ⟨_, s1, h1, h⟩ := bind_ok h
  have hs1 := modify_ok h1
  obtain ⟨_, s2, h2, h⟩ := bind_ok h
  have hkept := (fillInterfaces_types h).1
  refine ⟨⟨"__Str", ?_⟩, fun i d hd => ?_⟩
  · rw [hkept 1 fun k _ _ => by omega, fillStructs_types h2 (.inl (by omega)), hs1]
    rfl
  · have hlt := (Array.getElem?_eq_some_iff.mp hd).1
    have hsize := length_blankTypes env.program
    obtain ⟨name, wrapper, ts, hinner, hwrapper, hts⟩ := fillStructs_members h2
      (by simpa [hs1] using hsize) (k := i) (by simpa using hd)
    rw [Nat.zero_add] at hinner hwrapper
    refine ⟨name, wrapper, ts, ?_, ?_, hts⟩
    · rw [hkept _ fun k _ _ => by omega, hinner]
    · rw [hkept _ fun k _ _ => by omega, hwrapper]

theorem buildModule_objects {final : State} (hp : env.program.Numbered)
    (hbuild : buildModule env {} = .ok u final) : ObjectTable env final.module.types := by
  obtain ⟨s1, s2, hdeclare, htypes⟩ := buildModule_types hp hbuild
  rw [htypes]
  exact declareTypes_objects hdeclare

end Table

end Tenure.Lowering
