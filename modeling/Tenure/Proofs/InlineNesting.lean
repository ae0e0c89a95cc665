import Tenure.Proofs.Assembled
import Tenure.Proofs.Extents
import Tenure.Proofs.ReadPrograms
import Mathlib.Data.Finset.Card
import Mathlib.Logic.Relation

/-!
# Structs kept inside structs

A struct that is kept inline has no storage and no count of its own, so what is done
with it is done with its members, and so on inwards.  Three parts go inwards that way:
acquiring, releasing, and the layout of types.

Nothing keeps a document from a struct that contains itself (`parse_selfContained`), and
then none of the three comes to an end.  If no struct contains itself inline, acquiring
comes to an end, and every type has a layout.  Releasing goes further: the elements of
an array are released in place, so it also follows members that are arrays of structs
kept inline; it comes to an end if no struct is reached from itself that way
(`inwards_ends`).
-/

namespace Tenure

/-- A struct has a member that is another struct, kept inline. -/
def Program.Embeds (p : Program) (i j : Nat) : Prop :=
  ∃ d, p.structs[i]? = some d ∧ ∃ m ∈ d.members, ∃ o s,
    m.type = some ⟨o, .inline, .struct s⟩ ∧ p.structId s = j

/-- The struct whose members are released in place of a value: the value is such a struct,
kept inline, or an array of them. -/
def Referend.released (o : Ownership) (l : Location) : Referend → Option Symbol
  | .struct s => if o = .share ∧ l ≠ .yonder then some s else none
  | .array _ o' l' elem => if o = .share ∧ l = .yonder then elem.released o' l' else none
  | _ => none

/-- Releasing a member of a struct comes to the members of another struct. -/
def Program.Spills (p : Program) (i j : Nat) : Prop :=
  ∃ d, p.structs[i]? = some d ∧ ∃ m ∈ d.members, ∃ r ∈ m.type, ∃ s,
    r.referend.released r.ownership r.location = some s ∧ p.structId s = j

/-! ## How deep it goes -/

section Depth

open Classical in
/-- The number of things below `size` that are reached from something. -/
noncomputable def depth (R : Nat → Nat → Prop) (size i : Nat) : Nat :=
  ((Finset.range size).filter (Relation.TransGen R i)).card

variable {R : Nat → Nat → Prop} {size i j : Nat}

theorem depth_lt (hR : ∀ i, ¬ Relation.TransGen R i i) (hij : R i j) (hj : j < size) :
    depth R size j < depth R size i := by
  classical
  refine Finset.card_lt_card (Finset.ssubset_iff_of_subset ?_ |>.2 ⟨j, ?_, ?_⟩)
  · intro k hk
    rw [Finset.mem_filter] at hk ⊢
    exact ⟨hk.1, .head hij hk.2⟩
  · exact Finset.mem_filter.2 ⟨Finset.mem_range.2 hj, .single hij⟩
  · exact fun hk => hR j (Finset.mem_filter.1 hk).2

theorem depth_lt_size (hR : ∀ i, ¬ Relation.TransGen R i i) (hi : i < size) :
    depth R size i < size := by
  classical
  have hsub : (Finset.range size).filter (Relation.TransGen R i) ⊂ Finset.range size :=
    Finset.filter_ssubset.2 ⟨i, Finset.mem_range.2 hi, hR i⟩
  simpa [depth] using Finset.card_lt_card hsub

end Depth

end Tenure

namespace Tenure.Lowering

open Ir (Ty Operand)

variable {α β : Type} {env : Env}
variable {x : Operand} {r : Reference}

/-! ## Going inwards up to a depth -/

/-- Acquires a value like `acquireFuel`, with something else done at the depth where that gives
up. -/
def acquireUpTo (stop : Held → Build Unit) : Nat → Held → Build Unit
  | 0, h => stop h
  | depth + 1, h => do
      let r ← h.reference
      if r.ownership ≠ .share then return
      if r.isHeap then
        let _ ← adjustCount h.value r 1
      else forEachMember h.value r.referend (acquireUpTo stop depth)

/-- Discards a value like `discardFuel`, with something else done at the depth where that gives
up. -/
def discardUpTo (stop : Held → Build Unit) : Nat → Held → Build Unit
  | 0, h => stop h
  | depth + 1, h => do
      let r ← h.reference
      release (discardUpTo stop depth) h.value r.ownership r.location r.referend

theorem acquireFuel_eq (n : Nat) : acquireFuel n = acquireUpTo (fun _ => crash) n := by
  induction n with
  | zero => rfl
  | succ n ih =>
    funext h
    rw [acquireFuel, acquireUpTo, ih]

theorem discardFuel_eq (n : Nat) : discardFuel n = discardUpTo (fun _ => crash) n := by
  induction n with
  | zero => rfl
  | succ n ih =>
    funext h
    rw [discardFuel, discardUpTo, ih]

/-- Two computations that begin alike and go on alike. -/
theorem bind_agree {x x' : Build α} {k k' : α → Build β} (hx : x env = x' env)
    (hk : ∀ s a s', x env s = .ok a s' → k a env = k' a env) : (x >>= k) env = (x' >>= k') env := by
  funext s
  cases h : x env s with
  | ok a s' => rw [bind_of_ok h, hk s a s' h, bind_of_ok (hx ▸ h)]
  | error e s' =>
    have h' : x' env s = .error e s' := hx ▸ h
    change EStateM.bind (x env) _ s = EStateM.bind (x' env) _ s
    unfold EStateM.bind
    rw [h, h']

variable {visit visit' member' stop stop' : Held → Build Unit} {drop drop' : Build Unit}

theorem visitMembers_agree {ms : List StructMember}
    (h : ∀ m ∈ ms, ∀ y, visit ⟨y, m.type⟩ env = visit' ⟨y, m.type⟩ env) (i : Nat) :
    visitMembers x visit i ms env = visitMembers x visit' i ms env := by
  induction ms generalizing i with
  | nil => rfl
  | cons m ms ih =>
    obtain ⟨hm, hms⟩ := List.forall_mem_cons.1 h
    unfold visitMembers
    exact bind_agree rfl fun _ y _ _ => bind_agree (hm y) fun _ _ _ _ => ih hms (i + 1)

/-- The members of an inline struct are those of a struct of the program. -/
theorem forEachMember_agree {r : Referend}
    (h : ∀ n, r = .struct n → ∀ (i : Nat) d, env.program.structId n = i →
      env.program.structs[i]? = some d → ∀ m ∈ d.members, ∀ y,
        visit ⟨y, m.type⟩ env = visit' ⟨y, m.type⟩ env) :
    forEachMember x r visit env = forEachMember x r visit' env := by
  unfold forEachMember
  cases r with
  | struct n =>
    refine bind_agree rfl fun s i s' hi => bind_agree rfl fun s d s' hd => ?_
    obtain ⟨hi, -⟩ := structIndex_ok hi
    replace hd := getProgram_then hd
    exact visitMembers_agree (h n rfl i d hi (require_ok hd).1) 0
  | _ => rfl

theorem releaseShared_agree (h : drop env = drop' env) :
    releaseShared x r drop env = releaseShared x r drop' env :=
  bind_agree rfl fun _ _ _ _ => bind_agree rfl fun _ _ _ _ => bind_agree rfl fun _ _ _ _ =>
    bind_agree rfl fun _ _ _ _ => bind_agree rfl fun _ _ _ _ => bind_agree rfl fun _ _ _ _ =>
      bind_agree h fun _ _ _ _ => rfl

theorem forEachElement_agree {body body' : Operand → Build Unit}
    (h : ∀ y, body y env = body' y env) :
    forEachElement x r body env = forEachElement x r body' env := by
  refine bind_agree rfl fun _ length _ _ => ?_
  unfold buildLoop
  iterate 10 refine bind_agree rfl fun _ _ _ _ => ?_
  refine bind_agree ?_ fun _ _ _ _ => rfl
  exact bind_agree rfl fun _ y _ _ => h y

theorem releaseBy_agree {member : Held → Build Unit}
    (hdrop : r.ownership = .share → r.isHeap → drop env = drop' env)
    (hmember : r.ownership = .share → r.isHeap = false →
      forEachMember x r.referend member env = forEachMember x r.referend member' env) :
    releaseBy member x r drop env = releaseBy member' x r drop' env := by
  unfold releaseBy
  cases ho : r.ownership with
  | own | borrow | unknown => rfl
  | share =>
    dsimp only
    split
    · next hheap => exact releaseShared_agree (hdrop ho hheap)
    · next hheap => exact hmember ho (by simpa using hheap)

/-- Releasing a value passes on to the members of the struct it comes to. -/
theorem release_agree {member : Held → Build Unit} (r : Referend) :
    ∀ (o : Ownership) (l : Location), (∀ n, r.released o l = some n → ∀ (i : Nat) d,
      env.program.structId n = i → env.program.structs[i]? = some d → ∀ m ∈ d.members, ∀ y,
        member ⟨y, m.type⟩ env = member' ⟨y, m.type⟩ env) →
    ∀ x, release member x o l r env = release member' x o l r env := by
  induction r with
  | struct n =>
    intro o l h x
    refine releaseBy_agree (fun _ _ => rfl) fun ho hl => forEachMember_agree fun n' hn => ?_
    obtain rfl : n = n' := by simpa using hn
    refine h n ?_
    simp_all [Referend.released, Reference.isHeap]
  | array size o' l' elem ih =>
    intro o l h x
    refine releaseBy_agree (fun ho hl => ?_) fun _ _ => forEachMember_agree nofun
    split
    · refine bind_agree (forEachElement_agree fun y => ?_) fun _ _ _ _ => rfl
      refine bind_agree rfl fun _ t _ _ => bind_agree rfl fun _ item _ _ => ih o' l' ?_ item
      intro n hn
      refine h n ?_
      simp_all [Referend.released, Reference.isHeap]
    · rfl
  | _ =>
    intro o l _ x
    exact releaseBy_agree (fun _ _ => rfl) fun _ _ => forEachMember_agree nofun

/-! ## Deep enough -/

/-- A depth is enough for a type: whichever struct `inner` finds in it, the way inwards from there
is shorter. -/
def Fits (p : Program) (R : Nat → Nat → Prop) (inner : Reference → Option Symbol) (n : Nat)
    (t : Option Reference) : Prop :=
  0 < n ∧ ∀ r ∈ t, ∀ s ∈ inner r, ∀ i : Nat, p.structId s = i → i < p.structs.size →
    depth R p.structs.size i + 1 < n

variable {p : Program} {R : Nat → Nat → Prop} {inner : Reference → Option Symbol} {n : Nat}
  {t : Option Reference}

/-- A depth greater than the number of structs is enough for every type. -/
theorem Fits.of_lt (hR : ∀ i, ¬ Relation.TransGen R i i) (hn : p.structs.size < n) :
    Fits p R inner n t :=
  ⟨by omega, fun r _ s _ i _ hi => by have := depth_lt_size hR hi; omega⟩

/-- One less is enough for the members. -/
theorem Fits.member (h : Fits p R inner (n + 1) t) (hR : ∀ i, ¬ Relation.TransGen R i i)
    (hr : t = some r) {s : Symbol} (hs : inner r = some s) {i : Nat}
    {d : StructDef} (hi : p.structId s = i) (hd : p.structs[i]? = some d) {m : StructMember}
    (hm : ∀ r' ∈ m.type, ∀ s' ∈ inner r', ∀ j : Nat, p.structId s' = j → R i j) :
    Fits p R inner n m.type := by
  have hlt := h.2 r hr s hs i hi (Array.getElem?_eq_some_iff.1 hd).1
  refine ⟨by omega, fun r' hr' s' hs' j hj hjlt => ?_⟩
  have := depth_lt hR (hm r' hr' s' hs' j hj) hjlt
  omega

/-- The struct that a value kept in place is. -/
def keptStruct (r : Reference) : Option Symbol :=
  if r.isHeap then none else match r.referend with
    | .struct s => some s
    | _ => none

/-- Acquiring does not depend on what happens below a depth that is enough. -/
theorem acquireUpTo_agree
    (hp : ∀ d ∈ env.program.structs, ∀ m ∈ d.members, ∀ r ∈ m.type, r.location.Named)
    (hR : ∀ i, ¬ Relation.TransGen env.program.Embeds i i) (n : Nat) :
    ∀ n' h, Fits env.program env.program.Embeds keptStruct n h.type →
      Fits env.program env.program.Embeds keptStruct n' h.type →
      acquireUpTo stop n h env = acquireUpTo stop' n' h env := by
  induction n with
  | zero => exact fun n' h hfits _ => absurd hfits.1 (by omega)
  | succ n ih =>
    intro n' h hfits hfits'
    obtain ⟨n', rfl⟩ : ∃ k, n' = k + 1 := ⟨n' - 1, by have := hfits'.1; omega⟩
    unfold acquireUpTo
    refine bind_agree rfl fun _ r _ hrun => ?_
    have hr : h.type = some r := (require_ok hrun).1
    split
    · rfl
    split
    · rfl
    next hheap =>
    refine forEachMember_agree fun s hs i d hi hd m hm y => ih _ _ ?_ ?_
    all_goals
      have hkept : keptStruct r = some s := by simp [keptStruct, hheap, hs]
      refine Fits.member (by assumption) hR hr hkept hi hd fun r' hr' s' hs' j hj => ?_
      have hnamed := hp d (Array.mem_of_getElem? hd) m hm r' hr'
      refine ⟨d, hd, m, hm, r'.ownership, s', ?_, hj⟩
      obtain ⟨o, l, referend⟩ := r'
      rcases hnamed with rfl | rfl
      · cases referend <;> simp_all [keptStruct, Reference.isHeap]
      · simp [keptStruct, Reference.isHeap] at hs'

/-- Discarding does not depend on what happens below a depth that is enough. -/
theorem discardUpTo_agree (hR : ∀ i, ¬ Relation.TransGen env.program.Spills i i) (n : Nat) :
    ∀ n' h, Fits env.program env.program.Spills (fun r =>
      r.referend.released r.ownership r.location)
        n h.type →
      Fits env.program env.program.Spills (fun r => r.referend.released r.ownership r.location)
        n' h.type →
      discardUpTo stop n h env = discardUpTo stop' n' h env := by
  induction n with
  | zero => exact fun n' h hfits _ => absurd hfits.1 (by omega)
  | succ n ih =>
    intro n' h hfits hfits'
    obtain ⟨n', rfl⟩ : ∃ k, n' = k + 1 := ⟨n' - 1, by have := hfits'.1; omega⟩
    unfold discardUpTo
    refine bind_agree rfl fun _ r _ hrun => release_agree _ _ _ (fun s hs i d hi hd m hm y => ?_) _
    have hr : h.type = some r := (require_ok hrun).1
    have hspills : ∀ r' ∈ m.type, ∀ s' ∈ r'.referend.released r'.ownership r'.location,
        ∀ j : Nat, env.program.structId s' = j → env.program.Spills i j :=
      fun r' hr' s' hs' j hj => ⟨d, hd, m, hm, r', hr', s', hs', hj⟩
    exact ih _ _ (hfits.member hR hr hs hi hd hspills) (hfits'.member hR hr hs hi hd hspills)

end Tenure.Lowering

/-! ## Layouts -/

namespace Tenure.Ir

/-- A type made of integers, pointers and definitions of a kind, and of arrays and structs of
such types. -/
inductive Ty.Over (P : Nat → Prop) : Ty → Prop
  | int {bits : Nat} (h : bits = 1 ∨ bits = 8 ∨ bits = 64) : Over P (.int bits)
  | ptr {elem : Ty} : Over P (.ptr elem)
  | array {len : Nat} {elem : Ty} (h : Over P elem) : Over P (.array len elem)
  | struct {name : String} {fields : List Ty} (h : ∀ t ∈ fields, Over P t) :
      Over P (.struct name fields)
  | defined {i : Nat} {spelling : String} (h : P i) : Over P (.defined i spelling)

variable {Q : Nat → Prop} {defs : TypeDefs}

theorem Ty.Over.mono {P : Nat → Prop} {t : Ty} (h : t.Over P) (hPQ : ∀ i, P i → Q i) :
    t.Over Q := by
  induction h with
  | int h => exact .int h
  | ptr => exact .ptr
  | array _ ih => exact .array ih
  | struct _ ih => exact .struct ih
  | defined h => exact .defined (hPQ _ h)

theorem Ty.expandAll_eq_map {recur : Ty → Ty} (ts : List Ty) :
    Ty.expandWith.expandAll recur defs ts = ts.map (Ty.expandWith recur defs) := by
  induction ts with
  | nil => rfl
  | cons t ts ih => rw [Ty.expandWith.expandAll, ih, List.map_cons]

/-- Types are still made of the same when definitions are written out, where each step leads to
other definitions and ends at those that are not in the table. -/
theorem Ty.over_expandFuel {P : Nat → Nat → Prop} (hzero : ∀ i, P 0 i → Q i)
    (hnone : ∀ n i, P (n + 1) i → defs[i]? = none → Q i)
    (hsome : ∀ n i d, P (n + 1) i → defs[i]? = some d → ∀ t ∈ d.fields, t.Over (P n)) (n : Nat) :
    ∀ t : Ty, t.Over (P n) → (Ty.expandFuel defs n t).Over Q := by
  induction n with
  | zero => exact fun t ht => ht.mono hzero
  | succ n ih =>
    intro t ht
    rw [Ty.expandFuel]
    induction ht with
    | int h => exact .int h
    | ptr => exact .ptr
    | array _ ih => exact .array ih
    | struct _ ih =>
      rw [Ty.expandWith, Ty.expandAll_eq_map]
      refine .struct fun t ht => ?_
      obtain ⟨u, hu, rfl⟩ := List.mem_map.1 ht
      exact ih u hu
    | @defined i spelling h =>
      rw [Ty.expandWith]
      cases hd : defs[i]? with
      | none => exact .defined (hnone n i h hd)
      | some d =>
        refine .struct fun t ht => ?_
        obtain ⟨u, hu, rfl⟩ := List.mem_map.1 ht
        exact ih u (hsome n i d h hd u hu)

end Tenure.Ir

namespace Tenure.Interp

open Ir (Ty)

/-- The layout of a type can be computed once its definitions are written out. -/
def HasLayout (defs : Ir.TypeDefs) (t : Ty) : Prop :=
  ∃ size align, sizeOf (t.expand defs) = .ok size ∧ alignOf (t.expand defs) = .ok align

/-- A type without definitions has a layout. -/
theorem sized_of_over {t : Ty} (h : t.Over fun _ => False) : Sized t := by
  induction h with
  | int h => exact .int (by omega) (by omega)
  | ptr => exact .ptr
  | array _ ih => exact .array ih
  | struct _ ih => exact .struct _ ih
  | defined h => exact h.elim

end Tenure.Interp

namespace Tenure.Lowering

open Ir (Ty)
open Interp (HasLayout)

variable {env : Env} {s s' : State} {p : Program}
variable {i : Nat} {u : Unit}

/-! ## The table of types -/

/-- The number of definitions in the table of types. -/
def typeCount (p : Program) : Nat := 3 + 2 * p.structs.size + 2 * p.interfaces.size

/-- How deep a definition of the table goes: the members of a struct as deep as the struct nests,
the heap object around them one deeper. -/
noncomputable def typeRank (p : Program) (k : Nat) : Nat :=
  if k < 3 then k % 2
  else if k < 3 + 2 * p.structs.size then
    1 + (k - 3) % 2 + depth p.Embeds p.structs.size ((k - 3) / 2)
  else 0

theorem typeRank_fixed {k : Nat} (hk : k < 3) : typeRank p k = k % 2 := if_pos hk

theorem typeRank_inner (hi : i < p.structs.size) :
    typeRank p (3 + 2 * i) = 1 + depth p.Embeds p.structs.size i := by
  rw [typeRank, if_neg (by omega), if_pos (by omega)]
  congr 2 <;> omega

theorem typeRank_wrapper (hi : i < p.structs.size) :
    typeRank p (4 + 2 * i) = 2 + depth p.Embeds p.structs.size i := by
  rw [typeRank, if_neg (by omega), if_pos (by omega)]
  congr 2 <;> omega

theorem typeRank_le (hp : ∀ i, ¬ Relation.TransGen p.Embeds i i) (k : Nat) :
    typeRank p k ≤ p.structs.size + 1 := by
  rw [typeRank]
  split
  · omega
  · split
    · have hk : (k - 3) / 2 < p.structs.size := by omega
      have := depth_lt_size hp hk
      omega
    · omega

/-- A definition that stands lower in the table than another one. -/
def StandsBelow (p : Program) (k j : Nat) : Prop := j < typeCount p ∧ typeRank p j < typeRank p k

/-- The definitions of a table contain only such definitions as a relation allows. -/
structure Composed (B : Nat → Nat → Prop) (p : Program) (types : Ir.TypeDefs) : Prop where
  size : types.size = typeCount p
  fields : ∀ (k : Nat) (d : Ir.TypeDef), types[k]? = some d → ∀ t ∈ d.fields, t.Over (B k)

/-- The definitions of a table contain lower ones only. -/
abbrev Ranked (p : Program) (types : Ir.TypeDefs) : Prop := Composed (StandsBelow p) p types

/-- A relation that allows what the definitions of a program contain: the members of its structs,
and the control block with what is counted. -/
structure Allows (env : Env) (B : Nat → Nat → Prop) : Prop where
  members : ∀ (i : Nat) (d : StructDef), env.program.structs[i]? = some d → ∀ ts s s',
    (d.members.mapM fun m => lowerType m.type) env s = .ok ts s' → ∀ t ∈ ts, t.Over (B (3 + 2 * i))
  text : B 1 0
  header : ∀ i < env.program.structs.size, B (4 + 2 * i) 0
  inner : ∀ i < env.program.structs.size, B (4 + 2 * i) (3 + 2 * i)

theorem structIndex_range {n : Symbol} (h : structIndex n env s = .ok i s') :
    env.program.structId n = i ∧ i < env.program.structs.size := by
  replace h := getProgram_then h
  split at h
  · next hrange =>
    obtain ⟨rfl, -⟩ := pure_ok h
    exact ⟨by omega, by omega⟩
  · exact absurd h throw_ne_ok

/-- What the type of a reference is made of. -/
theorem lowerReferend_over {o : Ownership} {l : Location} {r : Referend} {t : Ty}
    (h : lowerReferend o l r env s = .ok t s') :
    t.Over fun j => j = 2 ∨ (3 + 2 * env.program.structs.size ≤ j ∧ j < typeCount env.program) ∨
      ∃ n, ∃ i : Nat, l = .inline ∧ r = .struct n ∧ env.program.structId n = i ∧
        i < env.program.structs.size ∧ j = 3 + 2 * i := by
  cases r with
  | int | bool | void | str =>
    obtain ⟨rfl, -⟩ := pure_ok h
    first
      | exact .int (by simp)
      | exact .ptr
      | exact .defined (.inl rfl)
  | struct n =>
    obtain ⟨i, _, h1, h⟩ := bind_ok h
    have hrange := structIndex_range h1
    split at h
    · next hl =>
      replace h := getProgram_then h
      obtain ⟨rfl, -⟩ := pure_ok h
      exact .defined (.inr (.inr ⟨n, i, hl, rfl, hrange.1, hrange.2, rfl⟩))
    · obtain ⟨_, _, -, h⟩ := bind_ok h
      obtain ⟨rfl, -⟩ := pure_ok h
      exact .ptr
  | interface n =>
    replace h := getProgram_then h
    obtain ⟨i, _, h2, h⟩ := bind_ok h
    obtain ⟨-, hi, -⟩ := interfaceIndex_ok h2
    obtain ⟨rfl, -⟩ := pure_ok h
    refine .defined (.inr (.inl ?_))
    unfold typeCount
    omega
  | array size o' l' elem =>
    unfold lowerReferend at h
    split at h
    · exact absurd h refused_ne_ok
    · obtain ⟨_, _, -, h⟩ := bind_ok h
      obtain ⟨rfl, -⟩ := pure_ok h
      exact .ptr
  | hollowArray size =>
    unfold lowerReferend at h
    split at h
    · exact absurd h refused_ne_ok
    · exact absurd h throw_ne_ok
  | missing => exact absurd h throw_ne_ok

/-- The types of the members of a struct contain lower definitions than the struct. -/
theorem lowerMembers_over (hp : ∀ i, ¬ Relation.TransGen env.program.Embeds i i)
    {d : StructDef} (hd : env.program.structs[i]? = some d) {ts : List Ty}
    (h : (d.members.mapM fun m => lowerType m.type) env s = .ok ts s') :
    ∀ t ∈ ts, t.Over (StandsBelow env.program (3 + 2 * i)) := by
  intro t ht
  obtain ⟨m, hm, _, _, hrun⟩ := (mapM_ok h).2 t ht
  obtain ⟨r, _, h1, hrun⟩ := bind_ok hrun
  have htype := (require_ok h1).1
  have hi := (Array.getElem?_eq_some_iff.1 hd).1
  refine (lowerReferend_over hrun).mono fun j hj => ?_
  rw [StandsBelow, typeRank_inner hi, typeCount]
  rcases hj with rfl | ⟨hge, hlt⟩ | ⟨n, k, hl, hr, hk, hklt, rfl⟩
  · exact ⟨by omega, by rw [typeRank_fixed (by omega)]; omega⟩
  · rw [typeCount] at hlt
    exact ⟨hlt, by rw [typeRank, if_neg (by omega), if_neg (by omega)]; omega⟩
  · have hembeds : env.program.Embeds i k := by
      refine ⟨d, hd, m, hm, r.ownership, n, ?_, hk⟩
      obtain ⟨o, l, referend⟩ := r
      simp_all
    have := depth_lt hp hembeds hklt
    rw [typeRank_inner hklt]
    omega

theorem standsBelow_allows (hp : ∀ i, ¬ Relation.TransGen env.program.Embeds i i) :
    Allows env (StandsBelow env.program) where
  members _ _ hd _ _ _ h := lowerMembers_over hp hd h
  text := ⟨by unfold typeCount; omega, by simp [typeRank]⟩
  header i hi := by
    refine ⟨by unfold typeCount; omega, ?_⟩
    rw [typeRank_wrapper hi, typeRank_fixed (by omega)]
    omega
  inner i hi := by
    refine ⟨by unfold typeCount; omega, ?_⟩
    rw [typeRank_wrapper hi, typeRank_inner hi]
    omega

section Filling

variable {B : Nat → Nat → Prop}

theorem Composed.setFields {spelling : String} {fields : List Ty}
    (hs : Composed B p s.module.types) (hfields : ∀ t ∈ fields, t.Over (B i))
    (h : setFields (.defined i spelling) fields env s = .ok u s') :
      Composed B p s'.module.types := by
  rw [setFields_types h]
  refine ⟨by rw [Array.size_modify, hs.size], fun k d hd => ?_⟩
  rw [Array.getElem?_modify] at hd
  split at hd
  · next hk =>
    obtain ⟨d, -, rfl⟩ := Option.map_eq_some_iff.1 hd
    exact hk ▸ hfields
  · exact hs.fields k d hd

theorem fillStructs_composed (hB : Allows env B)
    {ds : List StructDef} (hds : ∀ k : Nat, ds[k]? = env.program.structs[i + k]?)
    (hs : Composed B env.program s.module.types) (h : fillStructs i ds env s = .ok u s') :
    Composed B env.program s'.module.types := by
  induction ds generalizing i s with
  | nil =>
    obtain ⟨-, rfl⟩ := pure_ok h
    exact hs
  | cons d ds ih =>
    replace h := getProgram_then h
    obtain ⟨fields, s1, h1, h⟩ := bind_ok h
    obtain ⟨_, s2, h2, h⟩ := bind_ok h
    obtain ⟨_, s3, h3, h⟩ := bind_ok h
    have hd : env.program.structs[i]? = some d := (hds 0).symm
    have hi := (Array.getElem?_eq_some_iff.1 hd).1
    have hquiet : Quiet (d.members.mapM fun m => lowerType m.type) := .mapM fun _ => quiet_lowerType
    rw [← hquiet.types h1] at hs
    have hs2 := hs.setFields (hB.members i d hd _ _ _ h1) h2
    -- the heap object holds the control block and the members
    have hobject : ∀ t ∈ [controlBlockType, innerType env.program i], t.Over (B (4 + 2 * i)) := by
      simpa using ⟨Ty.Over.defined (hB.header i hi), Ty.Over.defined (hB.inner i hi)⟩
    refine ih (fun k => ?_) (hs2.setFields hobject h3) h
    rw [show i + 1 + k = i + (k + 1) by omega, ← hds (k + 1), List.getElem?_cons_succ]

theorem fillInterfaces_composed {ds : List InterfaceDef}
    (hs : Composed B env.program s.module.types) (h : fillInterfaces i ds env s = .ok u s') :
    Composed B env.program s'.module.types := by
  induction ds generalizing i s with
  | nil =>
    obtain ⟨-, rfl⟩ := pure_ok h
    exact hs
  | cons d ds ih =>
    obtain ⟨entries, s1, h1, h⟩ := bind_ok h
    replace h := getProgram_then h
    obtain ⟨_, s2, h3, h⟩ := bind_ok h
    have hquiet : Quiet (d.methods.mapM fun m => return Ty.ptr (← entryType d m)) :=
      .mapM fun _ => quiet_entryType.bind fun _ => .pure
    rw [← hquiet.types h1] at hs
    refine ih (hs.setFields (List.forall_mem_cons.2 ⟨.ptr, fun t ht => ?_⟩) h3) h
    obtain ⟨m, -, _, _, hm⟩ := (mapM_ok h1).2 t ht
    obtain ⟨ty, _, -, hm⟩ := bind_ok hm
    obtain ⟨rfl, -⟩ := pure_ok hm
    exact .ptr

theorem composed_blankTypes (hB : B 1 0) : Composed B p (blankTypes p).toArray where
  size := by
    rw [List.size_toArray, blankTypes, List.length_append, List.length_append, length_pairs,
      length_pairs, typeCount]
    simp
  fields k d hd t ht := by
    rw [List.getElem?_toArray] at hd
    obtain _ | _ | _ | k := k
    · obtain rfl : _ = d := by simpa [blankTypes] using hd
      obtain rfl : t = .i64 := by simpa using ht
      exact .int (by simp)
    · obtain rfl : _ = d := by simpa [blankTypes] using hd
      simp only [List.mem_cons, List.not_mem_nil, or_false] at ht
      rcases ht with rfl | rfl | rfl
      · exact .defined hB
      · exact .int (by simp)
      · exact .array (.int (by simp))
    · obtain rfl : _ = d := by simpa [blankTypes] using hd
      simp at ht
    · -- structs are blank, and a reference through an interface is made of pointers
      have hmem : d ∈
          p.structs.toList.flatMap (fun d => [⟨d.name ++ ".inline", []⟩, ⟨d.name, []⟩]) ++
          p.interfaces.toList.zipIdx.flatMap (fun e => [⟨e.1.name ++ ".itable", []⟩,
            ⟨e.1.name ++ ".ref", [.i8Ptr, .ptr (itableType p e.2)]⟩]) := by
        refine List.mem_of_getElem? (i := k) ?_
        simpa [blankTypes] using hd
      simp only [List.mem_append, List.mem_flatMap, List.mem_cons, List.not_mem_nil,
        or_false] at hmem
      rcases hmem with ⟨_, -, rfl | rfl⟩ | ⟨_, -, rfl | rfl⟩
      · simp at ht
      · simp at ht
      · simp at ht
      · simp only [List.mem_cons, List.not_mem_nil, or_false] at ht
        rcases ht with rfl | rfl
        · exact .ptr
        · exact .ptr

theorem declareTypes_composed (hB : Allows env B) (h : declareTypes env s = .ok u s') :
    Composed B env.program s'.module.types := by
  replace h := getProgram_then h
  obtain ⟨_, s1, h1, h⟩ := bind_ok h
  obtain ⟨_, s2, h2, h⟩ := bind_ok h
  have hs1 : Composed B env.program s1.module.types := by
    rw [modify_ok h1]
    exact composed_blankTypes hB.text
  exact fillInterfaces_composed (fillStructs_composed hB (fun k => by simp) hs1 h2) h

end Filling

theorem declareTypes_ranked (hp : ∀ i, ¬ Relation.TransGen env.program.Embeds i i)
    (h : declareTypes env s = .ok u s') : Ranked env.program s'.module.types :=
  declareTypes_composed (standsBelow_allows hp) h

section Layouts

variable {types : Ir.TypeDefs}
variable {t : Ty} {r : Referend}

theorem Ranked.layout (h : Ranked p types) (hp : ∀ i, ¬ Relation.TransGen p.Embeds i i)
    (ht : t.Over (· < typeCount p)) : HasLayout types t := by
  have hlow : ∀ j, j < typeCount p → j < types.size ∧ typeRank p j < types.size + 1 := by
    intro j hj
    have := typeRank_le hp j
    have hsize := h.size
    unfold typeCount at hsize hj
    omega
  have hsized := Interp.sized_of_over (Ty.over_expandFuel
    (P := fun n j => j < types.size ∧ typeRank p j < n)
      (fun j hj => absurd hj.2 (Nat.not_lt_zero _))
    (fun n j hj hnone => absurd hj.1 (Nat.not_lt.2 (Array.getElem?_eq_none_iff.1 hnone)))
    (fun n i d hi hd t ht => (h.fields i d hd t ht).mono fun j hj =>
      ⟨h.size ▸ hj.1, Nat.lt_of_lt_of_le hj.2 (Nat.le_of_lt_succ hi.2)⟩)
    (types.size + 1) t (ht.mono hlow))
  obtain ⟨n, hn⟩ := hsized.exists_sizeOf
  exact ⟨n, _, hn, hsized.alignOf.1⟩

theorem lowerReferend_over_types {o : Ownership} {l : Location}
    (h : lowerReferend o l r env s = .ok t s') : t.Over (· < typeCount env.program) := by
  refine (lowerReferend_over h).mono fun j hj => ?_
  unfold typeCount at hj ⊢
  rcases hj with rfl | hj | ⟨_, i, -, -, -, hi, rfl⟩ <;> omega

theorem keptLayout_first {key : String} {compute : Build Ty} (hs : s.arrayLayouts = [])
    (h : keptLayout key compute env s = .ok t s') : ∃ s1, compute env s = .ok t s1 := by
  replace h := get_then h
  simp only [hs, List.find?_nil] at h
  obtain ⟨layout, s1, h1, h⟩ := bind_ok h
  obtain ⟨_, _, -, h⟩ := bind_ok h
  obtain ⟨rfl, -⟩ := pure_ok h
  exact ⟨s1, h1⟩

/-- The layout of an array that is not kept yet is made of the type of its elements. -/
theorem arrayLayout_over (hs : s.arrayLayouts = []) (h : arrayLayout r env s = .ok t s') :
    t.Over (· < typeCount env.program) := by
  cases r with
  | missing => exact absurd h throw_ne_ok
  | array size o l elem =>
    obtain ⟨_, h⟩ := keptLayout_first hs h
    obtain ⟨u, _, h1, h⟩ := bind_ok h
    obtain ⟨rfl, -⟩ := pure_ok h
    have helem := lowerReferend_over_types h1
    have hheader : controlBlockType.Over (· < typeCount env.program) :=
      .defined (by unfold typeCount; omega)
    cases size with
    | some n => exact .struct (by simpa using ⟨hheader, .array helem⟩)
    | none => exact .struct (by simpa using ⟨hheader, .int (by simp), .array helem⟩)
  | _ =>
    obtain ⟨_, h⟩ := keptLayout_first hs h
    exact absurd h throw_ne_ok

end Layouts

/-- **Going inwards comes to an end.**  Take a program that was read from a document.

If no struct of it contains itself inline, acquiring a value never gets to the depth where it would
give up, whatever the value, and in the module of the program every definition, the type of
every reference and the layout of every array has a size and an alignment.

If no struct is reached from itself by releasing members, discarding never gets there either. -/
theorem inwards_ends {doc : ProgramDoc} {p : Program} (h : Program.ofDoc doc = .ok p)
    (options : Options) :
    ((∀ i, ¬ Relation.TransGen p.Embeds i i) →
      (∀ stop n x, p.structs.size < n →
        acquireUpTo stop n x ⟨p, options⟩ = acquire x ⟨p, options⟩) ∧
      ∀ m, p.toModule options = .ok m →
        (∀ d ∈ m.types, HasLayout m.types (.struct d.name d.fields)) ∧
        (∀ r t s s', lowerReference r ⟨p, options⟩ s = .ok t s' → HasLayout m.types t) ∧
        ∀ r t s s', s.arrayLayouts = [] → arrayLayout r ⟨p, options⟩ s = .ok t s' →
          HasLayout m.types t) ∧
    ((∀ i, ¬ Relation.TransGen p.Spills i i) →
      ∀ stop n x, p.structs.size < n →
        discardUpTo stop n x ⟨p, options⟩ = discard x ⟨p, options⟩) := by
  obtain ⟨q, -, hresolve⟩ := Program.ofDoc_ok h
  obtain ⟨hnumbered, -⟩ := Program.resolve_ok hresolve
  obtain ⟨scope, hread⟩ := Program.readIn_of_ofDoc h
  refine ⟨fun hp => ⟨fun stop n x hn => ?_, fun m hm => ?_⟩, fun hp stop n x hn => ?_⟩
  · have hnamed : ∀ d ∈ p.structs, ∀ m ∈ d.members, ∀ r ∈ m.type, r.location.Named :=
      fun d hd m hm r hr => (hread.types.members d hd m hm r hr).location
    refine Eq.trans ?_ (congrFun (acquireFuel_eq _) x ▸ rfl : acquireUpTo (fun _ => crash)
      (p.structs.size + 1) x ⟨p, options⟩ = acquireFuel (p.structs.size + 1) x ⟨p, options⟩)
    exact acquireUpTo_agree hnamed hp n _ x (.of_lt hp hn) (.of_lt hp (Nat.lt_succ_self _))
  · rw [Program.toModule, if_pos (Program.resolved_of_ofDoc h)] at hm
    split at hm
    · next u s' hbuild =>
      cases hm
      obtain ⟨s1, s2, hdeclare, htypes⟩ := buildModule_types hnumbered hbuild
      have hranked := declareTypes_ranked hp hdeclare
      rw [htypes]
      refine ⟨fun d hd => ?_, fun r t s s' hrun => hranked.layout hp
        (lowerReferend_over_types hrun),
        fun r t s s' hs hrun => hranked.layout hp (arrayLayout_over hs hrun)⟩
      obtain ⟨k, hk⟩ := Array.getElem?_of_mem hd
      exact hranked.layout hp (.struct fun t ht => (hranked.fields k d hk t ht).mono fun j hj =>
        hj.1)
    · cases hm
  · refine Eq.trans ?_ (congrFun (discardFuel_eq _) x ▸ rfl : discardUpTo (fun _ => crash)
      (p.structs.size + 1) x ⟨p, options⟩ = discardFuel (p.structs.size + 1) x ⟨p, options⟩)
    exact discardUpTo_agree hp n _ x (.of_lt hp hn) (.of_lt hp (Nat.lt_succ_self _))

/-! ## Structs that contain themselves -/

/-- A computation that never succeeds. -/
def Never {α : Type} (env : Env) (x : Build α) : Prop := ∀ s a s', x env s ≠ .ok a s'

section Never

variable {α β : Type} {x : Build α} {k : α → Build β}

theorem Never.bind_left (h : Never env x) : Never env (x >>= k) := by
  intro s b s' hrun
  obtain ⟨a, s1, h1, -⟩ := bind_ok hrun
  exact h _ _ _ h1

theorem Never.bind_right (h : ∀ a, Never env (k a)) : Never env (x >>= k) := by
  intro s b s' hrun
  obtain ⟨a, s1, -, h2⟩ := bind_ok hrun
  exact h a _ _ _ h2

variable {y : Ir.Operand} {visit : Held → Build Unit} {m : StructMember}

theorem visitMembers_never {ms : List StructMember} (hm : m ∈ ms)
    (hvisit : ∀ z, Never env (visit ⟨z, m.type⟩)) (i : Nat) :
    Never env (visitMembers y visit i ms) := by
  induction ms generalizing i with
  | nil => simp at hm
  | cons m' ms ih =>
    unfold visitMembers
    refine .bind_right fun z => ?_
    rcases List.mem_cons.1 hm with rfl | hm
    · exact (hvisit z).bind_left
    · exact .bind_right fun _ => ih hm (i + 1)

theorem forEachMember_never {n : Symbol} {d : StructDef} (hi : env.program.structId n = i)
    (hd : env.program.structs[i]? = some d) (hm : m ∈ d.members)
    (hvisit : ∀ z, Never env (visit ⟨z, m.type⟩)) :
    Never env (forEachMember y (.struct n) visit) := by
  intro s u s' h
  obtain ⟨i', _, h1, h⟩ := bind_ok h
  obtain ⟨hi', -⟩ := structIndex_range h1
  obtain rfl : i = i' := by omega
  obtain ⟨d', _, h2, h⟩ := bind_ok h
  replace h2 := getProgram_then h2
  obtain rfl : d = d' := Option.some.inj (hd.symm.trans (require_ok h2).1)
  exact visitMembers_never hm hvisit 0 _ _ _ h

theorem forEachElement_never {r : Reference} {body : Ir.Operand → Build Unit}
    (h : ∀ z, Never env (body z)) : Never env (forEachElement y r body) := by
  refine .bind_right fun _ => ?_
  unfold buildLoop
  iterate 10 refine .bind_right fun _ => ?_
  exact .bind_left (.bind_right h)

/-- The elements of a shared array are released where the array is. -/
theorem release_array_never {member : Held → Build Unit} {l : Location} {elem : Referend}
    (h : ∀ z, Never env (release member z .share l elem)) (y : Ir.Operand) (size : Option Int) :
    Never env (release member y .share .yonder (.array size .share l elem)) := by
  change Never env (releaseShared y _ _)
  iterate 6 refine .bind_right fun _ => ?_
  refine .bind_left (.bind_left (forEachElement_never fun z => ?_))
  exact .bind_right fun _ => .bind_right h

end Never

/-- A first struct with one member. -/
def loneStruct (name member : String) (type : Reference) : StructDef where
  name := name
  members := [⟨member, some type⟩]
  id := 0

/-- What is known of a document whose program has one struct with one member. -/
theorem exists_loneStruct (doc : ProgramDoc) (name member : String) (type : Reference)
    (h : (Program.ofDoc doc).toOption.any (fun p =>
      p.structs = #[loneStruct name member type] ∧ p.structSymbols = [(name, 0)]) = true) :
    ∃ p, Program.ofDoc doc = .ok p ∧ p.structs[0]? = some (loneStruct name member type) ∧
      p.structs.size = 1 ∧ p.structId (.interned name) = (0 : Nat) := by
  obtain ⟨p, hp, h⟩ := except_of_any h
  obtain ⟨hstructs, hsymbols⟩ : _ ∧ _ := by simpa using h
  refine ⟨p, hp, by rw [hstructs]; rfl, by rw [hstructs]; rfl, ?_⟩
  simp [Program.structId, Program.symbolId, hsymbols]

/-- A struct with itself as a member. -/
def selfContained : ProgramDoc where
  structs := [some { name := "A", members := [some { name := "inner", type := "share inline A" }] }]

/-- A struct with an array of such structs as a member. -/
def tree : ProgramDoc where
  structs := [some { name := "Node", members :=
    [some { name := "children", type := "share yonder []<share inline Node>" }] }]

/-- Documents are read that have a struct contain itself, and no depth is enough to acquire its
values.  And where no struct contains itself inline, there may be no depth that is enough to discard
a value. -/
theorem ofDoc_selfContained :
    (∃ p, Program.ofDoc selfContained = .ok p ∧ Relation.TransGen p.Embeds 0 0 ∧
      ∀ options n x, Never ⟨p, options⟩
        (acquireFuel n ⟨x, some ⟨.share, .inline, .struct (.interned "A")⟩⟩)) ∧
    ∃ p, Program.ofDoc tree = .ok p ∧ (∀ i, ¬ Relation.TransGen p.Embeds i i) ∧
      ∀ options n x, Never ⟨p, options⟩
        (discardFuel n ⟨x, some ⟨.share, .inline, .struct (.interned "Node")⟩⟩) := by
  constructor
  · obtain ⟨p, hp, hd, -, hid⟩ := exists_loneStruct selfContained "A" "inner"
      ⟨.share, .inline, .struct (.interned "A")⟩ (by decide +kernel)
    refine ⟨p, hp, .single ⟨_, hd, _, List.mem_singleton_self _, _, _, rfl, hid⟩, ?_⟩
    intro options n
    induction n with
    | zero => exact fun x s u s' => throw_ne_ok
    | succ n ih => exact fun x => forEachMember_never hid hd (List.mem_singleton_self _) ih
  · obtain ⟨p, hp, hd, hsize, hid⟩ := exists_loneStruct tree "Node" "children"
      ⟨.share, .yonder, .array none .share .inline (.struct (.interned "Node"))⟩
      (by decide +kernel)
    have hembeds : ∀ i j, ¬ p.Embeds i j := by
      rintro i j ⟨d, hi, m, hm, o, n, hn, -⟩
      obtain rfl : i = 0 := by have := (Array.getElem?_eq_some_iff.1 hi).1; omega
      obtain rfl := Option.some.inj (hd.symm.trans hi)
      obtain rfl := List.mem_singleton.1 hm
      simp at hn
    refine ⟨p, hp, fun i hi => ?_, fun options => ?_⟩
    · obtain ⟨j, -, hj⟩ := Relation.TransGen.tail'_iff.1 hi
      exact hembeds _ _ hj
    -- releasing the array comes to the array again, an element further in
    have harray : ∀ n x, Never ⟨p, options⟩ (discardFuel n ⟨x, some ⟨.share, .yonder,
        .array none .share .inline (.struct (.interned "Node"))⟩⟩) := by
      intro n
      induction n with
      | zero => exact fun x s u s' => throw_ne_ok
      | succ n ih =>
        exact fun x => release_array_never
          (fun z => forEachMember_never hid hd (List.mem_singleton_self _) ih) x none
    intro n
    cases n with
    | zero => exact fun x s u s' => throw_ne_ok
    | succ n => exact fun x => forEachMember_never hid hd (List.mem_singleton_self _) (harray n)

/-- What only leads down leads nowhere twice. -/
theorem not_transGen_self {R : Nat → Nat → Prop} (h : ∀ i j, R i j → j < i) (i : Nat) :
    ¬ Relation.TransGen R i i := by
  intro hi
  have hdown : ∀ {k}, Relation.TransGen R i k → k < i := by
    intro k hk
    induction hk with
    | single hR => exact h _ _ hR
    | tail _ hR ih => exact (h _ _ hR).trans ih
  exact Nat.lt_irrefl i (hdown hi)

/-- A path has its first point inline, and the others in an array. -/
def path : ProgramDoc where
  structs := [some { name := "P", members := [some { name := "x", type := "int" }] },
    some { name := "Path", members := [some { name := "a", type := "share inline P" },
      some { name := "b", type := "share yonder []<share inline P>" }] }]

theorem inwards_ends_path : ∃ p m, Program.ofDoc path = .ok p ∧ p.toModule {} = .ok m ∧
    (∀ i, ¬ Relation.TransGen p.Embeds i i) ∧ (∀ i, ¬ Relation.TransGen p.Spills i i) ∧
    (∀ stop n x, p.structs.size < n → acquireUpTo stop n x ⟨p, {}⟩ = acquire x ⟨p, {}⟩) ∧
    (∀ d ∈ m.types, HasLayout m.types (.struct d.name d.fields)) ∧
    ∀ stop n x, p.structs.size < n → discardUpTo stop n x ⟨p, {}⟩ = discard x ⟨p, {}⟩ := by
  have heval : (Program.ofDoc path).toOption.any (fun p => decide
      (p.structs.map (·.members.map (·.type)) = #[[some .int],
        [some ⟨.share, .inline, .struct (.interned "P")⟩, some ⟨.share, .yonder,
          .array none .share .inline (.struct (.interned "P"))⟩]] ∧
      p.structSymbols = [("P", 0), ("Path", 1)]) && (p.toModule {}).toOption.any fun _ => true) =
      true := by
    decide +kernel
  obtain ⟨p, hp, heval⟩ := except_of_any heval
  simp only [Bool.and_eq_true, decide_eq_true_eq] at heval
  obtain ⟨⟨hstructs, hsymbols⟩, heval⟩ := heval
  obtain ⟨m, hm, -⟩ := except_of_any heval
  have hid : p.structId (.interned "P") = (0 : Nat) := by
    simp [Program.structId, Program.symbolId, hsymbols]
  have htypes : ∀ (i : Nat) d, p.structs[i]? = some d → ∀ m ∈ d.members, ∀ r ∈ m.type,
      r = .int ∨ i = 1 ∧ (r = ⟨.share, .inline, .struct (.interned "P")⟩ ∨ r = ⟨.share, .yonder,
        .array none .share .inline (.struct (.interned "P"))⟩) := by
    intro i d hd m hm r hr
    have hi := congrArg (·[i]?) hstructs
    have hmem : m.type ∈ d.members.map (·.type) := List.mem_map_of_mem hm
    simp only [Array.getElem?_map, hd, Option.map_some] at hi
    obtain _ | _ | i := i
    · rw [Option.some.inj hi] at hmem
      simp_all
    · rw [Option.some.inj hi] at hmem
      simp_all
    · simp at hi
  have hembeds : ∀ i j, p.Embeds i j → j < i := by
    rintro i j ⟨d, hd, m, hm, o, n, hn, hj⟩
    rcases htypes i d hd m hm _ hn with h | ⟨rfl, h | h⟩ <;> cases h
    omega
  have hspills : ∀ i j, p.Spills i j → j < i := by
    rintro i j ⟨d, hd, m, hm, r, hr, n, hn, hj⟩
    rcases htypes i d hd m hm r hr with rfl | ⟨rfl, rfl | rfl⟩
    · cases hn
    · obtain rfl : _ = n := by simpa [Referend.released] using hn
      omega
    · obtain rfl : _ = n := by simpa [Referend.released] using hn
      omega
  obtain ⟨hinline, hreleased⟩ := inwards_ends hp {}
  obtain ⟨hacquire, hlayout⟩ := hinline (not_transGen_self hembeds)
  exact ⟨p, m, hp, hm, not_transGen_self hembeds, not_transGen_self hspills, hacquire,
    (hlayout m hm).1, hreleased (not_transGen_self hspills)⟩

end Tenure.Lowering
