import Tenure.Proofs.Assembly
import Tenure.Proofs.Sites

/-!
# What the finished module holds

The tables of a finished module and its functions: where each function and each
drop function of the program has got its place, with the code that was lowered for
it standing there, and what the method table of every edge consists of.
-/

namespace Tenure.Lowering

open Ir (Ty Const Operand Func)

variable {env : Env} {s s' : State} {f g : Func}
variable {i : Nat}

/-! ## The table of types -/

/-- What the table of types has for the counts of objects and for the interfaces of a
program. -/
structure TypeTable (p : Program) (types : Ir.TypeDefs) : Prop where
  header : ∃ name, types[0]? = some ⟨name, [.i64]⟩
  refs : ∀ i < p.interfaces.size, ∃ name,
    types[4 + 2 * p.structs.size + 2 * i]? = some ⟨name, [.i8Ptr, .ptr (itableType p i)]⟩
  itables : ∀ (i : Nat) (d : InterfaceDef), p.interfaces[i]? = some d → ∃ name entries,
    types[3 + 2 * p.structs.size + 2 * i]? = some ⟨name, dropType :: entries⟩ ∧
      entries.length = d.methods.length ∧ ∀ t ∈ entries, ∃ u, t = .ptr u

variable {u : Unit} {α β : Type} {j n : Nat} {p : Program} {fields : List Ty} {e : ResolvedEdge}
variable {xs : List α} {a b : α → β}

/-- A list with two entries for every element of another. -/
theorem getElem?_pairs (i : Nat) :
    (xs.flatMap fun x => [a x, b x])[2 * i]? = xs[i]?.map a ∧
      (xs.flatMap fun x => [a x, b x])[2 * i + 1]? = xs[i]?.map b := by
  induction xs generalizing i with
  | nil => simp
  | cons x xs ih =>
    cases i with
    | zero => simp
    | succ i =>
      have := ih i
      simpa [Nat.mul_add] using this

theorem length_pairs : (xs.flatMap fun x => [a x, b x]).length = 2 * xs.length := by
  simp [List.length_flatMap, Nat.mul_comm]

/-- The entries of a blank table that belong to an interface. -/
theorem blankTypes_interface (hi : i < p.interfaces.size) :
    3 + 2 * p.structs.size + 2 * i < (blankTypes p).length ∧
      ∃ name, (blankTypes p)[4 + 2 * p.structs.size + 2 * i]? =
        some ⟨name, [.i8Ptr, .ptr (itableType p i)]⟩ := by
  have hfirst : ([⟨"__ControlBlock", [.i64]⟩,
      ⟨"__Str", [controlBlockType, .i64, .array 0 .i8]⟩, ⟨"__Void", []⟩] ++
        p.structs.toList.flatMap (fun d => [⟨d.name ++ ".inline", []⟩, ⟨d.name, []⟩]) :
      List Ir.TypeDef).length = 3 + 2 * p.structs.size := by
    rw [List.length_append, length_pairs]
    simp
  have hlast : ∃ d, p.interfaces.toList.zipIdx[i]? = some (d, i) :=
    ⟨p.interfaces[i], by simp [hi]⟩
  obtain ⟨d, hd⟩ := hlast
  refine ⟨?_, d.name ++ ".ref", ?_⟩
  · rw [blankTypes, List.length_append, hfirst, length_pairs]
    simp
    omega
  · rw [blankTypes, List.getElem?_append_right (by omega), hfirst,
      show 4 + 2 * p.structs.size + 2 * i - (3 + 2 * p.structs.size) = 2 * i + 1 by omega,
      (getElem?_pairs i).2, hd]
    rfl

theorem setFields_types {spelling : String}
    (h : setFields (.defined i spelling) fields env s = .ok u s') :
    s'.module.types = s.module.types.modify i fun d => { d with fields } := by
  rw [modify_ok h]

theorem Quiet.types {x : Build α} {a : α} (hx : Quiet x) (h : x env s = .ok a s') :
    s'.module.types = s.module.types :=
  (hx h).framed.types

/-- Only the types of structs are filled in. -/
theorem fillStructs_types {ds : List StructDef} (h : fillStructs i ds env s = .ok u s')
    (hj : j < 3 + 2 * i ∨ 3 + 2 * (i + ds.length) ≤ j) :
    s'.module.types[j]? = s.module.types[j]? := by
  induction ds generalizing i s with
  | nil =>
    obtain ⟨-, rfl⟩ := pure_ok h
    rfl
  | cons d ds ih =>
    rw [List.length_cons] at hj
    replace h := getProgram_then h
    obtain ⟨fields, s1, h1, h⟩ := bind_ok h
    obtain ⟨_, s2, h2, h⟩ := bind_ok h
    obtain ⟨_, s3, h3, h⟩ := bind_ok h
    have hfields : Quiet (d.members.mapM fun m => lowerType m.type) :=
      .mapM fun _ => quiet_lowerType
    rw [ih h (by omega), setFields_types h3, Array.getElem?_modify, if_neg (by omega),
      setFields_types h2, Array.getElem?_modify, if_neg (by omega), hfields.types h1]

theorem mapM_ok {k : α → Build β} {rs : List β} (h : xs.mapM k env s = .ok rs s') :
    rs.length = xs.length ∧ ∀ r ∈ rs, ∃ a ∈ xs, ∃ s1 s2, k a env s1 = .ok r s2 := by
  induction xs generalizing s rs with
  | nil =>
    obtain ⟨rfl, rfl⟩ := pure_ok h
    simp
  | cons x xs ih =>
    rw [List.mapM_cons] at h
    obtain ⟨r, s1, h1, h⟩ := bind_ok h
    obtain ⟨rs, s2, h2, h⟩ := bind_ok h
    obtain ⟨rfl, rfl⟩ := pure_ok h
    obtain ⟨hlen, hall⟩ := ih h2
    refine ⟨by simp [hlen], fun r' hr' => ?_⟩
    rcases List.mem_cons.mp hr' with rfl | hr'
    · exact ⟨x, by simp, s, s1, h1⟩
    · obtain ⟨a, ha, hrun⟩ := hall r' hr'
      exact ⟨a, by simp [ha], hrun⟩

/-- The method tables of interfaces get their entries, and other types stay. -/
theorem fillInterfaces_types {ds : List InterfaceDef} (h : fillInterfaces i ds env s = .ok u s') :
    (∀ j, (∀ k, i ≤ k → k < i + ds.length → j ≠ 3 + 2 * env.program.structs.size + 2 * k) →
      s'.module.types[j]? = s.module.types[j]?) ∧
    ∀ (k : Nat) (d : InterfaceDef), ds[k]? = some d →
      3 + 2 * env.program.structs.size + 2 * (i + k) < s.module.types.size →
      ∃ name entries, s'.module.types[3 + 2 * env.program.structs.size + 2 * (i + k)]? =
          some ⟨name, dropType :: entries⟩ ∧
        entries.length = d.methods.length ∧ ∀ t ∈ entries, ∃ u, t = .ptr u := by
  induction ds generalizing i s with
  | nil =>
    obtain ⟨-, rfl⟩ := pure_ok h
    exact ⟨fun _ _ => rfl, by simp⟩
  | cons d ds ih =>
    obtain ⟨entries, s1, h1, h⟩ := bind_ok h
    replace h := getProgram_then h
    obtain ⟨_, s2, h3, h⟩ := bind_ok h
    have hquiet : Quiet (d.methods.mapM fun m => return Ty.ptr (← entryType d m)) :=
      .mapM fun _ => quiet_entryType.bind fun _ => .pure
    have htypes : s2.module.types = s.module.types.modify
        (3 + 2 * env.program.structs.size + 2 * i) fun t =>
          { t with fields := dropType :: entries } := by
      rw [setFields_types h3, hquiet.types h1]
    obtain ⟨hkept, hfilled⟩ := ih h
    refine ⟨fun j hj => ?_, fun k d' hk hlt => ?_⟩
    · rw [hkept j fun k hk hk' => hj k (by omega) (by simp; omega), htypes, Array.getElem?_modify,
        if_neg fun heq => hj i (Nat.le_refl i) (by simp) heq.symm]
    · cases k with
      | zero =>
        obtain rfl : d = d' := by simpa using hk
        obtain ⟨hlen, hall⟩ := mapM_ok h1
        rw [Nat.add_zero] at hlt ⊢
        refine ⟨s.module.types[3 + 2 * env.program.structs.size + 2 * i].name, entries, ?_, hlen,
          fun t ht => ?_⟩
        · rw [hkept _ fun k hk _ => by omega, htypes, Array.getElem?_modify, if_pos rfl,
            Array.getElem?_eq_getElem hlt]
          rfl
        · obtain ⟨m, -, _, _, hm⟩ := hall t ht
          obtain ⟨ty, _, -, hm⟩ := bind_ok hm
          obtain ⟨rfl, -⟩ := pure_ok hm
          exact ⟨ty, rfl⟩
      | succ k =>
        have := hfilled k d' (by simpa using hk) (by rw [htypes]; simp; omega)
        rwa [show i + 1 + k = i + (k + 1) by omega] at this

theorem declareTypes_table (h : declareTypes env s = .ok u s') :
    TypeTable env.program s'.module.types := by
  replace h := getProgram_then h
  obtain ⟨_, s1, h1, h⟩ := bind_ok h
  have hs1 := modify_ok h1
  obtain ⟨_, s2, h2, h⟩ := bind_ok h
  have hblank : ∀ {j}, j < 3 ∨ 3 + 2 * env.program.structs.size ≤ j →
      s2.module.types[j]? = (blankTypes env.program)[j]? := by
    intro j hj
    rw [fillStructs_types h2 (by simpa using hj), hs1]
    simp
  obtain ⟨hkept, hfilled⟩ := fillInterfaces_types h
  refine ⟨⟨"__ControlBlock", ?_⟩, fun i hi => ?_, fun i d hd => ?_⟩
  · rw [hkept 0 fun k _ _ => by omega, hblank (.inl (by omega))]
    rfl
  · obtain ⟨name, hname⟩ := (blankTypes_interface hi).2
    exact ⟨name, by rw [hkept _ fun k _ _ => by omega, hblank (.inr (by omega)), hname]⟩
  · have hlt := (blankTypes_interface (Array.getElem?_eq_some_iff.mp hd).1).1
    have hsize : 3 + 2 * env.program.structs.size + 2 * i < s2.module.types.size := by
      refine Nat.lt_of_not_le fun hle => ?_
      have hnone := Array.getElem?_eq_none hle
      rw [hblank (.inr (by omega)), List.getElem?_eq_none_iff] at hnone
      omega
    have := hfilled i d (by simpa using hd) (by rwa [Nat.zero_add])
    rwa [Nat.zero_add] at this

/-! ## Functions that are filled -/

section Filling

variable {α : Type} {x : Build α} {a : α} {s0 s1 : State} {f1 F : Func}
variable {T : Setting} {U : List Operand} {b : Ir.Term}

/-- What was written into a function stands there once the function is ended. -/
theorem Filling.stands (h : Filling T.env T.final x s0 g a s1 f1)
    (hU : ∀ u ∈ U, ∃ i t, u = .param i t ∧ i < g.params.length) (hkeeps : f1.Keeps F)
    (hcode : F.code s1.block = f1.code s1.block) (hends : F.term? s1.block = some b) :
    Stands T F U x s0 (g.addBlock "entry") a s1 f1 := by
  refine ⟨h.started.placed, h.started.isOpen, ⟨_, formed_entry h.started.empty, fun u hu => ?_⟩,
    h.ok, h.ended, fun C hC => ?_⟩
  · obtain ⟨i, t, rfl, hi⟩ := hU u hu
    exact hi
  · subst hC
    exact .ofClosed h.tables hkeeps hcode hends (.refl _)

theorem Filling.stands_terminate (h : Filling T.env T.final x s0 g a s1 f1)
    (hU : ∀ u ∈ U, ∃ i t, u = .param i t ∧ i < g.params.length) (hopen : f1.term? s1.block = none) :
    Stands T (f1.terminate s1.block b) U x s0 (g.addBlock "entry") a s1 f1 := by
  have hends : (f1.terminate s1.block b).term? s1.block = some b := by
    rw [Ir.Func.term?_terminate h.ended.lt, if_pos rfl]
  exact h.stands hU (Ir.Func.Edit.terminate h.ended.lt hopen).keeps (by simp) hends

end Filling

theorem BodyAt.stands {T : Setting} {fn : Function} {F : Func} (h : BodyAt T.env T.final fn F) :
    ∃ s f r s' f', Stands T F [] (lower fn.body) s f r s' f' := by
  obtain ⟨s0, g, r, s1, f1, hfill, rfl⟩ := h
  unfold returning
  cases hterm : f1.term? s1.block with
  | some b => exact ⟨_, _, _, _, _, hfill.stands (by simp) (.refl _) rfl hterm⟩
  | none => exact ⟨_, _, _, _, _, hfill.stands_terminate (by simp) hterm⟩

/-! ## Method tables -/

/-- The method table of an edge, for the struct and the interface of the given
indices: the drop function of the struct, and then the functions of the edge. -/
structure TableAt (p : Program) (t : State) (e : ResolvedEdge) (g i j drop : Nat)
    (entries : List Const) : Prop where
  struct : p.structId e.struct = i
  interface : p.interfaceId e.interface = j
  isDrop : t.dropFuncs[i]? = some drop
  global : ∃ signature, t.module.globals[g]? = some
    { name := e.struct.name ++ "." ++ e.interface.name ++ ".itable", content := itableType p j
      init := some (.struct (itableType p j) (.func drop signature :: entries)), immutable := true }
  count : ∃ d, p.interfaces[j]? = some d ∧ entries.length = d.methods.length
  methods : ∀ k f, e.methods[k]? = some f → k < entries.length → ∃ pos signature type,
    t.funcs[f]? = some (some pos) ∧ entries[k]? = some (.bitcast (.func pos signature) type)

/-- What an array has is still there when it has grown. -/
theorem getElem?_of_initial {xs ys : Array α} {x : α} (h : xs.toList <+: ys.toList)
    (hx : xs[n]? = some x) : ys[n]? = some x := by
  obtain ⟨rest, hrest⟩ := h
  rw [← Array.getElem?_toList] at hx ⊢
  rw [← hrest, List.getElem?_append_left (List.getElem?_eq_some_iff.mp hx).1, hx]

theorem TableAt.mono {drop : Nat} {entries : List Const} (h : TableAt p s e n i j drop entries)
    (ht : Tables s s') : TableAt p s' e n i j drop entries where
  struct := h.struct
  interface := h.interface
  isDrop := by rw [ht.dropFuncs]; exact h.isDrop
  global := by
    obtain ⟨signature, hg⟩ := h.global
    exact ⟨signature, getElem?_of_initial ht.globals hg⟩
  count := h.count
  methods := by rw [ht.funcs]; exact h.methods

theorem structIndex_ok {n : Symbol} (h : structIndex n env s = .ok i s') :
    env.program.structId n = i ∧ s = s' := by
  replace h := getProgram_then h
  split at h
  · next hrange =>
    obtain ⟨rfl, rfl⟩ := pure_ok h
    exact ⟨by omega, rfl⟩
  · exact absurd h throw_ne_ok

theorem interfaceIndex_ok {n : Symbol} (h : interfaceIndex n env s = .ok i s') :
    env.program.interfaceId n = i ∧ i < env.program.interfaces.size ∧ s = s' := by
  replace h := getProgram_then h
  split at h
  · next hrange =>
    obtain ⟨rfl, rfl⟩ := pure_ok h
    exact ⟨by omega, by omega, rfl⟩
  · exact absurd h throw_ne_ok

theorem interfaceAt_ok {d : InterfaceDef} (h : interfaceAt i env s = .ok d s') :
    env.program.interfaces[i]? = some d ∧ s = s' := by
  replace h := getProgram_then h
  exact require_ok h

/-- The entries for the methods from a number on. -/
theorem tableEntries_ok {fs : List Nat} {ms : List Prototype} {cs : List Const}
    (hp : env.program.Numbered) (h : tableEntries fields fs j ms env s = .ok cs s') :
    s = s' ∧ cs.length = ms.length ∧ ∀ k f, fs[j + k]? = some f → k < cs.length →
      ∃ pos signature type, s.funcs[f]? = some (some pos) ∧
        cs[k]? = some (.bitcast (.func pos signature) type) := by
  induction ms generalizing j cs with
  | nil =>
    obtain ⟨rfl, rfl⟩ := pure_ok h
    simp
  | cons m ms ih =>
    replace h := getProgram_then h
    obtain ⟨n, hn, h⟩ := require_then h
    obtain ⟨f, hf, h⟩ := require_then h
    replace h := get_then h
    obtain ⟨i, _, h1, h⟩ := bind_ok h
    rw [hp.functions n f hf] at h1
    obtain ⟨rfl, rfl⟩ := ownIndex_ok h1
    replace h := get_then h
    cases hpos : s.funcs[n]? with
    | none =>
      simp only [hpos] at h
      exact absurd h throw_ne_ok
    | some place =>
      cases place with
      | none =>
        simp only [hpos] at h
        exact absurd h throw_ne_ok
      | some pos =>
        simp only [hpos] at h
        replace h := get_then h
        obtain ⟨g, hg, h⟩ := require_then h
        obtain ⟨type, htype, h⟩ := require_then h
        obtain ⟨cs', s1, h1, h⟩ := bind_ok h
        obtain ⟨rfl, rfl⟩ := pure_ok h
        obtain ⟨rfl, hlen, hrest⟩ := ih h1
        refine ⟨rfl, by simp [hlen], fun k f' hk hlt => ?_⟩
        cases k with
        | zero =>
          obtain rfl : n = f' := by
            rw [Nat.add_zero, hn] at hk
            exact Option.some.inj hk
          exact ⟨pos, _, type, hpos, rfl⟩
        | succ k =>
          rw [show j + (k + 1) = j + 1 + k by omega] at hk
          exact hrest k f' hk (by simpa using hlt)

theorem addGlobal_eq {name : String} {init : Const} (h : addGlobal name init env s = .ok i s') :
    s.module.globals.size = i ∧ s' = { s with module := { s.module with
      globals := s.module.globals.push
        { name, content := init.ty, init := some init, immutable := true } } } := by
  replace h := get_then h
  obtain ⟨_, s1, h1, h⟩ := bind_ok h
  have hs := modify_ok h1
  obtain ⟨rfl, rfl⟩ := pure_ok h
  exact ⟨rfl, hs⟩

/-- One more table is added, at the end of the globals. -/
theorem buildTable_tableAt (hp : env.program.Numbered) (h : buildTable e env s = .ok u s') :
    Tables s s' ∧ s'.module.funcs = s.module.funcs ∧
      s'.itables = s.itables.push s.module.globals.size ∧
      s'.module.globals.size = s.module.globals.size + 1 ∧ s'.literals = s.literals ∧
      ∃ i j drop entries, TableAt env.program s' e s.module.globals.size i j drop entries := by
  obtain ⟨i, _, h1, h⟩ := bind_ok h
  obtain ⟨hi, rfl⟩ := structIndex_ok h1
  obtain ⟨j, _, h1, h⟩ := bind_ok h
  obtain ⟨hj, -, rfl⟩ := interfaceIndex_ok h1
  obtain ⟨d, _, h1, h⟩ := bind_ok h
  obtain ⟨hd, rfl⟩ := interfaceAt_ok h1
  replace h := getProgram_then h
  obtain ⟨_, _, h1, h⟩ := bind_ok h
  obtain ⟨rfl, rfl⟩ := typeDefs_ok h1
  obtain ⟨fields, hfields, h⟩ := require_then h
  replace h := get_then h
  obtain ⟨drop, hdrop, h⟩ := require_then h
  replace h := get_then h
  obtain ⟨g, hg, h⟩ := require_then h
  obtain ⟨entries, _, h1, h⟩ := bind_ok h
  obtain ⟨rfl, hlen, hentries⟩ := tableEntries_ok hp h1
  obtain ⟨n, s1, h1, h⟩ := bind_ok h
  obtain ⟨rfl, hs1⟩ := addGlobal_eq h1
  have hs' := modify_ok h
  subst hs1
  rw [hs']
  refine ⟨{ Tables.refl s with globals := by simp, itables := by simp }, rfl, rfl, by simp, rfl,
    i, j, drop, entries, hi, hj, hdrop, ⟨g.signature, ?_⟩, ⟨d, hd, hlen⟩, fun k f hk hlt => ?_⟩
  · simp [Const.ty]
  · exact hentries k f (by simpa using hk) hlt

/-- The tables of the edges before a number have been added, from a place on. -/
structure TablesAdded (p : Program) (s : State) (k : Nat) (t : State) : Prop where
  tables : Tables s t
  funcs : t.module.funcs = s.module.funcs
  literals : t.literals = s.literals
  count : t.itables.size = k
  globals : t.module.globals.size = s.module.globals.size + k
  places : ∀ n < k, t.itables[n]? = some (s.module.globals.size + n)
  holds : ∀ n e, n < k → p.edges[n]? = some e →
    ∃ i j drop entries, TableAt p t e (s.module.globals.size + n) i j drop entries

theorem buildTables_added (hp : env.program.Numbered) (hs : s.itables = #[])
    (h : buildTables env s = .ok u s') : TablesAdded env.program s env.program.edges.length s' := by
  replace h := getProgram_then h
  obtain ⟨_, s1, h1, h⟩ := bind_ok h
  obtain ⟨-, rfl⟩ := pure_ok h
  obtain ⟨k, hk, hkle, hadded⟩ := forIn_ok
    (fun rest t => ∃ k, rest = env.program.edges.drop k ∧ k ≤ env.program.edges.length ∧
      TablesAdded env.program s k t)
    (fun e rest t r t' => by
      rintro ⟨k, hrest, hk, hadded⟩ hrun
      obtain ⟨_, t1, h1, hrun⟩ := bind_ok hrun
      obtain ⟨rfl, rfl⟩ := pure_ok hrun
      have hget : env.program.edges[k]? = some e := by
        have := congrArg (·[0]?) hrest
        simpa using this.symm
      obtain ⟨htables, hfuncs, hitables, hglobals, hlits, htable⟩ := buildTable_tableAt hp h1
      rw [hadded.globals] at hitables hglobals htable
      refine ⟨rfl, k + 1, ?_, (List.getElem?_eq_some_iff.mp hget).1, hadded.tables.trans htables,
        hfuncs.trans hadded.funcs, hlits.trans hadded.literals, ?_, ?_, fun n hn => ?_,
        fun n e' hn he' => ?_⟩
      · rw [← List.drop_drop, ← hrest]
        rfl
      · rw [hitables, Array.size_push, hadded.count]
      · rw [hglobals]
        omega
      · rw [hitables, Array.getElem?_push, hadded.count]
        split
        · next heq => rw [heq]
        · exact hadded.places n (by omega)
      · by_cases hnk : n = k
        · subst hnk
          rw [hget] at he'
          obtain rfl := Option.some.inj he'
          exact htable
        · obtain ⟨i, j, drop, entries, hold⟩ := hadded.holds n e' (by omega) he'
          exact ⟨i, j, drop, entries, hold.mono htables⟩)
    ⟨0, by simp, Nat.zero_le _, .refl s, rfl, rfl, by simp [hs], by simp, by simp, by simp⟩ h1
  obtain rfl : k = env.program.edges.length := by
    have := congrArg List.length hk
    simp at this
    omega
  exact hadded

/-! ## Declarations leave the tables alone -/

/-- Types, method tables and the functions that there were are as they were. -/
structure Unchanged (s s' : State) : Prop where
  types : s'.module.types = s.module.types
  edges : s'.itables = s.itables
  old : ∀ i < s.module.funcs.size, s'.module.funcs[i]? = s.module.funcs[i]?

theorem Extended.unchanged {gs : List Func} (h : Extended gs s s') : Unchanged s s' :=
  ⟨h.types, h.edges, fun i hi => by rw [h.funcs, Array.getElem?_append_left hi]⟩

/-! ## The whole module -/

/-- What the finished module has got for a program. -/
structure Assembled (env : Env) (final : State) : Prop where
  types : TypeTable env.program final.module.types
  functions : ∀ (k : Nat) (fn : Function), env.program.functions[k]? = some fn → ∃ pos F,
    final.funcs[k]? = some (some pos) ∧ final.module.funcs[pos]? = some F ∧ BodyAt env final fn F
  drops : ∀ (i : Nat) (d : StructDef), env.program.structs[i]? = some d → ∃ pos F,
    final.dropFuncs[i]? = some pos ∧ final.module.funcs[pos]? = some F ∧ DropAt env final i d F
  tables : ∃ base, ∀ (n : Nat) (e : ResolvedEdge), env.program.edges[n]? = some e →
    final.itables[n]? = some (base + n) ∧
      ∃ i j drop entries, TableAt env.program final e (base + n) i j drop entries

/-- What the finished module has got besides the functions of a program. -/
structure Equipped (env : Env) (final : State) : Prop where
  /-- the functions of the runtime are declared -/
  runtime : ∀ f : RuntimeFunc, final.module.funcs[f.position]? = some f.declaration
  /-- a drop function is that of a struct, and has one parameter -/
  drops : ∀ i pos, final.dropFuncs[i]? = some pos → ∃ d F, env.program.structs[i]? = some d ∧
    final.module.funcs[pos]? = some F ∧ DropAt env final i d F ∧ F.params.length = 1

/-- The drop functions have been added and filled. -/
structure DropsBuilt (env : Env) (s s' : State) : Prop extends Unchanged s s' where
  funcs : s'.funcs = s.funcs
  sound : Sound s'
  literals : LiteralsConst s'
  count : s'.dropFuncs.size = env.program.structs.size
  holds : ∀ (i : Nat) (d : StructDef), env.program.structs[i]? = some d →
    s'.dropFuncs[i]? = some (s.module.funcs.size + i) ∧
      ∃ F, s'.module.funcs[s.module.funcs.size + i]? = some F ∧ DropAt env s' i d F ∧
        F.params.length = 1

theorem buildDropFuncs_built {base count : Nat} (hs : Declared base count s)
    (h : buildDropFuncs env s = .ok u s') : DropsBuilt env s s' := by
  rw [buildDropFuncs_eq] at h
  have hadded := dropsAdded hs.dropFuncs env.program.structs.toList
  have hblank := hs.blank.withDrops env.program.structs.toList
  have hconst : LiteralsConst (withDrops env.program.structs.toList s) := by
    unfold LiteralsConst
    rw [hadded.literals, hs.literals]
    simp
  have hall := fillDropFuncs_filled h (by rw [Nat.zero_add]) hadded.dropFuncs hadded.new hconst
  have hlater := hall.later
  refine ⟨⟨hlater.types, hlater.edges, fun i hi => ?_⟩, hlater.funcs,
    hall.sound fun i f hf => .inl (hblank i f hf), hall.literals hconst, ?_, fun i d hd => ?_⟩
  · rw [hlater.kept i (.inl hi), hadded.old i hi]
  · have := congrArg List.length hadded.dropFuncs
    simpa [hlater.dropFuncs] using this
  obtain ⟨F, hF, hdrop⟩ := hall.holds (fun h ht => ⟨h.1.mono ht, h.2⟩) (by simpa using hd)
  rw [Nat.zero_add] at hF hdrop
  refine ⟨?_, F, hF, hdrop⟩
  have hlt := (Array.getElem?_eq_some_iff.mp hd).1
  rw [hlater.dropFuncs, ← Array.getElem?_toList, hadded.dropFuncs, List.getElem?_map,
    List.getElem?_range (by simpa using hlt)]
  rfl

/-- The stages in which a module is built. -/
structure Stages (env : Env) (s1 s2 s3 s4 s5 s' : State) : Prop where
  runtime : declareRuntime env {} = .ok () s1
  types : declareTypes env s1 = .ok () s2
  declared : Declared s2.module.funcs.size env.program.functions.size s3
  unchanged : Unchanged s2 s3
  drops : DropsBuilt env s3 s4
  tables : TablesAdded env.program s4 env.program.edges.length s5
  bodies : FilledAll s2.module.funcs.size (fun _ fn t F => BodyAt env t fn F) 0
    env.program.functions.toList s5 s'

theorem buildModule_stages (hp : env.program.Numbered) (h : buildModule env {} = .ok u s') :
    ∃ s1 s2 s3 s4 s5, Stages env s1 s2 s3 s4 s5 s' := by
  obtain ⟨_, s1, h1, h⟩ := bind_ok h
  obtain ⟨_, s2, h2, h⟩ := bind_ok h
  have hfresh := declareTypes_fresh h1 h2
  obtain ⟨_, s3, h3, h⟩ := bind_ok h
  have hdecl := declareFuncs_ok hp hfresh h3
  obtain ⟨_, -, hextended, -⟩ := declareFuncs_extends h3
  have hsame := hextended.unchanged
  obtain ⟨_, s4, h4, h⟩ := bind_ok h
  have hdrops := buildDropFuncs_built hdecl h4
  obtain ⟨_, s5, h5, h⟩ := bind_ok h
  have hadded := buildTables_added hp (by rw [hdrops.edges, hsame.edges, hfresh.itables]) h5
  replace h := getProgram_then h
  refine ⟨s1, s2, s3, s4, s5, h1, h2, hdecl, hsame, hdrops, hadded,
    buildBodies_filled _ 0 h (Nat.zero_add _) (fun j f hf => ?_) (fun j hj => ?_) (fun j _ hj => ?_)
    ?_⟩
  · simpa using hp.functions j f (by simpa using hf)
  · rw [hadded.tables.funcs, hdrops.funcs]
    exact hdecl.places j hj
  · have hsize := hdecl.size
    have hlt : s2.module.funcs.size + j < s3.module.funcs.size := by
      rw [Array.length_toList] at hj
      omega
    rw [hadded.funcs, hdrops.old _ hlt]
    exact ⟨_, Array.getElem?_eq_getElem hlt, hdecl.blank _ _ (Array.getElem?_eq_getElem hlt)⟩
  · unfold LiteralsConst
    rw [hadded.literals]
    exact hdrops.literals

section Stages

variable {s1 s2 s3 s4 s5 : State}

theorem Stages.sound (h : Stages env s1 s2 s3 s4 s5 s') : Sound s' := by
  refine h.bodies.sound fun i f hf => ?_
  rw [h.tables.funcs] at hf
  exact h.drops.sound i f hf

/-- Once they are declared, types stay as they are. -/
theorem Stages.types_eq (h : Stages env s1 s2 s3 s4 s5 s') : s'.module.types = s2.module.types := by
  rw [h.bodies.later.types, h.tables.tables.types, h.drops.types, h.unchanged.types]

theorem Stages.dropAt (h : Stages env s1 s2 s3 s4 s5 s') {d : StructDef}
    (hd : env.program.structs[i]? = some d) : ∃ pos F, s'.dropFuncs[i]? = some pos ∧
      s'.module.funcs[pos]? = some F ∧ DropAt env s' i d F ∧ F.params.length = 1 := by
  obtain ⟨hpos, F, hF, hdrop, hparams⟩ := h.drops.holds i d hd
  have hlater := h.bodies.later
  refine ⟨s3.module.funcs.size + i, F, ?_, ?_,
    (hdrop.mono h.tables.tables).mono hlater.toTables, hparams⟩
  · rw [hlater.dropFuncs, h.tables.tables.dropFuncs, hpos]
  · have hsize := h.declared.size
    rw [hlater.kept _ (by simp; omega), h.tables.funcs, hF]

theorem Stages.assembled (h : Stages env s1 s2 s3 s4 s5 s') : Assembled env s' where
  types := by
    rw [h.types_eq]
    exact declareTypes_table h.types
  functions k fn hk := by
    obtain ⟨F, hF, hbody⟩ := h.bodies.holds (fun h ht => h.mono ht) (j := k) (by simpa using hk)
    rw [Nat.zero_add] at hF
    refine ⟨s2.module.funcs.size + k, F, ?_, hF, hbody⟩
    rw [h.bodies.later.funcs, h.tables.tables.funcs, h.drops.funcs]
    exact h.declared.places k (Array.getElem?_eq_some_iff.mp hk).1
  drops i d hd := by
    obtain ⟨pos, F, hpos, hF, hdrop, -⟩ := h.dropAt hd
    exact ⟨pos, F, hpos, hF, hdrop⟩
  tables := by
    refine ⟨s4.module.globals.size, fun n e he => ?_⟩
    have hlt := (List.getElem?_eq_some_iff.mp he).1
    obtain ⟨i, j, drop, entries, htable⟩ := h.tables.holds n e hlt he
    refine ⟨?_, i, j, drop, entries, htable.mono h.bodies.later.toTables⟩
    rw [h.bodies.later.edges]
    exact h.tables.places n hlt

theorem Stages.equipped (h : Stages env s1 s2 s3 s4 s5 s') : Equipped env s' where
  runtime r := by
    have hr : s2.module.funcs[r.position]? = some r.declaration := by
      rw [(declareTypes_ok h.types).module, declareRuntime_ok h.runtime]
      cases r <;> rfl
    have hlt := (Array.getElem?_eq_some_iff.mp hr).1
    have hsize := h.declared.size
    rw [h.bodies.later.kept _ (.inl hlt), h.tables.funcs, h.drops.old _ (by omega),
      h.unchanged.old _ hlt, hr]
  drops i pos hpos := by
    have hlt := (Array.getElem?_eq_some_iff.mp hpos).1
    rw [h.bodies.later.dropFuncs, h.tables.tables.dropFuncs, h.drops.count] at hlt
    have hd := Array.getElem?_eq_getElem hlt
    obtain ⟨pos', F, hpos', hrest⟩ := h.dropAt hd
    obtain rfl := Option.some.inj (hpos.symm.trans hpos')
    exact ⟨_, F, hd, hrest⟩

end Stages

section Module

variable {u : Unit} (hp : env.program.Numbered) (h : buildModule env {} = .ok u s')

include hp h

theorem buildModule_sound : Sound s' := by
  obtain ⟨_, _, _, _, _, hstages⟩ := buildModule_stages hp h
  exact hstages.sound

theorem buildModule_finished : Assembled env s' ∧ Equipped env s' := by
  obtain ⟨_, _, _, _, _, hstages⟩ := buildModule_stages hp h
  exact ⟨hstages.assembled, hstages.equipped⟩

theorem buildModule_assembled : Assembled env s' := (buildModule_finished hp h).1

theorem buildModule_types : ∃ s1 s2, declareTypes env s1 = .ok () s2 ∧
    s'.module.types = s2.module.types := by
  obtain ⟨s1, s2, _, _, _, hstages⟩ := buildModule_stages hp h
  exact ⟨s1, s2, hstages.types, hstages.types_eq⟩

end Module

end Tenure.Lowering
