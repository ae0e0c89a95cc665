import Tenure.Proofs.Reclamation

/-!
# Acquiring and discarding

Acquiring a value counts up the objects that it refers to, as often as it refers to
them (`Cites`), and discarding it counts them down again.  In between nothing else of
memory is touched (`Memory.Raised`), and as long as the counts were not zero before, no
count comes to zero on the way back: memory is what it was (`Memory.Restored`).
-/

namespace Tenure.Interp

variable {m0 m m' : Memory} {extra extra' : Nat → Nat} {id : Nat} {o : Object} {n : Int64}

/-! ## Raised counts -/

namespace Memory

/-- Memory has come from another one, and its objects are those of the other one, with
something added to their counts. -/
structure Raised (m0 : Memory) (extra : Nat → Nat) (m : Memory) : Prop where
  size : m0.objects.size ≤ m.objects.size
  /-- what was added since are stack slots -/
  fresh : ∀ (id : Nat) (o : Object), m0.objects.size ≤ id → m.objects[id]? = some o →
    o.region = .stack
  same : ∀ (id : Nat) (o : Object), m0.objects[id]? = some o → extra id = 0 →
    ∃ o', m.objects[id]? = some o' ∧ o.Alike o'
  raised : ∀ (id : Nat) (o : Object) (n : Int64), m0.objects[id]? = some o → o.Counted n →
    ∃ o', m.objects[id]? = some o' ∧ (o.withCount (n + .ofNat (extra id))).Alike o'

/-- Every object is what it was, and what has been added are stack slots. -/
structure Restored (m m' : Memory) : Prop where
  size : m.objects.size ≤ m'.objects.size
  fresh : ∀ (id : Nat) (o : Object), m.objects.size ≤ id → m'.objects[id]? = some o →
    o.region = .stack
  same : ∀ (id : Nat) (o : Object), m.objects[id]? = some o →
    ∃ o', m'.objects[id]? = some o' ∧ o.Alike o'

theorem Raised.refl (m : Memory) : m.Raised (fun _ => 0) m where
  size := Nat.le_refl _
  fresh id o hid ho := absurd (Array.getElem?_eq_some_iff.mp ho).1 (Nat.not_lt.mpr hid)
  same _ o ho _ := ⟨o, ho, .refl o⟩
  raised _ o n ho hn := ⟨o, ho, by simpa using hn.alike_withCount⟩

theorem Raised.congr (h : m0.Raised extra m) (hextra : ∀ id, extra' id = extra id) :
    m0.Raised extra' m := by
  rwa [funext hextra]

theorem Raised.stacked (h : m0.Raised extra m) (hm : m.Stacked m') : m0.Raised extra m' where
  size := Nat.le_trans h.size hm.size
  fresh id o hid ho := by
    by_cases hlt : id < m.objects.size
    · rw [hm.old id hlt] at ho
      exact h.fresh id o hid ho
    · exact hm.new id o (Nat.le_of_not_lt hlt) ho
  same id o ho hzero := by
    obtain ⟨o', ho', halike⟩ := h.same id o ho hzero
    exact ⟨o', hm.getElem? ho', halike⟩
  raised id o n ho hn := by
    obtain ⟨o', ho', halike⟩ := h.raised id o n ho hn
    exact ⟨o', hm.getElem? ho', halike⟩

/-- The count of an object is what it was and what has been added to it. -/
theorem Raised.counted (h : m0.Raised extra m) (ho : m0.objects[id]? = some o)
    (hn : o.Counted n) : ∃ o', m.objects[id]? = some o' ∧ o'.Counted (n + .ofNat (extra id)) := by
  obtain ⟨o', ho', halike⟩ := h.raised id o n ho hn
  exact ⟨o', ho', halike.counted hn.withCount⟩

/-- One object gets another count. -/
theorem Raised.recount (h : m0.Raised extra m) (ho : m0.objects[id]? = some o) (hn : o.Counted n)
    (hextra : ∀ i, i ≠ id → extra' i = extra i) :
    m0.Raised extra' (m.withCount id (n + .ofNat (extra' id))) := by
  obtain ⟨o', ho', halike⟩ := h.raised id o n ho hn
  have hself : (m.withCount id (n + .ofNat (extra' id))).objects[id]? =
      some (o'.withCount (n + .ofNat (extra' id))) := getElem?_withCount_self ho'
  have halike' := halike.recount hn (k := n + .ofNat (extra' id))
  refine ⟨by rw [size_withCount]; exact h.size, fun i p hi hp => ?_, fun i p hp hzero => ?_,
    fun i p c hp hc => ?_⟩
  · have hne : i ≠ id := by
      have := (Array.getElem?_eq_some_iff.mp ho).1
      omega
    rw [getElem?_withCount_ne hne] at hp
    exact h.fresh i p hi hp
  · by_cases hi : i = id
    · subst hi
      obtain rfl := Option.some.inj (ho.symm.trans hp)
      rw [hzero] at halike' hself ⊢
      have hsame : n + .ofNat 0 = n := by simp
      rw [hsame] at halike' hself ⊢
      exact ⟨_, hself, hn.alike_withCount.symm.trans halike'⟩
    · rw [getElem?_withCount_ne hi]
      exact h.same i p hp (hextra i hi ▸ hzero)
  · by_cases hi : i = id
    · subst hi
      obtain rfl := Option.some.inj (ho.symm.trans hp)
      obtain rfl : n = c := by
        have := hn.count.symm.trans hc.count
        simpa using this
      exact ⟨_, hself, halike'⟩
    · rw [getElem?_withCount_ne hi, hextra i hi]
      exact h.raised i p c hp hc

theorem Raised.restored (h : m0.Raised (fun _ => 0) m) : m0.Restored m :=
  ⟨h.size, h.fresh, fun id o ho => h.same id o ho rfl⟩

/-- The heap objects that are alive are those that were. -/
theorem Restored.isLive (h : m.Restored m') (id : Nat) :
    m'.objects[id]?.any isLive = m.objects[id]?.any isLive := by
  cases ho : m.objects[id]? with
  | some o =>
    obtain ⟨o', ho', halike⟩ := h.same id o ho
    simp [ho', Memory.isLive, halike.region, halike.dead]
  | none =>
    cases ho' : m'.objects[id]? with
    | none => rfl
    | some o' =>
      have hsize : m.objects.size ≤ id := Array.getElem?_eq_none_iff.mp ho
      simp [Memory.isLive, h.fresh id o' hsize ho']

end Memory

end Tenure.Interp

namespace Tenure.Lowering

open Ir (Ty Operand Op Func)
open Interp (Call World Value Memory Object heapObject)

variable {T : Setting} {L : Facts} {m m0 : Memory} {x : Operand}
variable {o : Nat} {v : Value} {t : Referend} {p : Program}

/-! ## What values refer to -/

/-- The counted objects that values of given types refer to directly, as often as they do.
Only shared values count, and a shared struct that is kept inline counts with its members. -/
inductive Cites (p : Program) : List (Option Reference) → List Value → List Nat → Prop
  | nil : Cites p [] [] []
  | unshared {r : Reference} {v : Value} {rs : List (Option Reference)} {vs : List Value}
      {os : List Nat} (hr : r.ownership ≠ .share) (rest : Cites p rs vs os) :
      Cites p (some r :: rs) (v :: vs) os
  | yonder {t : Referend} {v : Value} {o : Nat} {rs : List (Option Reference)} {vs : List Value}
      {os : List Nat} (leads : LeadsTo t v o) (rest : Cites p rs vs os) :
      Cites p (some ⟨.share, .yonder, t⟩ :: rs) (v :: vs) (o :: os)
  | members {s : Symbol} {i : Nat} {d : StructDef} {items : List Value} {os os' : List Nat}
      {rs : List (Option Reference)} {vs : List Value} (hs : p.structId s = i)
      (hd : p.structs[i]? = some d) (inside : Cites p (d.members.map (·.type)) items os)
      (rest : Cites p rs vs os') :
      Cites p (some ⟨.share, .inline, .struct s⟩ :: rs) (.agg items :: vs) (os ++ os')
  | plain {t : Referend} {v : Value} {rs : List (Option Reference)} {vs : List Value}
      {os : List Nat} (ht : ∀ s, t ≠ .struct s) (rest : Cites p rs vs os) :
      Cites p (some ⟨.share, .inline, t⟩ :: rs) (v :: vs) os

theorem Cites.uncons {r : Option Reference} {rs : List (Option Reference)} {ws : List Value}
    {os : List Nat} (h : Cites p (r :: rs) ws os) : ∃ v vs os1 os2, ws = v :: vs ∧ os = os1 ++ os2 ∧
      Cites p [r] [v] os1 ∧ Cites p rs vs os2 := by
  cases h with
  | unshared hr rest => exact ⟨_, _, [], _, rfl, rfl, .unshared hr .nil, rest⟩
  | yonder leads rest => exact ⟨_, _, [_], _, rfl, rfl, .yonder leads .nil, rest⟩
  | members hs hd inside rest =>
    refine ⟨_, _, _, _, rfl, rfl, ?_, rest⟩
    simpa using Cites.members hs hd inside .nil
  | plain ht rest => exact ⟨_, _, [], _, rfl, rfl, .plain ht .nil, rest⟩

theorem Cites.eq_nil {vs : List Value} {os : List Nat} (h : Cites p [] vs os) : os = [] := by
  cases h
  rfl

/-! ## Going through references -/

/-- A piece goes through references: with it, those that are still to come get fewer, and `I`
says how memory stands when some are still to come. -/
def Spends (T : Setting) (I : List Nat → Memory → Prop) (L : Facts) (os : List Nat)
    (x : Build Unit) : Prop :=
  ∀ P m, I (os ++ P) m → Runs (fun _ => False) T L m x fun _ _ m' => I P m'

variable {I : List Nat → Memory → Prop} {os os' : List Nat}

theorem Spends.nil : Spends T I L [] (pure ()) := fun _ _ h => .pure h

theorem Spends.seq {a b : Build Unit} [Steady a] [Steady b] (ha : Spends T I L os a)
    (hb : ∀ L', L ⊆ L' → Spends T I L' os' b) : Spends T I L (os ++ os') (do a; b) := by
  intro P m h
  rw [List.append_assoc] at h
  exact .bind (ha _ m h) fun _ L' m' hsub hq => hb L' hsub P m' hq

/-- A piece goes through the references of values of any type. -/
def SpendsValues (T : Setting) (I : List Nat → Memory → Prop) (visit : Held → Build Unit) : Prop :=
  ∀ ⦃L : Facts⦄ ⦃x : Operand⦄ ⦃r : Option Reference⦄ ⦃v : Value⦄ ⦃os : List Nat⦄, Knows T L x v →
    Cites T.env.program [r] [v] os → Spends T I L os (visit ⟨x, r⟩)

section Members

variable {visit : Held → Build Unit} [∀ h, Steady (visit h)]

/-- The members of a struct are visited one after the other. -/
theorem spends_visitMembers [∀ x i ms, Steady (visitMembers x visit i ms)]
    (hvisit : SpendsValues T I visit) {items : List Value} {i : Nat} {ms : List StructMember}
    (hx : Knows T L x (.agg items))
    (hcites : Cites T.env.program (ms.map (·.type)) (items.drop i) os) :
    Spends T I L os (visitMembers x visit i ms) := by
  induction ms generalizing i L os with
  | nil =>
    obtain rfl := hcites.eq_nil
    exact .nil
  | cons d ms ih =>
    obtain ⟨u, us, os1, os2, hitems, rfl, hfirst, hrest⟩ := hcites.uncons
    have hu : items[i]? = some u := by
      rw [← List.head?_drop, hitems]
      rfl
    have hus : items.drop (i + 1) = us := by
      rw [← List.tail_drop, hitems]
      rfl
    intro P m h
    refine .next (flows_emitExtract hx (extract_item hu)) fun field L1 hsub1 hfield => ?_
    refine Spends.seq (hvisit hfield hfirst) (fun L2 hsub2 => ?_) P m h
    exact ih ((hx.mono hsub1).mono hsub2) (hus ▸ hrest)

/-- A struct that is kept inline is gone through member by member, and any other value that is
kept inline has no references. -/
theorem spends_forEachMember [∀ x i ms, Steady (visitMembers x visit i ms)]
    (hvisit : SpendsValues T I visit) (hx : Knows T L x v)
    (hcites : Cites T.env.program [some ⟨.share, .inline, t⟩] [v] os) :
    Spends T I L os (forEachMember x t visit) := by
  cases hcites with
  | unshared hr => exact absurd rfl hr
  | @members s i d items os _ _ _ hs hd inside rest =>
    cases rest
    rw [List.append_nil]
    intro P m h
    refine .after quiet_structIndex fun _ i' _ hrun _ _ => ?_
    obtain rfl : i = i' := by
      have := (structIndex_ok hrun).1
      omega
    refine .after quiet_structAt fun _ d' _ hrun _ _ => ?_
    obtain rfl : d = d' := Option.some.inj (hd.symm.trans (structAt_ok hrun).1)
    exact spends_visitMembers hvisit hx inside P m h
  | plain ht rest =>
    cases rest
    cases t with
    | struct s => exact absurd rfl (ht s)
    | _ => exact .nil

end Members

/-! ## Acquiring -/

section Acquire

variable {fuel : Nat}

instance {h : Held} : Steady (acquireFuel fuel h) := .of [h.value]

instance {i : Nat} {ms : List StructMember} : Steady (visitMembers x (acquireFuel fuel) i ms) :=
  .of [x]

instance {r : Referend} : Steady (forEachMember x r (acquireFuel fuel)) := .of [x]

/-- The references of a value are acquired. -/
theorem spends_acquireFuel
    (hcount : ∀ ⦃L : Facts⦄ ⦃x : Operand⦄ ⦃t : Referend⦄ ⦃v : Value⦄ ⦃o : Nat⦄,
      Knows T L x v → LeadsTo t v o →
      Spends T I L [o] (do let _ ← adjustCount x ⟨.share, .yonder, t⟩ 1)) :
    SpendsValues T I (acquireFuel fuel) := by
  induction fuel with
  | zero => exact fun _ _ _ _ _ _ _ _ _ _ => .crash
  | succ fuel ih =>
    intro L x r v os hx hcites P m h
    refine .require fun r' hr' => ?_
    obtain rfl : r = some r' := hr'
    cases hcites with
    | unshared hr rest =>
      cases rest
      exact .ite (fun _ => .pure h) fun hshare => absurd (by simpa using hshare) hr
    | yonder leads rest =>
      cases rest
      exact hcount hx leads P m h
    | members hs hd inside rest =>
      exact spends_forEachMember ih hx (.members hs hd inside rest) P m h
    | plain ht rest => exact spends_forEachMember ih hx (.plain ht rest) P m h

/-- While a value is acquired, what has been counted up and what is still to come make up the
references of the value. -/
def Acquired (m0 : Memory) (total : Nat → Nat) (P : List Nat) (m : Memory) : Prop :=
  (∀ o ∈ P, ∃ obj n, m0.objects[o]? = some obj ∧ obj.Counted n) ∧
    ∃ extra, (∀ o, extra o + P.count o = total o) ∧ m0.Raised extra m

theorem spends_countUp {total : Nat → Nat} (htypes : T.Typed) (hx : Knows T L x v)
    (hleads : LeadsTo t v o) :
    Spends T (Acquired m0 total) L [o] (do let _ ← adjustCount x ⟨.share, .yonder, t⟩ 1) := by
  rintro P m ⟨hcounted, extra, htotal, hraised⟩
  obtain ⟨obj, n, hobj, hn⟩ := hcounted o (by simp)
  obtain ⟨obj', hobj', hn'⟩ := hraised.counted hobj hn
  refine .bind (hleads.runs_adjustCount htypes hx hobj' hn') fun _ L1 m1 _ hq => .pure ?_
  obtain ⟨-, rfl⟩ := hq
  have hcount : n + .ofNat (extra o) + .ofInt 1 =
      n + .ofNat (Function.update extra o (extra o + 1) o) := by
    rw [Function.update_self, Int64.ofNat_add, Int64.add_assoc]
    rfl
  refine ⟨fun o' ho' => hcounted o' (by simp [ho']), Function.update extra o (extra o + 1),
    fun o' => ?_, hcount ▸ hraised.recount hobj hn fun i hi => Function.update_of_ne hi _ _⟩
  rw [← htotal o']
  by_cases ho' : o' = o
  · subst ho'
    simp
    omega
  · simp [ho', List.count_cons_of_ne (Ne.symm ho')]

/-- Acquiring a value counts up the objects that it refers to, and nothing else changes. -/
theorem runs_acquire {r : Option Reference} (htypes : T.Typed)
    (hx : Knows T L x v) (hcites : Cites T.env.program [r] [v] os)
    (hcounted : ∀ o ∈ os, ∃ obj n, m0.objects[o]? = some obj ∧ obj.Counted n)
    (hm : m0.Raised (fun _ => 0) m) :
    Runs (fun _ => False) T L m (acquire ⟨x, r⟩) fun _ _ m' => m0.Raised (os.count ·) m' := by
  refine .after quiet_nestingFuel fun _ fuel _ _ _ _ => ?_
  have hstart : Acquired m0 (os.count ·) (os ++ []) m :=
    ⟨by simpa using hcounted, fun _ => 0, by simp, hm⟩
  refine (spends_acquireFuel (fun L x t v o hx => spends_countUp htypes hx) hx hcites [] m
    hstart).mono fun _ _ m' _ hq => ?_
  obtain ⟨-, extra, htotal, hraised⟩ := hq
  exact hraised.congr fun o => by simpa using (htotal o).symm

end Acquire

/-! ## Discarding what was acquired -/

section Discard

variable {fuel : Nat}

/-- The references of a value are released. -/
theorem spends_discardFuel (hrelease : ∀ ⦃fuel : Nat⦄ ⦃L : Facts⦄ ⦃x : Operand⦄ ⦃t : Referend⦄
      ⦃v : Value⦄ ⦃o : Nat⦄, Knows T L x v → LeadsTo t v o → Spends T I L [o]
        (releaseShared x ⟨.share, .yonder, t⟩ (ending (discardFuel fuel) x .share .yonder t))) :
    SpendsValues T I (discardFuel fuel) := by
  induction fuel with
  | zero => exact fun _ _ _ _ _ _ _ _ _ _ => .crash
  | succ fuel ih =>
    intro L x r v os hx hcites P m h
    refine .require fun r' hr' => ?_
    obtain rfl : r = some r' := hr'
    rw [release_eq]
    cases hcites with
    | unshared hr rest =>
      cases rest
      unfold releaseBy
      split
      · exact .pure h
      · exact .pure h
      · exact .violation
      · next hshare => exact absurd hshare hr
    | yonder leads rest =>
      cases rest
      exact hrelease hx leads P m h
    | members hs hd inside rest =>
      exact spends_forEachMember ih hx (.members hs hd inside rest) P m h
    | plain ht rest => exact spends_forEachMember ih hx (.plain ht rest) P m h

/-- While a value is discarded that was acquired before, the counts are raised by what is still to
come. -/
structure Surplus (m0 : Memory) (P : List Nat) (m : Memory) : Prop where
  counted : ∀ o ∈ P, ∃ obj n, m0.objects[o]? = some obj ∧ obj.Counted n ∧ 0 < n
  /-- so that a count does not come round to zero -/
  few : P.length ≤ 2 ^ 63
  raised : m0.Raised (P.count ·) m

theorem add_ofNat_ne_zero {n : Int64} {k : Nat} (hn : 0 < n) (hk : k < 2 ^ 63) :
    n + .ofNat k ≠ 0 := by
  intro h
  have hlow : 0 < n.toInt := Int64.lt_iff_toInt_lt.mp hn
  have hhigh := n.toInt_lt
  have hsum := congrArg Int64.toInt h
  rw [Int64.toInt_add, Int64.toInt_ofNat_of_lt hk, Int64.toInt_zero] at hsum
  have hdvd := Int.dvd_of_bmod_eq_zero hsum
  omega

/-- A count that is raised is taken down, and does not come to zero. -/
theorem spends_releaseShared (htypes : T.Typed) (hx : Knows T L x v) (hleads : LeadsTo t v o) :
    Spends T (Surplus m0) L [o]
      (releaseShared x ⟨.share, .yonder, t⟩ (ending (discardFuel fuel) x .share .yonder t)) := by
  intro P m h
  obtain ⟨obj, n, hobj, hn, hpos⟩ := h.counted o (by simp)
  obtain ⟨obj', hobj', hn'⟩ := h.raised.counted hobj hn
  have hfew : P.count o < 2 ^ 63 := by
    have := List.count_le_length (a := o) (l := P)
    have := h.few
    simp only [List.singleton_append, List.length_cons] at this
    omega
  have hcount : n + .ofNat (([o] ++ P).count o) - 1 = n + .ofNat (P.count o) := by
    rw [List.singleton_append, List.count_cons_self, Int64.ofNat_add, ← Int64.add_assoc]
    exact Int64.add_sub_cancel _ _
  have hraised : m0.Raised (P.count ·) (m.withCount o (n + .ofNat (P.count o))) :=
    h.raised.recount hobj hn fun i hi => by
      rw [List.singleton_append, List.count_cons_of_ne (Ne.symm hi)]
  rw [releaseShared_eq]
  refine .bind (hleads.runs_countDown htypes hx hobj' hn') fun count L1 m1 _ hq => ?_
  rw [hcount] at hq
  obtain ⟨hcount', rfl⟩ := hq
  have hnone : Knows T L1 (.i64 0) (.int 0) := knows_i64 0
  refine .next (flows_emitCompare hcount' hnone) fun zero L2 _ hzero => ?_
  refine .guarded hzero.knows (fun hyes => ?_) fun _ m' hm' => ?_
  · exact absurd (by simp [Interp.compareInts, add_ofNat_ne_zero hpos hfew]) hyes
  · exact ⟨fun o' ho' => h.counted o' (by simp [ho']), Nat.le_of_succ_le h.few,
      hraised.stacked hm'⟩

/-- Discarding a value that was acquired takes the counts back to what they were. -/
theorem runs_discard {r : Option Reference} (htypes : T.Typed)
    (hx : Knows T L x v) (hcites : Cites T.env.program [r] [v] os) (h : Surplus m0 os m) :
    Runs (fun _ => False) T L m (discard ⟨x, r⟩) fun _ _ m' => m0.Restored m' := by
  refine .after quiet_nestingFuel fun _ fuel _ _ _ _ => ?_
  refine (spends_discardFuel (fun fuel L x t v o hx => spends_releaseShared htypes hx) hx hcites
    [] m (by simpa using h)).mono fun _ _ m' _ hq => ?_
  exact hq.raised.restored

end Discard

/-! ## Whole programs -/

section Sites

variable {α β : Type} {F : Func} {U : List Operand} {s s' s'' : State} {f f' f'' : Func}

/-- Pieces that stand one after the other. -/
theorem Stands.append {a : Build α} {b : Build β} {u : α} {u' : β}
    (ha : Stands T F U a s f u s' f') (hb : Stands T F U b s' f' u' s'' f'') :
    Stands T F U (do let _ ← a; b) s f u' s'' f'' :=
  ⟨ha.placed, ha.isOpen, ha.formed, (bind_of_ok ha.ok).trans hb.ok, hb.ended, hb.within⟩

/-- What an expression begins with is found behind the start of the expression. -/
theorem Stands.arrived {e : Expr} {y : Build Result} {k : Result → Build β} {b : β}
    (hS : Stands T F U (arriving e y >>= k) s f b s' f') :
    ∃ s1 f1, Stands T F U (y >>= k) s1 f1 b s' f' := by
  obtain ⟨r, s1, harriving, hk⟩ := bind_ok hS.ok
  have hrun := read_then (open_then harriving hS.placed hS.isOpen)
  split at hrun
  · obtain ⟨u, s2, hflare, hy⟩ := bind_ok hrun
    have hS' : Stands T F U (flare e.kind >>= fun _ => y >>= k) s f b s' f' :=
      { hS with ok := (bind_of_ok hflare).trans ((bind_of_ok hy).trans hk) }
    obtain ⟨_, s1, f1, -, hS1⟩ := hS'.later Orderly.emits
    exact ⟨s1, f1, hS1.mono (by simp)⟩
  · exact ⟨s, f, { hS with ok := (bind_of_ok hrun).trans hk }⟩

variable {env : Env} {r : Reference}

/-- Nothing is done to discard a value that is not shared. -/
theorem discard_unshared {u : Unit} (hr : r.ownership ≠ .share)
    (h : discard ⟨x, some r⟩ env s = .ok u s') : s = s' := by
  obtain ⟨fuel, _, h1, h⟩ := bind_ok h
  replace h1 := getProgram_then h1
  obtain ⟨rfl, rfl⟩ := pure_ok h1
  obtain ⟨_, hr', h⟩ := require_then h
  obtain rfl := Option.some.inj hr'
  rw [release_eq] at h
  obtain ⟨ownership, location, referend⟩ := r
  cases ownership with
  | own | borrow => exact (pure_ok h).2
  | unknown => exact absurd h throw_ne_ok
  | share => exact absurd rfl hr

theorem releasing_unshared {body : Build α} {a : α} (hr : r.ownership ≠ .share)
    (h : releasing ⟨x, some r⟩ body env s = .ok a s') : body env s = .ok a s' := by
  obtain ⟨s1, hbody, hclose⟩ := releasing_ok h
  obtain ⟨b, _, h1, hclose⟩ := bind_ok hclose
  obtain rfl : s1 = _ := by
    replace h1 := get_then h1
    exact (pure_ok h1).2
  cases b with
  | false => rwa [← discard_unshared hr hclose]
  | true =>
    obtain ⟨-, rfl⟩ := pure_ok hclose
    exact hbody

theorem emit_reg {ty : Ty} {op : Op} (h : emit ty op env s = .ok x s') : ∃ id t, x = .reg id t := by
  obtain ⟨_, _, -, h⟩ := bind_ok h
  obtain ⟨_, _, -, h⟩ := bind_ok h
  obtain ⟨_, _, -, h⟩ := bind_ok h
  obtain ⟨rfl, -⟩ := pure_ok h
  exact ⟨_, _, rfl⟩

theorem readMember_reg {y : Operand} {i : Nat} {m : StructMember}
    (h : readMember y r i m env s = .ok x s') : ∃ id t, x = .reg id t := by
  unfold readMember at h
  split at h
  · obtain ⟨_, _, -, h⟩ := bind_ok h
    obtain ⟨_, _, -, h⟩ := bind_ok h
    exact emit_reg h
  · obtain ⟨_, _, -, h⟩ := bind_ok h
    obtain ⟨_, _, -, h⟩ := bind_ok h
    exact emit_reg h

/-- What is read from a struct that is not shared, and discarded, is acquired and discarded. -/
theorem Stands.memberRead {source : Expr} {index : Int} {member : String}
    {expected : Option Reference} {q : Result} (hr : r.ownership ≠ .share)
    (hS : Stands T F [] (lowerExpr (.discard (.memberLoad source (some r) index member expected)
      expected)) s f q s' f') :
    ∃ x s1 f1 s2 f2 s3 f3, (∃ id t, x = .reg id t) ∧
      Stands T F [x] (acquire ⟨x, expected⟩) s1 f1 () s2 f2 ∧
      Stands T F [x] (Lowering.discard ⟨x, expected⟩) s2 f2 () s3 f3 := by
  rw [lowerExpr] at hS
  obtain ⟨s0, f0, hS⟩ := hS.arrived
  obtain ⟨y, s4, hload, hrest⟩ := bind_ok hS.ok
  rw [lowerExpr] at hload
  obtain ⟨_, hr', hload⟩ := require_then hload
  obtain rfl := Option.some.inj hr'
  obtain ⟨m, s1, hm, hload⟩ := bind_ok hload
  have hvalue : (valueOf source >>= fun h => releasing ⟨h.value, some r⟩ do
      let field ← readMember h.value r index.toNat m
      acquire ⟨field, expected⟩
      return some (⟨field, expected⟩ : Held)) T.env s1 = .ok y s4 := by
    rw [valueOf, bind_assoc]
    exact hload
  obtain ⟨h, s2, hsource, hbody⟩ := bind_ok hvalue
  obtain ⟨x, s3, hread, hbody⟩ := bind_ok (releasing_unshared hr hbody)
  obtain ⟨_, _, hacquire, hbody⟩ := bind_ok hbody
  obtain ⟨rfl, rfl⟩ := pure_ok hbody
  -- the code from the start of the expression on
  have hS' : Stands T F [] ((do
      let m ← memberOf r index
      let h ← valueOf source
      readMember h.value r index.toNat m) >>= fun x => do
        acquire ⟨x, expected⟩
        Lowering.discard ⟨x, expected⟩
        return some Held.void) s0 f0 q s' f' := by
    refine { hS with ok := ?_ }
    rw [bind_of_ok ((bind_of_ok hm).trans ((bind_of_ok hsource).trans hread)), bind_of_ok hacquire]
    exact hrest
  obtain ⟨x', s1, f1, hx', hS1⟩ := hS'.later Orderly.emits
  obtain ⟨_, s2, hacquire, hrest⟩ := bind_ok hS1.ok
  obtain ⟨f2, hg2, hopen2⟩ := Orderly.emits (U := Hands.operands x' ++ [])
    hS1.placed hS1.isOpen hacquire
  have hS2 := hS1.second (a := ()) hg2 hopen2 hrest
  obtain ⟨_, s3, hdiscard, hpure⟩ := bind_ok hS2.ok
  obtain ⟨f3, hg3, hopen3⟩ := Orderly.emits (U := [x']) hS2.placed hS2.isOpen hdiscard
  obtain ⟨_, _, -, hx'⟩ := bind_ok hx'
  obtain ⟨_, _, -, hx'⟩ := bind_ok hx'
  exact ⟨x', s1, f1, s2, f2, s3, f3, readMember_reg hx',
    (hS1.first hg2.toExtends hopen2 hacquire hrest).mono (by simp),
    (hS2.first hg3.toExtends hopen3 hdiscard hpure).mono (by simp)⟩

end Sites

section Program

variable {F : Func} {r : Reference} {os : List Nat} {C : Call} {w : World}
variable {s s1 s' : State} {f f1 f' : Func}

/-- A call has come to a value that refers to counted objects, all of them alive. -/
structure Holding (T : Setting) (F : Func) (s : State) (f : Func) (x : Operand) (r : Reference)
    (os : List Nat) (C : Call) (w : World) : Prop extends Underway T F s f C w where
  value : ∃ v, C.Means w.regs x v ∧ Cites T.env.program [some r] [v] os
  counted : ∀ o ∈ os, ∃ obj n, w.memory.objects[o]? = some obj ∧ obj.Counted n ∧ 1 ≤ n
  /-- there are fewer references than would carry a count round to zero -/
  few : os.length ≤ 2 ^ 63

/-- What was acquired and is discarded again leaves memory as it was. -/
theorem Holding.undone (h : Holding T F s f x r os C w)
    (hA : Stands T F [x] (acquire ⟨x, some r⟩) s f () s1 f1)
    (hD : Stands T F [x] (discard ⟨x, some r⟩) s1 f1 () s' f')
    (htypes : T.Typed) (hsound : Sound T.final) :
    ∃ w', Interp.Steps (standing C s f w) (standing C s' f' w') ∧ w.memory.Restored w'.memory := by
  obtain ⟨v, hv, hcites⟩ := h.value
  have hknows : Knows T [(x, v)] x v := knows_of_mem (by simp)
  have hrun : Runs (fun _ => False) T [(x, v)] w.memory
      (do acquire ⟨x, some r⟩; discard ⟨x, some r⟩) fun _ _ m => w.memory.Restored m := by
    refine .bind (runs_acquire htypes hknows hcites (fun o ho => ?_) (.refl _))
      fun _ L1 m1 hsub hraised => ?_
    · obtain ⟨obj, n, hobj, hn, -⟩ := h.counted o ho
      exact ⟨obj, n, hobj, hn⟩
    · refine runs_discard htypes (hknows.mono hsub) hcites ⟨fun o ho => ?_, h.few, hraised⟩
      obtain ⟨obj, n, hobj, hn, hpos⟩ := h.counted o ho
      exact ⟨obj, n, hobj, hn, Int64.lt_of_lt_of_le (by decide) hpos⟩
  obtain ⟨_, w', hsteps, -, -, hrestored⟩ :=
    (hA.append hD).runs hrun (h.hosted hA hsound) h.hosts.body
    h.ready (by simpa using hv)
  exact ⟨w', hsteps, hrestored⟩

/-- What acquiring a value and then discarding it does in a finished module. -/
structure Undoes (p : Program) (options : Options) (final : State) : Prop where
  /-- where the program reads a member of a struct that is not shared, and discards it, the code
  that acquires the member and the code that discards it stand one after the other -/
  sites : ∀ T : Setting, T.env = ⟨p, options⟩ → T.final = final → ∀ (k : Nat) (fn : Function),
    p.functions[k]? = some fn → ∃ pos F, final.funcs[k]? = some (some pos) ∧
      final.module.funcs[pos]? = some F ∧ ∀ source r index member expected, r.ownership ≠ .share →
        (Expr.discard (.memberLoad source (some r) index member expected) expected).Occurs fn.body →
        ∃ x s f s1 f1 s' f', (∃ id t, x = .reg id t) ∧
          Stands T F [x] (acquire ⟨x, expected⟩) s f () s1 f1 ∧
          Stands T F [x] (discard ⟨x, expected⟩) s1 f1 () s' f'
  /-- such code comes to its end, and memory is what it was -/
  undoes : ∀ T : Setting, T.env = ⟨p, options⟩ → T.final = final →
    ∀ ⦃F : Func⦄ ⦃x : Operand⦄ ⦃r : Reference⦄ ⦃s : State⦄ ⦃f : Func⦄ ⦃s1 : State⦄ ⦃f1 : Func⦄
      ⦃s' : State⦄ ⦃f' : Func⦄, Stands T F [x] (acquire ⟨x, some r⟩) s f () s1 f1 →
      Stands T F [x] (discard ⟨x, some r⟩) s1 f1 () s' f' →
    ∀ ⦃os : List Nat⦄ ⦃C : Call⦄ ⦃w : World⦄, Holding T F s f x r os C w → ∃ w',
      Interp.Steps (standing C s f w) (standing C s' f' w') ∧ w.memory.Restored w'.memory ∧
      ∀ id : Nat, w'.memory.objects[id]?.any Memory.isLive = w.memory.objects[id]?.any Memory.isLive

theorem discard_undoes_acquire {q p : Program} {options : Options} {code : Ir.Module}
    (hq : q.resolve = (p, none)) (hcode : p.toModule options = .ok code) :
    ∃ final : State, buildModule ⟨p, options⟩ {} = .ok () final ∧ final.module = code ∧
      Undoes p options final := by
  obtain ⟨hnumbered, -⟩ := Program.resolve_ok hq
  obtain ⟨final, hbuild, rfl⟩ := Program.toModule_ok hcode
  have hassembled := buildModule_assembled hnumbered hbuild
  have hsound := buildModule_sound hnumbered hbuild
  refine ⟨final, hbuild, rfl, ?_, ?_⟩
  · rintro ⟨_, _, natives, depth⟩ rfl rfl k fn hk
    obtain ⟨pos, F, hpos, hF, hstands⟩ :=
      Assembled.stands (T := ⟨_, _, natives, depth⟩) hassembled hk
    refine ⟨pos, F, hpos, hF, fun source r index member expected hr hd => ?_⟩
    obtain ⟨s, f, r, s', f', hS⟩ := hstands _ hd
    exact hS.memberRead hr
  · rintro ⟨_, _, natives, depth⟩ rfl rfl F x r s f s1 f1 s' f' hA hD os C w h
    obtain ⟨w', hsteps, hrestored⟩ := h.undone hA hD hassembled.types hsound
    exact ⟨w', hsteps, hrestored, hrestored.isLive⟩

end Program

/-! ## A pair of the same leaf twice -/

namespace Twice

open Shapes (int reference)
open Sharing (object object_counted)

def pair : Reference := ⟨.share, .inline, .struct (.interned "Pair")⟩

/-- A holder that is lent. -/
def lent : Reference := ⟨.borrow, .yonder, .struct (.interned "Holder")⟩

def readPair : Expr :=
  .discard (.memberLoad (.argument (some lent) 0) (some lent) 0 "pair" (some pair)) (some pair)

/-- Pairs of leaves that are kept in holders, and a function that reads a pair and discards it. -/
def program : Program where
  structs := #[⟨"Leaf", true, [], [], -1⟩,
    ⟨"Pair", true, [⟨"left", reference "Leaf"⟩, ⟨"right", reference "Leaf"⟩], [], -1⟩,
    ⟨"Holder", false, [⟨"pair", some pair⟩], [], -1⟩]
  functions := #[⟨⟨"read", [some lent], int, -1⟩, .block [readPair, .constantI64 0]⟩]
  structSymbols := [("Leaf", -1), ("Pair", -1), ("Holder", -1)]

/-- A leaf to which there is one reference. -/
def memory : Memory where
  objects := #[object 0x1000 1 (.int 0) (.int 0)]
  nextAddress := 0x1030

/-- A call of the function is under way, with nothing registered. -/
def setting (final : State) : Setting := ⟨⟨program.resolve.1, {}⟩, final, [], 1⟩

/-- The references of a pair of the same leaf twice. -/
theorem cites : Cites program.resolve.1 [some pair]
    [.agg [.ptr (heapObject 0), .ptr (heapObject 0)]] [0, 0] := by
  have hpair : program.resolve.1.structId (.interned "Pair") = 1 := by decide +kernel
  have hinside : Cites program.resolve.1 [reference "Leaf", reference "Leaf"]
      [.ptr (heapObject 0), .ptr (heapObject 0)] [0, 0] := .yonder .struct (.yonder .struct .nil)
  exact .members hpair rfl hinside .nil

/-- A call has come to such a pair. -/
theorem holding {final : State} {F : Func} {pos id : Nat} {t : Ty} {s : State} {f : Func}
    (hF : final.module.funcs[pos]? = some F) (hslotless : F.Slotless) :
    ∃ C w, Holding (setting final) F s f (.reg id t) pair [0, 0] C w ∧ w.memory = memory := by
  let M : Interp.Machine := { code := final.module, memory, depth := 1 }
  let C : Call := ⟨M, pos, F, hF, #[], []⟩
  let regs : Std.HashMap Nat Value :=
    (∅ : Std.HashMap Nat Value).insert id (.agg [.ptr (heapObject 0), .ptr (heapObject 0)])
  let w : World := { memory, output := {}, regs }
  refine ⟨C, w, ?_, rfl⟩
  exact
    { hosts := ⟨rfl, rfl⟩
      natives := rfl
      depth := rfl
      ready := .of_slotless hslotless rfl rfl
      sized := fun j i elem hi hop => absurd hop (hslotless.not_alloca hi)
      value := ⟨_, by simp [Call.Means, w, regs], cites⟩
      counted := fun o ho => by
        obtain rfl : o = 0 := by simpa using ho
        exact ⟨_, 1, rfl, object_counted, by decide⟩
      few := by decide }

end Twice

open Twice in
theorem discard_undoes_acquire_twice :
    ∃ (code : Ir.Module) (final : State), program.resolve.1.toModule {} = .ok code ∧
      final.module = code ∧ Undoes program.resolve.1 {} final ∧ ∃ T F x s f s1 f1 s' f' C w w',
        Stands T F [x] (acquire ⟨x, some pair⟩) s f () s1 f1 ∧
        Stands T F [x] (discard ⟨x, some pair⟩) s1 f1 () s' f' ∧
        Holding T F s f x pair [0, 0] C w ∧
        Interp.Steps (standing C s f w) (standing C s' f' w') ∧ w.memory = memory ∧
        w.memory.Restored w'.memory := by
  have hq := Program.resolve_of_none (p := program) (by decide +kernel)
  have heval : (program.resolve.1.toModule {}).toOption.any Ir.Module.isSlotless = true := by
    decide +kernel
  obtain ⟨code, hcode, hslotless⟩ := except_of_any heval
  obtain ⟨final, -, rfl, hundoes⟩ := discard_undoes_acquire hq hcode
  have hfn : program.resolve.1.functions[0]?.map (·.body) =
      some (.block [readPair, .constantI64 0]) := rfl
  obtain ⟨fn, hget, hbody⟩ := Option.map_eq_some_iff.mp hfn
  obtain ⟨pos, F, -, hF, hsites⟩ := hundoes.sites (setting final) rfl rfl 0 fn hget
  have hoccurs : readPair.Occurs fn.body := by
    rw [hbody]
    exact .part (List.mem_cons_self ..) .here
  obtain ⟨_, s, f, s1, f1, s', f', ⟨id, t, rfl⟩, hA, hD⟩ :=
    hsites _ lent _ _ _ (by decide) hoccurs
  obtain ⟨C, w, hholding, hmemory⟩ :=
    holding (t := t) hF (Ir.Module.slotless_of_isSlotless hslotless hF)
  obtain ⟨w', hsteps, hrestored, -⟩ := hundoes.undoes (setting final) rfl rfl hA hD hholding
  exact ⟨_, final, hcode, rfl, hundoes, setting final, F, .reg id t, s, f, s1, f1, s', f', C, w, w',
    hA, hD, hholding, hsteps, hmemory, hrestored⟩

end Tenure.Lowering
