import Tenure.Proofs.EmittedControl

/-!
# All kinds of expressions emit code in order

The statements about the parts of lowering are put together, by recursion on the
expression: whatever is lowered, every edit is allowed, every definition
dominates its uses, and a value is given only where control goes on.
-/

namespace Tenure.Lowering

open Ir (Operand Term Func)

variable {U : List Operand} {x : Build Result}

set_option synthInstance.maxSize 4000

/-- `Lowers` as a class, for the expressions that an expression is made of. -/
class Yields (x : Build Result) : Prop where
  lowers : ∀ U, Lowers U x

instance {β : Type} [Hands β] {e : Expr} {k : Held → Build β} [hx : Yields x]
    [hk : ∀ h : Held, Orderly (h.value :: U) (k h)] :
    Orderly U (arriving e x >>= fun r => use r >>= k) :=
  ⟨(hx.lowers U).arriving.use fun h => (hk h).emits⟩

theorem ret_lowers {x : Operand} (hx : Given U x) : Lowers U (do
    terminate (.ret (some x))
    return none) := by
  intro env s r s' f hp hopen hrun
  obtain ⟨_, _, h1, h⟩ := bind_ok hrun
  obtain ⟨rfl, rfl⟩ := pure_ok h
  have e := terminate_ok h1 hp.func
  have hkeeps := (Ir.Func.Edit.terminate (t := .ret (some x)) hp.lt hopen).keeps
  refine ⟨_, ⟨e.placed hp hkeeps, e.framed, .inl e.block, ?_, fun D hD hU => ?_⟩, by simp⟩
  · refine ((Ir.Func.Evolves.refl hp.lt hopen).terminate rfl).congr fun c => ?_
    rw [e.block, Ir.Func.term?_terminate hp.lt]
    constructor
    · rintro ⟨rfl, hc⟩
      exact absurd hc (by simp)
    · rintro ⟨rfl, hc⟩
      exact absurd rfl hc
  · rw [e.block]
    refine ⟨D, hD.terminate hp.lt hopen ?_ (by simp [Term.successors]), fun _ _ _ => Iff.rfl,
      fun _ hd => hd, by simp⟩
    intro v hv
    obtain rfl := List.mem_singleton.mp hv
    exact Available.of_given hx hU

theorem argument_emits {type : Option Reference} {index : Int} :
    Emits U (lowerExpr (.argument type index)) Result.operands := by
  intro env s r s' f hp hopen hrun
  obtain ⟨g, _, h1, h⟩ := bind_ok hrun
  obtain ⟨rfl, rfl⟩ := currentFunc_ok h1 hp.func
  cases hparam : Program.byId f.params.toArray index with
  | none =>
    rw [hparam] at h
    exact absurd h throw_ne_ok
  | some p =>
    rw [hparam] at h
    obtain ⟨rfl, rfl⟩ := pure_ok h
    refine ⟨f, Grown.ofOpen hp (.refl _) (Ir.Func.Evolves.refl hp.lt hopen) fun D hD hU => ?_⟩
    refine ⟨D, hD, fun _ _ _ => Iff.rfl, fun _ hd => hd, fun v hv => ?_⟩
    obtain rfl := List.mem_singleton.mp hv
    unfold Program.byId at hparam
    split at hparam
    · have := (Array.getElem?_eq_some_iff.mp hparam).1
      rwa [List.size_toArray] at this
    · cases hparam

/-- A method is called with the object in the place of the reference to it. -/
instance {xs V : List Operand} {i : Nat} {x : Operand} [hxs : Provided V xs] [hx : Handed V x] :
    Provided V (xs.set i x) where
  given y hy := by
    rcases List.mem_or_eq_of_mem_set hy with h | rfl
    · exact hxs.given y h
    · exact hx.given

/-- What an upcast does with a reference to an object. -/
def upcasting (x : Operand) (o : Ownership) (struct interface : Option Symbol) :
    Build Result := do
  let s ← require struct
  let sid ← structIndex s
  let i ← require interface
  let iid ← interfaceIndex i
  match (← getProgram).edgeIndex? sid iid with
  | none => violation (.notImplemented s.name i.name)
  | some edge =>
      let object ← emitBitcast x .i8Ptr
      let y ← makeInterfaceRef iid object (← tableOperand edge)
      return some ⟨y, some ⟨o, .yonder, .interface i⟩⟩

instance {x : Operand} {o : Ownership} {struct interface : Option Symbol} [Handed U x] :
    Orderly U (upcasting x o struct interface) := by
  refine ⟨.after .require fun n => .after quiet_structIndex fun sid => ?_⟩
  refine .after .require fun i => .after quiet_interfaceIndex fun iid => ?_
  refine .after quiet_getProgram fun p => @Orderly.emits _ _ _ _ ?_
  split <;> infer_instance

variable {env : Env} {s s' : State} {f : Func} {es : List Expr}

/-- Where expressions are lowered, control goes on, or there are none. -/
theorem lowerExprs_ok {rs : List Result} (h : lowerExprs es env s = .ok rs s') (hp : Placed s f) :
    rs = [] ∧ s = s' ∨ f.term? s.block = none := by
  cases es with
  | nil =>
    obtain ⟨rfl, rfl⟩ := pure_ok h
    exact .inl ⟨rfl, rfl⟩
  | cons e es =>
    obtain ⟨_, _, h1, -⟩ := bind_ok h
    exact .inr (arriving_ok h1 hp)

theorem lowerSequence_ok {q r : Result} (h : lowerSequence q es env s = .ok r s')
    (hp : Placed s f) : q = r ∧ s = s' ∨ es ≠ [] ∧ f.term? s.block = none := by
  cases es with
  | nil => exact .inl (pure_ok h)
  | cons e es =>
    obtain ⟨_, _, h1, -⟩ := bind_ok h
    exact .inr ⟨by simp, arriving_ok h1 hp⟩

mutual

/-- Every expression is lowered to code that is in order. -/
theorem lowerExpr_lowers (U : List Operand) : ∀ e : Expr, Lowers U (lowerExpr e)
  | .missing | .constantI64 _ | .constantBool _ | .constantStr _ | .unstackify _
  | .localLoad _ _ => by
      unfold lowerExpr
      exact .of
  | .discard e _ | .stackify e _ | .localStore _ e | .destroy e _ _ | .memberLoad e _ _ _ _
  | .arrayLength e _ => by
      have : Yields (lowerExpr e) := ⟨fun U => lowerExpr_lowers U e⟩
      unfold lowerExpr
      exact .of
  | .knownArrayLoad d _ e | .unknownArrayLoad d _ e | .memberStore d _ _ _ e
  | .consumeKnownArray d _ e _ | .consumeUnknownArray d _ e _ => by
      have : Yields (lowerExpr d) := ⟨fun U => lowerExpr_lowers U d⟩
      have : Yields (lowerExpr e) := ⟨fun U => lowerExpr_lowers U e⟩
      unfold lowerExpr
      exact .of
  | .tabulate d e _ _ => by
      have : Yields (lowerExpr d) := ⟨fun U => lowerExpr_lowers U d⟩
      have : Yields (lowerExpr e) := ⟨fun U => lowerExpr_lowers U e⟩
      refine Emits.lowers (.after .require fun r => @Orderly.emits _ _ _ _ ?_)
      split <;> infer_instance
  | .upcast e _ struct interface => by
      have : Yields (lowerExpr e) := ⟨fun U => lowerExpr_lowers U e⟩
      refine Emits.lowers (.after .require fun r => .ite (fun _ => ?_) fun _ => ?_)
      · exact .after .require fun _ => .after .require fun _ => .violation
      exact (Yields.lowers U).arriving.use fun h =>
        Orderly.emits (x := upcasting h.value r.ownership struct interface)
  | .argument _ _ => Emits.lowers argument_emits
  | .ret source _ => (lowerExpr_lowers U source).arriving.useThen fun _ => ret_lowers (by simp)
  | .block [] => Emits.lowers .violation
  | .block (e :: es) => lowerSequence_lowers U (e :: es) none (by simp)
  | .ite cond thenBranch elseBranch _ =>
      (lowerExpr_lowers U cond).arriving.useThen fun _ => branching_lowers (by simp)
        (lowerExpr_lowers _ thenBranch).arriving (lowerExpr_lowers _ elseBranch).arriving
  | .loop cond body => Emits.lowers
      (looping_emits (lowerExpr_lowers U cond).arriving (lowerExpr_lowers U body).arriving)
  | .call _ args => Emits.lowers ((lowerExprs_lowers U args).bind (fun _ => useAll_uses.first)
      fun _ => Orderly.emits)
  | .externCall _ args => Emits.lowers ((lowerExprs_lowers U args).bind
      (fun _ => .later fun _ => callNative_uses.first) fun _ => Orderly.emits)
  | .newStruct sources _ => by
      refine Emits.lowers (.after .require fun r => .after quiet_structDef fun d => ?_)
      refine .ite (fun _ => .violation) fun _ => ?_
      exact (lowerExprs_lowers U sources).bind (fun _ => useAll_uses.first) fun _ => Orderly.emits
  | .newArray sources _ => by
      refine Emits.lowers (.after .require fun r => ?_)
      split
      on_goal 3 => exact .violation
      all_goals
        refine .ite (fun _ => .violation) fun _ => (lowerExprs_lowers U sources).bind ?_ fun _ => ?_
        · exact fun _ => .later fun _ => .later fun _ => storeElements_uses.first
        · exact Orderly.emits
  | .interfaceCall args virtualParam _ _ _ => by
      refine Emits.lowers (.after .require fun n => .after quiet_interfaceIndex fun i => ?_)
      refine .ite (fun _ => .violation) fun _ => ?_
      refine (lowerExprs_lowers U args).bind (fun rs => useAll_uses.first) fun rs => ?_
      refine Orderly.emits.bind fun xs env s r s' f hp hopen hrun => ?_
      obtain ⟨ref, href, h⟩ := require_then hrun
      have : Handed (Hands.operands xs ++ (Hands.operands rs ++ U)) ref :=
        ⟨given_of_mem (List.mem_append_left _ (List.mem_of_getElem? href))⟩
      exact Orderly.emits hp hopen h

/-- Expressions are lowered in order; the next one is only come to while control
goes on. -/
theorem lowerExprs_lowers (U : List Operand) : ∀ es : List Expr, LowersAll U (lowerExprs es)
  | [] => by
      intro env s rs s' f hp hopen hrun
      obtain ⟨rfl, rfl⟩ := pure_ok hrun
      obtain ⟨hg, hopen'⟩ := Grown.same (U := U) (V := operandsOf []) hp (.refl _) rfl hopen
        (by simp [operandsOf])
      exact ⟨f, hg, fun _ => hopen'⟩
  | e :: es => by
      intro env s rs s' f hp hopen hrun
      obtain ⟨r, s1, h1, h⟩ := bind_ok hrun
      obtain ⟨rs, s2, h2, h⟩ := bind_ok h
      obtain ⟨rfl, rfl⟩ := pure_ok h
      obtain ⟨f1, hg, hval⟩ := (lowerExpr_lowers U e).arriving hp hopen h1
      rcases lowerExprs_ok h2 hg.placed with ⟨rfl, rfl⟩ | hopen1
      · refine ⟨f1, ?_, fun hall => hval (hall r (by simp))⟩
        simpa [operandsOf] using hg
      · obtain ⟨f2, hg2, hval2⟩ := lowerExprs_lowers (r.operands ++ U) es hg.placed hopen1 h2
        refine ⟨f2, ?_, fun hall => hval2 fun r' hr' => hall r' (List.mem_cons_of_mem _ hr')⟩
        refine hg.trans hopen1 (hg2.keep fun v hv => ?_)
        rcases List.mem_append.mp hv with hv | hv
        · exact .inr (List.mem_append_left _ hv)
        · exact .inl hv

/-- A sequence gives the last value. -/
theorem lowerSequence_lowers (U : List Operand) :
    ∀ (es : List Expr) (last : Result), es ≠ [] → Lowers U (lowerSequence last es)
  | [], _, h => absurd rfl h
  | e :: es, _, _ => by
      intro env s r s' f hp hopen hrun
      obtain ⟨q, s1, h1, h⟩ := bind_ok hrun
      obtain ⟨f1, hg, hval⟩ := (lowerExpr_lowers U e).arriving hp hopen h1
      rcases lowerSequence_ok h hg.placed with ⟨rfl, rfl⟩ | ⟨hne, hopen1⟩
      · exact ⟨f1, hg, hval⟩
      · obtain ⟨f2, hg2, hval2⟩ := lowerSequence_lowers (q.operands ++ U)
          es q hne hg.placed hopen1 h
        exact ⟨f2, hg.trans hopen1 hg2, hval2⟩

end

end Tenure.Lowering
