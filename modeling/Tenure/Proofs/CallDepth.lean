import Tenure.Proofs.Histories

/-!
# The depth of calls

A machine counts the calls under way and refuses to go deeper than a limit.  The
count starts anew with every call from outside, and a call that a registered function
makes is one from outside too.  So the count is the number of active frames as long
as registered functions do not call back; then no more frames than the limit are ever
active, and a call that would be one too many ends the run.  Once a registered function
calls back, the count says nothing about the number of active frames, and there is no
limit to it.
-/

namespace Tenure.Interp

/-- A registered function that does not call back. -/
inductive Native.Direct : Native → Prop
  | done (v : Value) : Direct (.done v)
  | fail (e : ExecError) : Direct (.fail e)
  | crash : Direct .crash
  | write (bytes : ByteArray) {next : Option ExecError → Native} (h : ∀ e, Direct (next e)) :
      Direct (.write bytes next)

/-- No registered function calls back. -/
def IsDirect (m : Machine) : Prop := ∀ p ∈ m.natives, ∀ args, (p.2 args).Direct

namespace Config

/-- The count of calls is right, unless an error is on its way out. -/
structure Counted (c : Config) : Prop where
  direct : IsDirect c.machine
  native : ∀ n, c.activity = .native n → n.Direct
  frames : ∀ t ∈ c.stack, ∃ f, t = .frame f
  depth : (∀ e, c.activity ≠ .raise e) → c.machine.depth = c.height
  bound : c.height ≤ maxDepth

variable {c c' : Config} {m : Machine} {f : Frame} {rest stack : List Task}

/-- An access leads on, or to an error. -/
theorem withAccess_cases {α : Type} {x : Access α} {next : Machine → α → Config}
    {P : Config → Prop} (hok : ∀ memory a, P (next { m with memory } a))
    (herror : ∀ memory e, P ⟨{ m with memory }, stack, .raise e⟩) :
    P (withAccess m stack x next) := by
  cases h : x m.memory with
  | ok a memory =>
    rw [withAccess_of_ok h]
    exact hok memory a
  | error e memory =>
    rw [withAccess_of_error h]
    exact herror memory e

/-- A step that keeps the stack, up to what the frames hold. -/
theorem Counted.same (h : c.Counted) (hactive : ∀ e, c.activity ≠ .raise e)
    (hdirect : c'.machine.natives = c.machine.natives) (hdepth : c'.machine.depth = c.machine.depth)
    (hframes : ∀ t ∈ c'.stack, ∃ f, t = .frame f) (hheight : c'.height = c.height)
    (hnative : ∀ n, c'.activity = .native n → n.Direct) : c'.Counted where
  direct := by
    rw [IsDirect, hdirect]
    exact h.direct
  native := hnative
  frames := hframes
  depth _ := by
    rw [hdepth, hheight]
    exact h.depth hactive
  bound := by
    rw [hheight]
    exact h.bound

variable {i : Nat} {a a' : Activity} {args : List Value}

/-- A step that writes to memory only. -/
theorem Counted.still {memory : Memory} (h : Counted ⟨m, stack, a⟩) (hactive : ∀ e, a ≠ .raise e)
    (ha' : ∀ n, a' ≠ .native n) : Counted ⟨{ m with memory }, stack, a'⟩ :=
  h.same hactive rfl rfl h.frames rfl fun n hn => absurd hn (ha' n)

/-- A frame ends. -/
theorem Counted.pop {m' : Machine} (h : Counted ⟨m, .frame f :: rest, a⟩)
    (hactive : (∀ e, a' ≠ .raise e) → ∀ e, a ≠ .raise e) (hnatives : m'.natives = m.natives)
    (hdepth : m'.depth = m.depth) (ha' : ∀ n, a' ≠ .native n) :
    Counted ⟨dropFrame m' f, rest, a'⟩ where
  direct := by
    rw [IsDirect]
    change ∀ p ∈ m'.natives, _
    rw [hnatives]
    exact h.direct
  native n hn := absurd hn (ha' n)
  frames t ht := h.frames t (List.mem_cons_of_mem _ ht)
  depth hraise := by
    have hcount : m.depth = (height ⟨m, rest, a⟩ + 1 : Nat) := h.depth (hactive hraise)
    show m'.depth - 1 = (height ⟨m, rest, a⟩ : Nat)
    rw [hdepth, hcount]
    omega
  bound := by
    have hbound : ((height ⟨m, rest, a⟩ + 1 : Nat) : Int) ≤ maxDepth := h.bound
    show ((height ⟨m, rest, a⟩ : Nat) : Int) ≤ maxDepth
    omega

theorem frames_cons (h : ∀ t ∈ Task.frame f :: rest, ∃ f, t = .frame f) (f' : Frame) :
    ∀ t ∈ Task.frame f' :: rest, ∃ f, t = .frame f := by
  intro t ht
  rcases List.mem_cons.mp ht with rfl | ht
  · exact ⟨f', rfl⟩
  · exact h t (List.mem_cons_of_mem _ ht)

theorem Counted.enterBlock {pred : Option Nat} (h : Counted ⟨m, .frame f :: rest, .enter pred i⟩) :
    (enterBlock m f rest pred i).Counted := by
  unfold Config.enterBlock
  split
  · exact h.still (by simp) (by simp)
  · exact withAccess_cases
      (fun memory values => h.same (by simp) rfl rfl (frames_cons h.frames _) rfl (by simp))
      (fun memory e => h.still (by simp) (by simp))

theorem Counted.advance (h : Counted ⟨m, .frame f :: rest, .run⟩) : (advance m f rest).Counted := by
  unfold Config.advance
  split
  · split
    · exact h.still (by simp) (by simp)
    · refine withAccess_cases (fun memory exit => ?_)
        (fun memory e => h.still (by simp) (by simp))
      cases exit with
      | ret v => exact h.pop (by simp) rfl rfl (by simp)
      | jump target => exact h.still (by simp) (by simp)
  · refine withAccess_cases (fun memory effect => ?_)
      (fun memory e => h.still (by simp) (by simp))
    cases effect with
    | value | slot | noValue =>
      exact h.same (by simp) rfl rfl (frames_cons h.frames _) rfl (by simp)
    | call func args => exact h.still (by simp) (by simp)

theorem Counted.invokeDeclared {name : String} (h : Counted ⟨m, stack, .invoke i args⟩) :
    (invokeDeclared m stack name args).Counted := by
  unfold Config.invokeDeclared
  split
  · next native hfind =>
    refine h.same (by simp) rfl rfl h.frames rfl fun n hn => ?_
    obtain rfl := Activity.native.inj hn
    exact h.direct _ (List.mem_of_find?_eq_some hfind) args
  · split
    · exact h.still (by simp) (by simp)
    · refine withAccess_cases (fun memory effect => ?_)
        (fun memory e => h.still (by simp) (by simp))
      cases effect with
      | value => exact h.same (by simp) rfl rfl h.frames rfl (by simp)
      | write bytes =>
        refine h.same (by simp) rfl rfl h.frames rfl fun n hn => ?_
        cases hrefused : (m.output.write bytes).2 <;> simp [hrefused] at hn

/-- The one place where the count goes up, and is compared with the limit. -/
theorem Counted.invoke (h : Counted ⟨m, stack, .invoke i args⟩) :
    (invoke m stack i args).Counted := by
  have hcount : m.depth = (height ⟨m, stack, .invoke i args⟩ : Nat) := h.depth (by simp)
  unfold Config.invoke
  split
  · exact h.still (by simp) (by simp)
  · dsimp only
    split
    · exact h.invokeDeclared
    · split
      · exact h.still (by simp) (by simp)
      · split
        · -- the error goes out with a count that is one too high
          exact ⟨h.direct, by simp, h.frames, fun hraise => absurd rfl (hraise _), h.bound⟩
        · next hdeep =>
          refine ⟨h.direct, by simp, fun t ht => ?_, fun _ => ?_, ?_⟩
          · rcases List.mem_cons.mp ht with rfl | ht
            · exact ⟨_, rfl⟩
            · exact h.frames t ht
          · show m.depth + 1 = (height ⟨m, stack, .invoke i args⟩ + 1 : Nat)
            rw [hcount]
            rfl
          · show ((height ⟨m, stack, .invoke i args⟩ + 1 : Nat) : Int) ≤ maxDepth
            omega

/-- One step keeps the count right. -/
theorem Counted.step (h : c.Counted) (hstep : c.step = .inl c') : c'.Counted := by
  obtain ⟨m, stack, activity⟩ := c
  cases activity with
  | invoke i args =>
    obtain rfl : Config.invoke m stack i args = c' := Sum.inl.inj hstep
    exact h.invoke
  | native n =>
    cases h.native n rfl with
    | done | fail | crash =>
      obtain rfl := Sum.inl.inj hstep
      exact h.still (by simp) (by simp)
    | write bytes hnext =>
      obtain rfl := Sum.inl.inj hstep
      refine h.same (by simp) rfl rfl h.frames rfl fun n hn => ?_
      obtain rfl := Activity.native.inj hn
      exact hnext _
  | enter pred i =>
    match stack with
    | .frame f :: rest =>
      obtain rfl : Config.enterBlock m f rest pred i = c' := Sum.inl.inj hstep
      exact h.enterBlock
    | [] | .waiting _ :: _ =>
      obtain rfl := Sum.inl.inj hstep
      exact h.still (by simp) (by simp)
  | run =>
    match stack with
    | .frame f :: rest =>
      obtain rfl : Config.advance m f rest = c' := Sum.inl.inj hstep
      exact h.advance
    | [] | .waiting _ :: _ =>
      obtain rfl := Sum.inl.inj hstep
      exact h.still (by simp) (by simp)
  | yield v =>
    match stack with
    | [] => cases hstep
    | .waiting next :: rest =>
      obtain ⟨f, hf⟩ := h.frames (.waiting next) (List.mem_cons_self ..)
      cases hf
    | .frame f :: rest =>
      obtain rfl : deliver m f rest v = c' := Sum.inl.inj hstep
      unfold deliver
      split
      · exact h.still (by simp) (by simp)
      · exact h.same (by simp) rfl rfl (frames_cons h.frames _) rfl (by simp)
  | raise e =>
    match stack with
    | [] => cases hstep
    | .waiting next :: rest =>
      obtain ⟨f, hf⟩ := h.frames (.waiting next) (List.mem_cons_self ..)
      cases hf
    | .frame f :: rest =>
      obtain rfl : ⟨dropFrame m f, rest, .raise e⟩ = c' := Sum.inl.inj hstep
      exact h.pop (fun hraise => absurd rfl (hraise e)) rfl rfl (by simp)

end Config

/-! ## Along a history -/

/-- The count of calls is right at a moment. -/
def Moment.Counted : Moment → Prop
  | .idle m => IsDirect m
  | .busy c => c.Counted

theorem IsDirect.register {m : Machine} (h : IsDirect m) {name : String}
    {native : List Value → Native} (hnative : ∀ args, (native args).Direct) :
    IsDirect (m.register name native) := by
  intro p hp
  rcases List.mem_cons.mp hp with rfl | hp
  · exact hnative
  · exact h p hp

theorem Moment.Counted.next {w w' : Moment} {e : Option Event} (hw : w.Counted)
    (h : w.Next Native.Direct e w') : w'.Counted := by
  cases h with
  | register m name native hnative => exact IsDirect.register hw hnative
  | registerDuring c name native hnative =>
    exact ⟨IsDirect.register hw.direct hnative, hw.native, hw.frames, hw.depth, hw.bound⟩
  | call m name args c h =>
    obtain ⟨i, -, rfl⟩ := Option.map_eq_some_iff.mp h
    have hzero : ((0 : Nat) : Int) ≤ maxDepth := by decide
    exact ⟨hw, by simp, by simp, fun _ => rfl, hzero⟩
  | step c c' h => exact Config.Counted.step hw h
  | finish c m r h =>
    obtain ⟨-, rfl⟩ := Config.step_finish h
    exact Config.Counted.direct hw

theorem History.counted {code : Code} {log : List Event} {w : Moment}
    (h : History Native.Direct code log w) : w.Counted := by
  obtain ⟨_, m, hm, hlead⟩ := h
  have hnew : m.natives = [] := by
    unfold Machine.new at hm
    dsimp only at hm
    split at hm
    · rw [← Except.ok.inj hm]
    · cases hm
  induction hlead with
  | refl =>
    intro p hp
    rw [hnew] at hp
    cases hp
  | next _ hnext ih => exact ih.next hnext

/-- An error that no registered function can catch ends the run. -/
theorem Config.run_raise {stack : List Task} (hstack : ∀ t ∈ stack, ∃ f, t = .frame f)
    (m : Machine) (e : Fault) :
    ∃ m', Config.run (stack.length + 1) ⟨m, stack, .raise e⟩ = some (m', .error e) := by
  induction stack generalizing m with
  | nil => exact ⟨m, rfl⟩
  | cons t rest ih =>
    obtain ⟨f, rfl⟩ := hstack t (List.mem_cons_self ..)
    exact ih (fun t ht => hstack t (List.mem_cons_of_mem _ ht)) (dropFrame m f)

/-- If no registered function calls back, the count is the number of active frames
whenever a body starts, there are never more of them than the limit, and a call that
would be one too many ends the run with the error for it. -/
theorem History.calls_bounded {code : Code} {log : List Event} {c : Config}
    (h : History Native.Direct code log (.busy c)) :
    (c.activity = .enter none 0 → c.machine.depth = c.height) ∧ c.height ≤ maxDepth ∧
      ∀ i args fn, c.activity = .invoke i args → c.machine.code.funcs[i]? = some fn →
        fn.blocks.isEmpty = false → args.length = fn.params.length → c.height = maxDepth →
          ∃ steps m, c.run steps =
            some (m, .error (.error (.tooDeep (c.machine.code.funcName i)))) := by
  have hcounted : c.Counted := h.counted
  refine ⟨fun hstart => hcounted.depth (by simp [hstart]), hcounted.bound, ?_⟩
  intro i args fn hactivity hfn hbody hargs hfull
  obtain ⟨m, stack, activity⟩ := c
  obtain rfl : activity = .invoke i args := hactivity
  have hdepth : m.depth = maxDepth := (hcounted.depth (by simp)).trans hfull
  have hraise : Config.invoke m stack i args = ⟨{ m with depth := m.depth + 1 }, stack,
      .raise (.error (.tooDeep (m.code.funcName i)))⟩ := by
    unfold Config.invoke
    simp only at hfn
    rw [hfn]
    dsimp only
    rw [if_neg (by simp [hbody]), if_neg (by simp [hargs]), if_pos (by rw [hdepth]; omega)]
  obtain ⟨m', hrun⟩ := Config.run_raise hcounted.frames { m with depth := m.depth + 1 }
    (.error (.tooDeep (m.code.funcName i)))
  refine ⟨stack.length + 2, m', ?_⟩
  have hstep : Config.step ⟨m, stack, .invoke i args⟩ = .inl (Config.invoke m stack i args) := rfl
  rw [Config.run, hstep, hraise]
  exact hrun

/-! ## A function that is called back -/

namespace CallBack

/-- A function that calls a registered one. -/
def code : Code where
  funcs := #[⟨"hook", .void, [], #[], false, 0, 0⟩,
    { name := "f"
      result := .void
      params := []
      blocks := #[{
        name := "entry"
        insts := #[⟨0, "", .void, .call (.const (.func 0 (.func .void []))) []⟩]
        term := some (.ret none) }] }]

/-- Calls the function that called it. -/
def hook (_ : List Value) : Native := .call "f" [] fun _ => .done .nothing

/-- The machine while its function is at work. -/
def machine : Machine := { code, depth := 1, natives := [("hook", hook)] }

/-- A frame at its start. -/
def fresh : Frame := { func := 1, args := #[] }

/-- The machine at the start of the body, with something below. -/
def start (rest : List Task) : Config := ⟨machine, .frame fresh :: rest, .enter none 0⟩

/-- The frame while it calls the registered function. -/
def calling : Frame :=
  { fresh with todo := [⟨0, "", .void, .call (.const (.func 0 (.func .void []))) []⟩] }

def wait : Task := .waiting fun _ => .done .nothing

/-- A moment that can be reached. -/
def Reached (c : Config) : Prop := ∃ log, History (fun _ => True) code log (.busy c)

theorem Reached.step {c c' : Config} (h : Reached c) (hstep : c.step = .inl c') : Reached c' := by
  obtain ⟨log, output, m, hm, hlead⟩ := h
  exact ⟨_, output, m, hm, .next hlead (.step c c' hstep)⟩

theorem reached_start : Reached (start []) := by
  have hcall : Reached ⟨{ machine with depth := 0 }, [], .invoke 1 []⟩ := by
    refine ⟨_, {}, { code }, rfl, .next (.next .refl (.register _ "hook" hook fun _ => trivial))
      (.call _ "f" [] _ rfl)⟩
  exact hcall.step rfl

/-- The function calls the registered one, which calls the function again: its body
starts once more, with the same count and one more frame below. -/
theorem reached_again {rest : List Task} (h : Reached (start rest)) :
    Reached (start (wait :: .frame calling :: rest)) := by
  have hrun : Reached ⟨machine, .frame calling :: rest, .run⟩ := h.step rfl
  have hcall : Reached ⟨machine, .frame calling :: rest, .invoke 0 []⟩ := hrun.step rfl
  have hhook : Reached ⟨machine, .frame calling :: rest, .native (hook [])⟩ := hcall.step rfl
  have hback : Reached ⟨{ machine with depth := 0 }, wait :: .frame calling :: rest,
      .invoke 1 []⟩ := hhook.step rfl
  exact hback.step rfl

theorem reached_height (n : Nat) : ∃ rest, Reached (start rest) ∧ (start rest).height = n + 1 := by
  induction n with
  | zero => exact ⟨[], reached_start, rfl⟩
  | succ n ih =>
    obtain ⟨rest, hrest, hheight⟩ := ih
    refine ⟨wait :: .frame calling :: rest, reached_again hrest, ?_⟩
    have hmore : (start (wait :: .frame calling :: rest)).height = (start rest).height + 1 := rfl
    rw [hmore, hheight]

end CallBack

open CallBack in
/-- The same function, with a registered one that just returns. -/
theorem History.calls_bounded_returning : ∃ log c,
    History Native.Direct code log (.busy c) ∧ c.activity = .enter none 0 ∧
      c.machine.depth = c.height ∧ c.height = 1 := by
  have hdirect : ∀ args, Native.Direct ((fun _ => .done .nothing) args : Native) :=
    fun (_ : List Value) => .done _
  have hhistory : History Native.Direct code _ (.busy ⟨{ machine with
      natives := [("hook", fun _ => .done .nothing)] }, [.frame fresh], .enter none 0⟩) :=
    ⟨{}, { code }, rfl, .next (.next (.next .refl (.register _ "hook" _ hdirect))
      (.call _ "f" [] _ rfl)) (.step _ _ rfl)⟩
  obtain ⟨hdepth, -⟩ := History.calls_bounded hhistory
  exact ⟨_, _, hhistory, rfl, hdepth rfl, rfl⟩

open CallBack in
/-- With a registered function that calls back, a body can start with any number of
frames below, while the count of calls is one. -/
theorem History.calls_unbounded : ∃ code, ∀ n : Nat, ∃ log c,
    History (fun _ => True) code log (.busy c) ∧ c.activity = .enter none 0 ∧
      c.machine.depth = 1 ∧ c.height = n + 1 := by
  refine ⟨code, fun n => ?_⟩
  obtain ⟨rest, ⟨log, hlog⟩, hheight⟩ := reached_height n
  exact ⟨log, start rest, hlog, rfl, rfl, hheight⟩

end Tenure.Interp
