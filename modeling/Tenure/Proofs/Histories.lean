import Tenure.Proofs.Outlines
import Tenure.Proofs.Storage

/-!
# Histories of a machine

A machine lives through calls from outside, one after the other, and through the
steps that each of them takes; functions may be registered at any time.  A history
is such a course of events from the making of the machine on.  It keeps a log of
what was asked of the runtime and of frames that ended, as an observer sees it who
knows the calls and their answers but not the memory.

What a step does to the objects of memory is said once, about a ledger: the outline
of memory, and the stack slots of every active frame.  A step leaves the ledger as
it is or makes one entry in it.
-/

namespace Tenure.Interp


variable {Allowed : Native → Prop} {todo : List Ir.Inst}

/-! ## The log -/

/-- What a log records.  The height of a frame is the number of active frames with
it and below it. -/
inductive Event where
  /-- the runtime has answered a request for memory with an object -/
  | malloc (id : Nat)
  /-- the runtime has accepted an object back -/
  | free (id : Nat)
  /-- a frame has made a stack slot -/
  | slot (id height : Nat)
  /-- a frame has ended, by a return or on the way out of an error -/
  | leave (height : Nat)
deriving DecidableEq

def Task.frame? : Task → Option Frame
  | .frame f => some f
  | .waiting _ => none

namespace Config

/-- The active frames, the latest first. -/
def frames (c : Config) : List Frame := c.stack.filterMap Task.frame?

/-- The number of active frames. -/
def height (c : Config) : Nat := c.frames.length

/-- The function of the runtime that is being called, and what with. -/
def builtin? (c : Config) : Option (String × List Value) :=
  match c.activity with
  | .invoke i args =>
      let name := c.machine.code.funcName i
      if (c.machine.code.funcs[i]?.any (·.blocks.isEmpty)) ∧
          (c.machine.natives.find? (·.1 == name)).isNone then some (name, args)
      else none
  | _ => none

/-- The stack slot that is being made. -/
def slot? (c : Config) : Option Nat :=
  match c.activity, c.stack with
  | .run, .frame f :: _ =>
      match f.todo with
      | [] => none
      | i :: _ =>
          match execute c.machine.code f i.op c.machine.memory with
          | .ok (.slot ⟨.object id _, _⟩) _ => some id
          | _ => none
  | _, _ => none

/-- What the next step adds to the log. -/
def event? (c : Config) : Option Event :=
  match c.step with
  | .inr _ => none
  | .inl c' =>
      if c'.height < c.height then some (.leave c.height)
      else
        match c.builtin?, c'.activity with
        | some ("malloc", _), .yield (.ptr ⟨.object id _, _⟩) => some (.malloc id)
        | some ("free", .ptr ⟨.object id _, _⟩ :: _), .yield _ => some (.free id)
        | some _, _ => none
        | none, _ => c.slot?.map (.slot · c.height)

end Config

/-! ## Histories -/

/-- A machine at a moment: between calls from outside, or during one. -/
inductive Moment where
  | idle (m : Machine)
  | busy (c : Config)

namespace Moment

def memory : Moment → Memory
  | idle m => m.memory
  | busy c => c.machine.memory

/-- The active frames, the latest first. -/
def frames : Moment → List Frame
  | idle _ => []
  | busy c => c.frames

/-- What can come next, with what it adds to the log.  Registered functions are of
a kind that is given; one may be registered at any time, so also by another one. -/
inductive Next (Allowed : Native → Prop) : Moment → Option Event → Moment → Prop
  | register (m : Machine) (name : String) (native : List Value → Native)
      (h : ∀ args, Allowed (native args)) :
      Next Allowed (.idle m) none (.idle (m.register name native))
  | registerDuring (c : Config) (name : String) (native : List Value → Native)
      (h : ∀ args, Allowed (native args)) :
      Next Allowed (.busy c) none (.busy { c with machine := c.machine.register name native })
  | call (m : Machine) (name : String) (args : List Value) (c : Config)
      (h : m.enter name args [] = some c) : Next Allowed (.idle m) none (.busy c)
  | step (c c' : Config) (h : c.step = .inl c') : Next Allowed (.busy c) c.event? (.busy c')
  | finish (c : Config) (m : Machine) (r : Except Fault Value) (h : c.step = .inr (m, r)) :
      Next Allowed (.busy c) none (.idle m)

/-- From one moment to a later one, with what is logged on the way, the latest
first. -/
inductive Leads (Allowed : Native → Prop) (w : Moment) : List Event → Moment → Prop
  | refl : Leads Allowed w [] w
  | next {es : List Event} {w' w'' : Moment} {e : Option Event} (h : Leads Allowed w es w')
      (h' : Next Allowed w' e w'') : Leads Allowed w (e.toList ++ es) w''

theorem Leads.trans {w w' w'' : Moment} {log log' : List Event}
    (h : Leads Allowed w log w') (h' : Leads Allowed w' log' w'') :
    Leads Allowed w (log' ++ log) w'' := by
  induction h' with
  | refl => exact h
  | next _ hnext ih =>
    rw [List.append_assoc]
    exact .next ih hnext

end Moment

/-- A moment in the life of a machine for a module, with the log up to it. -/
def History (Allowed : Native → Prop) (code : Code) (log : List Event) (w : Moment) : Prop :=
  ∃ output m, Machine.new code output = .ok m ∧ Moment.Leads Allowed (.idle m) log w

variable {log : List Event} {steps : Nat} {code : Code} {w w' : Moment} {m : Machine}
variable {calls : List (String × List Value)}

theorem History.append {log' : List Event} (h : History Allowed code log w)
    (h' : Moment.Leads Allowed w log' w') : History Allowed code (log' ++ log) w' := by
  obtain ⟨output, m, hm, hlead⟩ := h
  exact ⟨output, m, hm, hlead.trans h'⟩

/-- Follows a call to its end, for at most a number of steps, with what is logged on
the way. -/
def Config.trace : Nat → Config → Option (List Event × Machine)
  | 0, _ => none
  | steps + 1, c =>
      match c.step with
      | .inl c' => (c'.trace steps).map fun r => (r.1 ++ c.event?.toList, r.2)
      | .inr (m, _) => some ([], m)

/-- Makes calls from outside one after the other. -/
def Moment.play (steps : Nat) : Machine → List (String × List Value) → Option (List Event × Machine)
  | m, [] => some ([], m)
  | m, (name, args) :: calls =>
      (m.enter name args []).bind fun c =>
        (c.trace steps).bind fun r =>
          (play steps r.2 calls).map fun r' => (r'.1 ++ r.1, r'.2)

/-- The outline of memory, and the stack slots of the active frames, the latest
frame first. -/
structure Ledger where
  memory : Memory
  frames : List (List Nat)

/-- What a step can do to a ledger, and what it logs. -/
inductive Ledger.Step : Ledger → Option Event → Ledger → Prop
  | quiet (l : Ledger) : Step l none l
  | enter (m : Memory) (fs : List (List Nat)) : Step ⟨m, fs⟩ none ⟨m, [] :: fs⟩
  | leave (m : Memory) (slots : List Nat) (fs : List (List Nat)) :
      Step ⟨m, slots :: fs⟩ (some (.leave (fs.length + 1))) ⟨slots.foldl Memory.kill m, fs⟩
  | slot (m : Memory) (slots : List Nat) (fs : List (List Nat)) (size : Int64) :
      Step ⟨m, slots :: fs⟩ (some (.slot m.objects.size (fs.length + 1)))
        ⟨m.add .stack size, (m.objects.size :: slots) :: fs⟩
  | malloc (m : Memory) (fs : List (List Nat)) (size : Int64) :
      Step ⟨m, fs⟩ (some (.malloc m.objects.size)) ⟨m.add .heap size, fs⟩
  | free (m : Memory) (fs : List (List Nat)) (id : Nat) (o : Object)
      (ho : m.objects[id]? = some o) (hregion : o.region = .heap) (hdead : o.dead = false) :
      Step ⟨m, fs⟩ (some (.free id)) ⟨m.release id, fs⟩

def Moment.ledger (w : Moment) : Ledger := ⟨w.memory.outline, w.frames.map (·.slots)⟩

namespace Config

variable {c c' : Config} {m : Machine} {f : Frame} {rest stack : List Task}

def ledger (c : Config) : Ledger := (Moment.busy c).ledger

variable {a : Activity} {α : Type} {memory : Memory} {x : Access α} {next : Machine → α → Config}

@[simp] theorem frames_mk_frame : frames ⟨m, .frame f :: rest, a⟩ = f :: frames ⟨m, rest, a⟩ := rfl

@[simp] theorem frames_mk_waiting {next : Except ExecError Value → Native} :
    frames ⟨m, .waiting next :: rest, a⟩ = frames ⟨m, rest, a⟩ := rfl

/-- Only the stack counts. -/
theorem frames_congr (h : c'.stack = c.stack) : c'.frames = c.frames := by
  rw [frames, h, frames]

/-- A step that is no call to the runtime, makes no stack slot and ends no frame
logs nothing. -/
theorem event?_quiet (h : c.step = .inl c') (hheight : c.height ≤ c'.height)
    (hbuiltin : c.builtin? = none) (hslot : c.slot? = none) : c.event? = none := by
  simp [event?, h, Nat.not_lt.mpr hheight, hbuiltin, hslot]

theorem event?_leave (h : c.step = .inl c') (hheight : c'.height < c.height) :
    c.event? = some (.leave c.height) := by
  simp [event?, h, hheight]

theorem builtin?_of_ne (h : ∀ i args, c.activity ≠ .invoke i args) : c.builtin? = none := by
  unfold builtin?
  split
  · next i args heq => exact absurd heq (h i args)
  · rfl

theorem slot?_of_ne (h : c.activity ≠ .run) : c.slot? = none := by
  unfold slot?
  split
  · next heq _ => exact absurd heq h
  · rfl

/-- The step from one configuration to another, as the ledger sees it. -/
def Records (c c' : Config) : Prop := Ledger.Step c.ledger c.event? c'.ledger

theorem Records.of {e : Option Event} (he : c.event? = e) (h : Ledger.Step c.ledger e c'.ledger) :
    Records c c' := by
  rwa [Records, he]

/-- A step after which the ledger is the same. -/
theorem ledgerStep_quiet (h : c.step = .inl c') (hl : c'.ledger = c.ledger)
    (hbuiltin : c.builtin? = none) (hslot : c.slot? = none) : Records c c' := by
  have hheight : c'.height = c.height := by
    have hframes := congrArg (·.frames.length) hl
    simpa [ledger, Moment.ledger, Moment.frames, height] using hframes
  refine .of (event?_quiet h (Nat.le_of_eq hheight.symm) hbuiltin hslot) ?_
  rw [hl]
  exact .quiet _

/-- The same of one that is neither a call nor in the middle of a block. -/
theorem ledgerStep_still (h : c.step = .inl c') (hl : c'.ledger = c.ledger)
    (hinvoke : ∀ i args, c.activity ≠ .invoke i args) (hrun : c.activity ≠ .run) : Records c c' :=
  ledgerStep_quiet h hl (builtin?_of_ne hinvoke) (slot?_of_ne hrun)

/-- A frame ends. -/
theorem ledgerStep_leave {a' : Activity} {m' : Machine}
    (h : step ⟨m, .frame f :: rest, a⟩ = .inl ⟨dropFrame m' f, rest, a'⟩)
    (hm : m'.memory.outline = m.memory.outline) :
    Records ⟨m, .frame f :: rest, a⟩ ⟨dropFrame m' f, rest, a'⟩ := by
  have hframes : frames ⟨dropFrame m' f, rest, a'⟩ = frames ⟨m, rest, a⟩ := frames_congr rfl
  have hmemory : (dropFrame m' f).memory.outline = f.slots.foldl Memory.kill m.memory.outline := by
    rw [dropFrame, Memory.outline_killAll, hm]
  have hl' : ledger ⟨dropFrame m' f, rest, a'⟩ =
      ⟨f.slots.foldl Memory.kill m.memory.outline, (frames ⟨m, rest, a⟩).map (·.slots)⟩ := by
    simp only [ledger, Moment.ledger, Moment.memory, Moment.frames, hmemory, hframes]
  have hl : ledger ⟨m, .frame f :: rest, a⟩ =
      ⟨m.memory.outline, f.slots :: (frames ⟨m, rest, a⟩).map (·.slots)⟩ := rfl
  have hheight : height ⟨m, .frame f :: rest, a⟩ =
      ((frames ⟨m, rest, a⟩).map (·.slots)).length + 1 := by
    simp [height]
  refine .of (event?_leave h (by simp [height, hframes])) ?_
  rw [hl, hl', hheight]
  exact .leave _ _ _

/-- The ledger does not depend on registers and places, and not on contents. -/
theorem ledger_eq (hm : c'.machine.memory.outline = c.machine.memory.outline)
    (hf : c'.frames.map (·.slots) = c.frames.map (·.slots)) : c'.ledger = c.ledger := by
  simp only [ledger, Moment.ledger, Moment.memory, Moment.frames, hm, hf]

theorem withAccess_of_ok {a : α} (h : x m.memory = .ok a memory) :
    withAccess m stack x next = next { m with memory } a := by
  simp only [withAccess, EStateM.run]
  rw [h]

theorem withAccess_of_error {e : Fault} (h : x m.memory = .error e memory) :
    withAccess m stack x next = ⟨{ m with memory }, stack, .raise e⟩ := by
  simp only [withAccess, EStateM.run]
  rw [h]

/-- What an access that keeps the outline leads to. -/
theorem withAccess_mild (hx : Mild x) {P : Config → Prop}
    (hok : ∀ memory a, memory.outline = m.memory.outline → x m.memory = .ok a memory →
      P (next { m with memory } a))
    (herror : ∀ memory e, memory.outline = m.memory.outline → x m.memory = .error e memory →
      P ⟨{ m with memory }, stack, .raise e⟩) : P (withAccess m stack x next) := by
  cases h : x m.memory with
  | ok a memory =>
    rw [withAccess_of_ok h]
    exact hok memory a (hx.of_ok h) h
  | error e memory =>
    rw [withAccess_of_error h]
    exact herror memory e (hx.of_error h) h

/-! ### Blocks -/

theorem ledgerStep_enterBlock {pred : Option Nat} {i : Nat} :
    Records ⟨m, .frame f :: rest, .enter pred i⟩ (enterBlock m f rest pred i) := by
  have hstep : step ⟨m, .frame f :: rest, .enter pred i⟩ = .inl (enterBlock m f rest pred i) := rfl
  refine ledgerStep_still hstep ?_ nofun nofun
  unfold enterBlock
  split
  · exact ledger_eq rfl rfl
  · exact withAccess_mild (P := fun c' => c'.ledger = ledger ⟨m, .frame f :: rest, .enter pred i⟩)
      keeps_phiValues (fun memory values hm _ => ledger_eq hm rfl)
      (fun memory e hm _ => ledger_eq hm rfl)

/-! ### Instructions -/

end Config

/-- A stack slot is a new object, unless its type has no size. -/
theorem execute_slot (code : Code) (f : Frame) (t : Ir.Ty) (m : Memory) :
    (∃ size, execute code f (.alloca t) m =
      .ok (.slot { base := .object m.objects.size .stack }) (m.add .stack size)) ∨
    ∃ e, execute code f (.alloca t) m = .error e m := by
  cases hsize : sizeOf (t.expand code.types) with
  | ok size =>
    refine .inl ⟨size, ?_⟩
    simp only [execute]
    rw [hsize]
    rfl
  | error e =>
    refine .inr ⟨e, ?_⟩
    simp only [execute]
    rw [hsize]
    rfl

namespace Config

variable {c' : Config} {m : Machine} {f : Frame} {rest stack : List Task}

theorem builtin?_run : builtin? ⟨m, stack, .run⟩ = none := builtin?_of_ne (by simp)

variable {i : Ir.Inst}

theorem slot?_next (ht : f.todo = i :: todo) :
    slot? ⟨m, .frame f :: rest, .run⟩ =
      match execute m.code f i.op m.memory with
      | .ok (.slot ⟨.object id _, _⟩) _ => some id
      | _ => none := by
  simp only [slot?, ht]

/-- An instruction that makes no stack slot. -/
theorem ledgerStep_execute (ht : f.todo = i :: todo) (hop : ∀ t, i.op ≠ .alloca t) :
    Records ⟨m, .frame f :: rest, .run⟩ (advance m f rest) := by
  have hstep : step ⟨m, .frame f :: rest, .run⟩ = .inl (advance m f rest) := rfl
  have hexecute : Slotless (execute m.code f i.op) := slotless_execute hop
  have hslot : slot? ⟨m, .frame f :: rest, .run⟩ = none := by
    rw [slot?_next ht]
    split
    · next heq => exact (hexecute.2 heq).elim
    · rfl
  refine ledgerStep_quiet hstep ?_ builtin?_run hslot
  unfold advance
  rw [ht]
  refine withAccess_mild (P := fun c' => c'.ledger = ledger ⟨m, .frame f :: rest, .run⟩)
    hexecute.1 (fun memory effect hm hx => ?_) (fun memory e hm _ => ledger_eq hm rfl)
  cases effect with
  | value v | noValue | call func args => exact ledger_eq hm rfl
  | slot p => exact (hexecute.2 hx).elim

/-- The instruction that makes a stack slot. -/
theorem ledgerStep_alloca {t : Ir.Ty} (ht : f.todo = i :: todo) (hop : i.op = .alloca t) :
    Records ⟨m, .frame f :: rest, .run⟩ (advance m f rest) := by
  have hstep : step ⟨m, .frame f :: rest, .run⟩ = .inl (advance m f rest) := rfl
  have hslot : slot? ⟨m, .frame f :: rest, .run⟩ = _ := slot?_next ht
  rw [hop] at hslot
  rcases execute_slot m.code f t m.memory with ⟨size, hx⟩ | ⟨e, hx⟩
  · rw [hx] at hslot
    have hadvance : advance m f rest = ⟨{ m with memory := m.memory.add .stack size },
        .frame { f with
          regs := f.regs.insert i.id (.ptr { base := .object m.memory.objects.size .stack })
          slots := m.memory.objects.size :: f.slots
          todo } :: rest, .run⟩ := by
      simp only [advance, ht, hop]
      rw [withAccess_of_ok hx]
    have hlow : ¬ height (advance m f rest) < height ⟨m, .frame f :: rest, .run⟩ := by
      rw [hadvance]
      simp [height, frames, Task.frame?]
    have hevent : event? ⟨m, .frame f :: rest, .run⟩ =
        some (.slot m.memory.objects.size (height ⟨m, .frame f :: rest, .run⟩)) := by
      simp [event?, hstep, hlow, builtin?_run, hslot]
    have hl := Ledger.Step.slot m.memory.outline f.slots
      ((frames ⟨m, rest, .run⟩).map (·.slots)) size
    rw [Memory.size_outline, ← Memory.outline_add, List.length_map] at hl
    refine .of hevent ?_
    rw [hadvance]
    exact hl
  · rw [hx] at hslot
    refine ledgerStep_quiet hstep ?_ builtin?_run hslot
    have hadvance : advance m f rest = ⟨m, .frame f :: rest, .raise e⟩ := by
      simp only [advance, ht, hop]
      rw [withAccess_of_error hx]
    rw [hadvance]
    rfl

/-- The end of a block. -/
theorem ledgerStep_end (ht : f.todo = []) :
    Records ⟨m, .frame f :: rest, .run⟩ (advance m f rest) := by
  have hstep : step ⟨m, .frame f :: rest, .run⟩ = .inl (advance m f rest) := rfl
  have hslot : slot? ⟨m, .frame f :: rest, .run⟩ = none := by simp only [slot?, ht]
  revert hstep
  unfold advance
  rw [ht]
  dsimp only
  split
  · exact fun hstep => ledgerStep_quiet hstep rfl builtin?_run hslot
  · refine withAccess_mild (P := fun c' => step ⟨m, .frame f :: rest, .run⟩ = .inl c' →
      Records ⟨m, .frame f :: rest, .run⟩ c') keeps_leave
      (fun memory exit hm _ => ?_) (fun memory e hm _ hstep => ?_)
    · cases exit with
      | ret v => exact fun hstep => ledgerStep_leave hstep hm
      | jump target =>
        exact fun hstep => ledgerStep_quiet hstep (ledger_eq hm rfl) builtin?_run hslot
    · exact ledgerStep_quiet hstep (ledger_eq hm rfl) builtin?_run hslot

theorem ledgerStep_advance : Records ⟨m, .frame f :: rest, .run⟩ (advance m f rest) := by
  cases ht : f.todo with
  | nil => exact ledgerStep_end ht
  | cons i todo =>
    by_cases hop : ∃ t, i.op = .alloca t
    · obtain ⟨t, hop⟩ := hop
      exact ledgerStep_alloca ht hop
    · exact ledgerStep_execute ht fun t h => hop ⟨t, h⟩

end Config

/-! ### The runtime -/

/-- A request for memory is answered with a new object, or refused. -/
theorem runtime_malloc (args : List Value) (m : Memory) :
    ∃ x, runtime "malloc" args = some x ∧
      ((∃ size, x m = .ok (.value (.ptr { base := .object m.objects.size .heap }))
          (m.add .heap size)) ∨
        ∃ e, x m = .error e m) := by
  refine ⟨_, rfl, ?_⟩
  cases args with
  | nil => exact .inr ⟨_, rfl⟩
  | cons v vs =>
    cases v with
    | int size =>
      by_cases hsize : size < 0
      · refine .inr ⟨.error (.negativeAllocation size.toInt), ?_⟩
        change (if size < 0 then _ else _ : Access RuntimeEffect) m = _
        rw [if_pos hsize]
        rfl
      · refine .inl ⟨size, ?_⟩
        change (if size < 0 then _ else _ : Access RuntimeEffect) m = _
        rw [if_neg hsize]
        rfl
    | _ => exact .inr ⟨_, rfl⟩

/-- What freeing makes of a pointer into an object. -/
theorem free_object (id : Nat) (region : Region) (offset : Int64) (m : Memory) :
    free ⟨.object id region, offset⟩ m =
      (match m.objects[id]?.map fun o => (o.region, o.dead) with
      | none => Access.crash
      | some (region', dead) =>
        if region' ≠ .heap then Access.raise
          (.freeOfNonHeap (Pointer.text ⟨.object id region, offset⟩))
        else if dead then Access.raise (.doubleFree (Pointer.text ⟨.object id region, offset⟩))
        else if offset ≠ 0 then
          Access.raise (.freeOfInterior (Pointer.text ⟨.object id region, offset⟩))
        else modify (·.release id) : Access Unit) m :=
  rfl

/-- Freeing fails, or does nothing to null, or ends a heap object that is not dead. -/
theorem free_cases (p : Pointer) (m : Memory) :
    (∃ e, free p m = .error e m) ∨ (p.base = .null ∧ free p m = .ok () m) ∨
      ∃ id region o, p = ⟨.object id region, 0⟩ ∧ m.objects[id]? = some o ∧ o.region = .heap ∧
        o.dead = false ∧ free p m = .ok () (m.release id) := by
  obtain ⟨base, offset⟩ := p
  cases base with
  | null => exact .inr (.inl ⟨rfl, rfl⟩)
  | function i name => exact .inl ⟨_, rfl⟩
  | object id region =>
    have hfree := free_object id region offset m
    cases ho : m.objects[id]? with
    | none =>
      rw [ho] at hfree
      exact .inl ⟨_, hfree⟩
    | some o =>
      rw [ho, Option.map_some] at hfree
      dsimp only at hfree
      by_cases hregion : o.region = .heap
      · rw [if_neg (not_not.mpr hregion)] at hfree
        cases hdead : o.dead with
        | true =>
          rw [if_pos hdead] at hfree
          exact .inl ⟨_, hfree⟩
        | false =>
          rw [if_neg (by simp [hdead])] at hfree
          by_cases hoffset : offset = 0
          · rw [if_neg (not_not.mpr hoffset)] at hfree
            subst hoffset
            exact .inr (.inr ⟨id, region, o, rfl, ho, hregion, hdead, hfree⟩)
          · rw [if_pos hoffset] at hfree
            exact .inl ⟨_, hfree⟩
      · rw [if_pos hregion] at hfree
        exact .inl ⟨_, hfree⟩

/-- The same of a call to the runtime. -/
theorem runtime_free (args : List Value) (m : Memory) :
    ∃ x, runtime "free" args = some x ∧
      ((∃ e, x m = .error e m) ∨
        (∃ offset vs, args = .ptr ⟨.null, offset⟩ :: vs ∧ x m = .ok (.value .nothing) m) ∨
        ∃ id region vs o, args = .ptr ⟨.object id region, 0⟩ :: vs ∧ m.objects[id]? = some o ∧
          o.region = .heap ∧ o.dead = false ∧ x m = .ok (.value .nothing) (m.release id)) := by
  refine ⟨_, rfl, ?_⟩
  cases args with
  | nil => exact .inl ⟨_, rfl⟩
  | cons v vs =>
    cases v with
    | ptr p =>
      change (∃ e, (free p >>= fun _ => pure (.value .nothing) : Access RuntimeEffect) m = _) ∨
        (∃ offset ws, _ ∧
          (free p >>= fun _ => pure (.value .nothing) : Access RuntimeEffect) m = _) ∨
        ∃ id region ws o, _ ∧ _ ∧ _ ∧ _ ∧
          (free p >>= fun _ => pure (.value .nothing) : Access RuntimeEffect) m = _
      rcases free_cases p m with ⟨e, h⟩ | ⟨hnull, h⟩ | ⟨id, region, o, rfl, ho, hregion, hdead, h⟩
      · exact .inl ⟨e, Access.bind_of_error h⟩
      · refine .inr (.inl ⟨p.offset, vs, ?_, Access.bind_of_ok h⟩)
        rw [← hnull]
      · exact .inr (.inr ⟨id, region, vs, o, rfl, ho, hregion, hdead, Access.bind_of_ok h⟩)
    | _ => exact .inl ⟨_, rfl⟩

namespace Config

variable {c c' : Config} {m : Machine} {f : Frame} {rest stack : List Task}

section Builtins

variable {i : Nat} {args : List Value} {name : String}

/-- A call to the runtime that fails and changes nothing. -/
theorem ledgerStep_refused {e : Fault}
    (hstep : step ⟨m, stack, .invoke i args⟩ = .inl ⟨m, stack, .raise e⟩)
    (hbuiltin : builtin? ⟨m, stack, .invoke i args⟩ = some (name, args)) :
    Records ⟨m, stack, .invoke i args⟩ ⟨m, stack, .raise e⟩ := by
  have hevent : event? ⟨m, stack, .invoke i args⟩ = none := by
    simp [event?, hstep, hbuiltin, height, frames]
  exact .of hevent (.quiet _)

/-- A call to the runtime that is not about the heap logs nothing. -/
theorem ledgerStep_other (hstep : c.step = .inl c') (hbuiltin : c.builtin? = some (name, args))
    (hmalloc : name ≠ "malloc") (hfree : name ≠ "free") (hl : c'.ledger = c.ledger) :
    Records c c' := by
  have hheight : ¬ c'.height < c.height := by
    have hframes := congrArg (·.frames.length) hl
    simp only [ledger, Moment.ledger, Moment.frames, List.length_map] at hframes
    rw [height, height, hframes]
    exact Nat.lt_irrefl _
  have hevent : c.event? = none := by
    simp only [event?, hstep, if_neg hheight, hbuiltin]
    split
    · next heq _ => exact absurd (congrArg Prod.fst (Option.some.inj heq)) hmalloc
    · next heq _ => exact absurd (congrArg Prod.fst (Option.some.inj heq)) hfree
    · rfl
    · next heq => cases heq
  refine .of hevent ?_
  rw [hl]
  exact .quiet _

/-- What comes of the answer of the runtime. -/
def answered (stack : List Task) (m : Machine) : RuntimeEffect → Config
  | .value v => ⟨m, stack, .yield v⟩
  | .write bytes => ⟨{ m with output := (m.output.write bytes).1 }, stack,
      match (m.output.write bytes).2 with
      | none => .yield .nothing
      | some e => .raise (.error e)⟩

theorem invokeDeclared_runtime {x : Access RuntimeEffect}
    (hfind : m.natives.find? (·.1 == name) = none) (hx : runtime name args = some x) :
    invokeDeclared m stack name args = withAccess m stack x (answered stack) := by
  simp only [invokeDeclared, hfind, hx]
  rfl

theorem ledgerStep_malloc
    (hstep : step ⟨m, stack, .invoke i args⟩ = .inl (invokeDeclared m stack "malloc" args))
    (hfind : m.natives.find? (·.1 == "malloc") = none)
    (hbuiltin : builtin? ⟨m, stack, .invoke i args⟩ = some ("malloc", args)) :
    Records ⟨m, stack, .invoke i args⟩ (invokeDeclared m stack "malloc" args) := by
  obtain ⟨x, hruntime, ⟨size, hx⟩ | ⟨e, hx⟩⟩ := runtime_malloc args m.memory
  · rw [invokeDeclared_runtime hfind hruntime, withAccess_of_ok hx] at hstep ⊢
    have hevent : event? ⟨m, stack, .invoke i args⟩ = some (.malloc m.memory.objects.size) := by
      simp [event?, hstep, hbuiltin, height, frames, answered]
    have hl := Ledger.Step.malloc m.memory.outline
      ((stack.filterMap Task.frame?).map (·.slots)) size
    rw [Memory.size_outline, ← Memory.outline_add] at hl
    exact .of hevent hl
  · rw [invokeDeclared_runtime hfind hruntime, withAccess_of_error hx] at hstep ⊢
    exact ledgerStep_refused hstep hbuiltin

theorem ledgerStep_free
    (hstep : step ⟨m, stack, .invoke i args⟩ = .inl (invokeDeclared m stack "free" args))
    (hfind : m.natives.find? (·.1 == "free") = none)
    (hbuiltin : builtin? ⟨m, stack, .invoke i args⟩ = some ("free", args)) :
    Records ⟨m, stack, .invoke i args⟩ (invokeDeclared m stack "free" args) := by
  obtain ⟨x, hruntime, ⟨e, hx⟩ | ⟨offset, vs, rfl, hx⟩ |
    ⟨id, region, vs, o, rfl, ho, hregion, hdead, hx⟩⟩ := runtime_free args m.memory
  · rw [invokeDeclared_runtime hfind hruntime, withAccess_of_error hx] at hstep ⊢
    exact ledgerStep_refused hstep hbuiltin
  · rw [invokeDeclared_runtime hfind hruntime, withAccess_of_ok hx] at hstep ⊢
    have hevent : event? ⟨m, stack, .invoke i (.ptr ⟨.null, offset⟩ :: vs)⟩ = none := by
      simp [event?, hstep, hbuiltin, height, frames, answered]
    exact .of hevent (.quiet _)
  · rw [invokeDeclared_runtime hfind hruntime, withAccess_of_ok hx] at hstep ⊢
    have hevent : event? ⟨m, stack, .invoke i (.ptr ⟨.object id region, 0⟩ :: vs)⟩ =
        some (.free id) := by
      simp [event?, hstep, hbuiltin, height, frames, answered]
    have hl := Ledger.Step.free m.memory.outline
      ((stack.filterMap Task.frame?).map (·.slots)) id o.outline
      (by rw [Memory.getElem?_outline, ho]; rfl) hregion hdead
    rw [← Memory.outline_release] at hl
    exact .of hevent hl

/-- The step that calls a function that the module only declares. -/
theorem ledgerStep_invokeDeclared (hname : name = m.code.funcName i)
    (hstep : step ⟨m, stack, .invoke i args⟩ = .inl (invokeDeclared m stack name args))
    (hdeclared : m.code.funcs[i]?.any (·.blocks.isEmpty) = true) :
    Records ⟨m, stack, .invoke i args⟩ (invokeDeclared m stack name args) := by
  cases hfind : m.natives.find? (·.1 == name) with
  | some native =>
    have hanswer : invokeDeclared m stack name args =
        ⟨m, stack, .native (native.2 args)⟩ := by
      simp only [invokeDeclared, hfind]
    rw [hanswer] at hstep ⊢
    refine ledgerStep_quiet hstep rfl ?_ (slot?_of_ne (by simp))
    simp [builtin?, ← hname, hfind]
  | none =>
    have hbuiltin : builtin? ⟨m, stack, .invoke i args⟩ = some (name, args) := by
      simp [builtin?, ← hname, hfind, hdeclared]
    by_cases hmalloc : name = "malloc"
    · rw [hmalloc] at hstep hfind hbuiltin ⊢
      exact ledgerStep_malloc hstep hfind hbuiltin
    by_cases hfree : name = "free"
    · rw [hfree] at hstep hfind hbuiltin ⊢
      exact ledgerStep_free hstep hfind hbuiltin
    refine ledgerStep_other hstep hbuiltin hmalloc hfree ?_
    cases hruntime : runtime name args with
    | none =>
      simp only [invokeDeclared, hfind, hruntime]
      rfl
    | some x =>
      rw [invokeDeclared_runtime hfind hruntime]
      refine withAccess_mild (P := fun c' => c'.ledger = ledger ⟨m, stack, .invoke i args⟩)
        (mild_runtime hruntime hmalloc hfree) (fun memory effect hm _ => ?_)
        (fun memory e hm _ => ledger_eq hm rfl)
      cases effect with
      | value v | write bytes => exact ledger_eq hm rfl

theorem ledgerStep_invoke : Records ⟨m, stack, .invoke i args⟩ (invoke m stack i args) := by
  have hstep : step ⟨m, stack, .invoke i args⟩ = .inl (invoke m stack i args) := rfl
  have hslot : slot? ⟨m, stack, .invoke i args⟩ = none := slot?_of_ne (by simp)
  revert hstep
  unfold invoke
  cases hfn : m.code.funcs[i]? with
  | none =>
    intro hstep
    exact ledgerStep_quiet hstep rfl (by simp [builtin?, hfn]) hslot
  | some fn =>
    dsimp only
    by_cases hempty : fn.blocks.isEmpty
    · rw [if_pos hempty]
      exact fun hstep => ledgerStep_invokeDeclared rfl hstep (by simp [hfn, hempty])
    · have hbuiltin : builtin? ⟨m, stack, .invoke i args⟩ = none := by
        simp [builtin?, hfn, hempty]
      rw [if_neg hempty]
      split
      · exact fun hstep => ledgerStep_quiet hstep rfl hbuiltin hslot
      · split
        · exact fun hstep => ledgerStep_quiet hstep rfl hbuiltin hslot
        · intro hstep
          have hheight := event?_quiet hstep (by simp [height, frames, Task.frame?]) hbuiltin hslot
          exact .of hheight (.enter _ _)

end Builtins

/-- What a step does to the ledger, and what it logs. -/
theorem step_ledger (h : c.step = .inl c') : Records c c' := by
  obtain ⟨m, stack, activity⟩ := c
  cases activity with
  | invoke i args =>
    obtain rfl : invoke m stack i args = c' := Sum.inl.inj h
    exact ledgerStep_invoke
  | native n =>
    refine ledgerStep_still h ?_ nofun nofun
    cases n with
    | done v | fail e | crash | write bytes next =>
      cases h
      rfl
    | call name args next =>
      simp only [step, Machine.enter] at h
      cases hname : m.function? name with
      | none | some i =>
        rw [hname] at h
        cases h
        rfl
  | enter pred i =>
    match stack with
    | .frame f :: rest =>
      obtain rfl : enterBlock m f rest pred i = c' := Sum.inl.inj h
      exact ledgerStep_enterBlock
    | [] | .waiting _ :: _ =>
      refine ledgerStep_still h ?_ nofun nofun
      cases h
      rfl
  | run =>
    match stack with
    | .frame f :: rest =>
      obtain rfl : advance m f rest = c' := Sum.inl.inj h
      exact ledgerStep_advance
    | [] | .waiting _ :: _ =>
      refine ledgerStep_quiet h ?_ builtin?_run rfl
      cases h
      rfl
  | yield v =>
    match stack with
    | [] => cases h
    | .waiting next :: rest =>
      refine ledgerStep_still h ?_ nofun nofun
      cases h
      rfl
    | .frame f :: rest =>
      refine ledgerStep_still h ?_ nofun nofun
      obtain rfl : deliver m f rest v = c' := Sum.inl.inj h
      unfold deliver
      split <;> rfl
  | raise e =>
    match stack with
    | [] => cases h
    | .frame f :: rest =>
      obtain rfl : ⟨dropFrame m f, rest, .raise e⟩ = c' := Sum.inl.inj h
      exact ledgerStep_leave h rfl
    | .waiting next :: rest =>
      refine ledgerStep_still h ?_ nofun nofun
      cases e with
      | error e | crash =>
        cases h
        rfl

/-- A run ends only once nothing is left on the stack. -/
theorem step_finish {r : Except Fault Value} (h : c.step = .inr (m, r)) :
    c.stack = [] ∧ c.machine = m := by
  obtain ⟨m', stack, activity⟩ := c
  cases activity with
  | invoke i args => cases h
  | native n =>
    cases n with
    | done v | fail e | crash | write bytes next => cases h
    | call name args next =>
      simp only [step] at h
      split at h <;> cases h
  | enter pred i | run =>
    match stack with
    | .frame f :: rest | [] | .waiting _ :: _ => cases h
  | yield v =>
    match stack with
    | .frame f :: rest | .waiting _ :: _ => cases h
    | [] => exact ⟨rfl, congrArg Prod.fst (Sum.inr.inj h)⟩
  | raise e =>
    match stack with
    | [] => exact ⟨rfl, congrArg Prod.fst (Sum.inr.inj h)⟩
    | .frame f :: rest => cases h
    | .waiting next :: rest => cases e <;> cases h

end Config

/-- What comes next, as the ledger sees it. -/
theorem Moment.Next.ledger {e : Option Event} (h : w.Next Allowed e w') :
    Ledger.Step w.ledger e w'.ledger := by
  cases h with
  | register | registerDuring => exact .quiet _
  | call m name args c h =>
    obtain ⟨i, -, rfl⟩ := Option.map_eq_some_iff.mp h
    exact .quiet _
  | step c c' h => exact Config.step_ledger h
  | finish c m r h =>
    obtain ⟨hstack, rfl⟩ := Config.step_finish h
    have hframes : c.frames = [] := by rw [Config.frames, hstack, List.filterMap_nil]
    have hl : (Moment.busy c).ledger = (Moment.idle c.machine).ledger := by
      simp only [Moment.ledger, Moment.memory, Moment.frames, hframes]
    rw [hl]
    exact .quiet _

end Tenure.Interp
