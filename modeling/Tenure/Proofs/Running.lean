import Tenure.Interp.Run
import Tenure.Proofs.ControlFlow
import Tenure.Proofs.Storage
import Mathlib.Data.List.Forall2
import Mathlib.Logic.Relation
import Mathlib.Tactic.Common

/-!
# Running code

What a machine does while one function runs.  A `Call` is what stays the same
during that time: the machine but for its memory and output, the function, its
arguments and what waits below it.  A `World` is what changes.  `Call.here` is the
configuration at a place in the code, given by a block and a position in it, and
the lemmas of this file say where each instruction and each end of a block leads.

Statements about runs are made against a *goal*: a set of configurations that a
configuration belongs to as soon as its successor does.  A piece of code is
described by what has to be in the goal behind it for its start to be in the goal.
That way one description serves for runs that reach their end, for runs that
never go wrong and for runs that take at least a number of steps.
-/

namespace Tenure.Interp

open Ir (Operand Inst Term Func)

variable {p : Pointer} {y : Operand} {source : Option Nat}

/-! ## Steps -/

/-- A configuration is reached from another. -/
def Steps : Config → Config → Prop := Relation.ReflTransGen fun c c' => c.step = .inl c'

/-! ## Goals -/

/-- A set of configurations that is closed under going back a step, and that has
the configurations in which one of the allowed faults comes to a stack. -/
structure Goal (A : Fault → Prop) (rest : List Task) (G : Config → Prop) : Prop where
  back : ∀ c c', c.step = .inl c' → G c' → G c
  fault : ∀ m e, A e → G { machine := m, stack := rest, activity := .raise e }

variable {A : Fault → Prop} {rest : List Task} {G : Config → Prop}

theorem Goal.steps (hG : Goal A rest G) {c c' : Config} (h : Steps c c') (hc : G c') : G c := by
  induction h using Relation.ReflTransGen.head_induction_on with
  | refl => exact hc
  | head hstep _ ih => exact hG.back _ _ hstep ih

/-- A fault goes down through the frames. -/
theorem Goal.frame (hG : Goal A rest G) (f : Frame) : Goal A (.frame f :: rest) G where
  back := hG.back
  fault m e he := hG.back _ _ rfl (hG.fault (Config.dropFrame m f) e he)

theorem Goal.fault_frame (hG : Goal A rest G) {m : Machine} {f : Frame} {e : Fault} (he : A e) :
    G { machine := m, stack := .frame f :: rest, activity := .raise e } :=
  (hG.frame f).fault m e he

/-- The configurations that lead to one of a set. -/
def Reaching (P : Config → Prop) (c : Config) : Prop := ∃ c', Steps c c' ∧ P c'

theorem goal_reaching (P : Config → Prop) : Goal (fun _ => False) rest (Reaching P) where
  back c c' hstep := by
    rintro ⟨d, hd, hP⟩
    exact ⟨d, .head hstep hd, hP⟩
  fault _ _ he := he.elim

/-! ## Calls -/

/-- An active call: what stays the same while the code of its function runs. -/
structure Call where
  /-- the machine, but for memory and output -/
  machine : Machine
  func : Nat
  body : Func
  isBody : machine.code.funcs[func]? = some body
  args : Array Value
  /-- what waits for the call -/
  rest : List Task

/-- What changes while code runs. -/
structure World where
  memory : Memory
  output : Output
  regs : Std.HashMap Nat Value := {}
  /-- the stack objects that die with the call -/
  slots : List Nat := []

namespace Call

variable (C : Call)

/-- The code that runs. -/
def code : Code := C.machine.code

def machineIn (w : World) : Machine :=
  { C.machine with memory := w.memory, output := w.output }

def frame (b k : Nat) (w : World) : Frame :=
  { func := C.func, args := C.args, regs := w.regs, slots := w.slots, block := b,
    todo := (C.body.code b).drop k }

/-- The call is about to execute the instruction at a position of a block. -/
def here (b k : Nat) (w : World) : Config :=
  { machine := C.machineIn w, stack := .frame (C.frame b k w) :: C.rest, activity := .run }

/-- The call is on its way into a block. -/
def entering (source : Option Nat) (b k target : Nat) (w : World) : Config :=
  { machine := C.machineIn w, stack := .frame (C.frame b k w) :: C.rest,
    activity := .enter source target }

/-- The function under way gives a value: its stack objects die. -/
def leaving (w : World) (v : Value) : Config :=
  { machine := { C.machine with
      memory := w.slots.foldl Memory.kill w.memory, output := w.output
      depth := C.machine.depth - 1 }
    stack := C.rest, activity := .yield v }

theorem current_frame (b k : Nat) (w : World) : C.code.current (C.frame b k w) = C.body := by
  simp [Code.current, code, frame, C.isBody]

end Call

/-! ## The values of operands -/

/-- The value that an operand stands for, given the registers. -/
def Call.Means (C : Call) (regs : Std.HashMap Nat Value) : Operand → Value → Prop
  | .const c, v => ∀ m, evalConst C.code c m = .ok v m
  | .param i _, v => C.args[i]? = some v
  | .reg id _, v => regs[id]? = some v
  | .block _, _ => False

variable {C : Call} {w : World} {b k : Nat} {x : Operand} {v : Value}
variable {m : Memory}

theorem eval_of_means (h : C.Means w.regs x v) : eval C.code (C.frame b k w) x m = .ok v m := by
  cases x with
  | const c => exact h m
  | param i t | reg id t =>
    simp only [Call.Means] at h
    simp only [eval, Call.frame, h]
    rfl
  | block i => exact h.elim

theorem evalInt_of_means {n : Int64} (h : C.Means w.regs x (.int n)) :
    evalInt C.code (C.frame b k w) x m = .ok n m := by
  unfold evalInt
  rw [Access.bind_of_ok (eval_of_means h)]
  rfl

theorem evalPointer_of_means (h : C.Means w.regs x (.ptr p)) :
    evalPointer C.code (C.frame b k w) x m = .ok p m := by
  unfold evalPointer
  rw [Access.bind_of_ok (eval_of_means h)]
  rfl

/-! ## Instructions -/

theorem drop_of_has {F : Func} {i : Inst} (hi : F.Has b k i) :
    (F.code b).drop k = i :: (F.code b).drop (k + 1) := by
  obtain ⟨hlt, rfl⟩ := List.getElem?_eq_some_iff.mp hi
  exact List.drop_eq_getElem_cons hlt

section Instructions

variable {i : Inst} {m : Memory}

/-- The next instruction is executed. -/
theorem step_execute (hi : C.body.Has b k i) {r : EStateM.Result Fault Memory Effect}
    (hex : execute C.code (C.frame b k w) i.op w.memory = r) :
    (C.here b k w).step = .inl (match r with
      | .ok (.value v) m =>
          C.here b (k + 1) { w with memory := m, regs := w.regs.insert i.id v }
      | .ok (.slot p) m =>
          C.here b (k + 1) { w with
            memory := m, regs := w.regs.insert i.id (.ptr p)
            slots := match p.base with
              | .object id _ => id :: w.slots
              | _ => w.slots }
      | .ok .noValue m => C.here b (k + 1) { w with memory := m }
      | .ok (.call func args) m =>
          { machine := C.machineIn { w with memory := m }
            stack := .frame (C.frame b k w) :: C.rest, activity := .invoke func args }
      | .error e m =>
          { machine := C.machineIn { w with memory := m }
            stack := .frame (C.frame b k w) :: C.rest, activity := .raise e }) := by
  have htodo : (C.frame b k w).todo = i :: (C.body.code b).drop (k + 1) := drop_of_has hi
  change Sum.inl (Config.advance (C.machineIn w) (C.frame b k w) C.rest) = _
  unfold Config.advance
  rw [htodo]
  have hrun : (execute (C.machineIn w).code (C.frame b k w) i.op).run (C.machineIn w).memory = r :=
    hex
  simp only [Config.withAccess, hrun]
  rcases r with ⟨effect, m⟩ | ⟨e, m⟩
  · cases effect <;> rfl
  · rfl

theorem step_value (hi : C.body.Has b k i)
    (hex : execute C.code (C.frame b k w) i.op w.memory = .ok (.value v) m) :
    (C.here b k w).step =
      .inl (C.here b (k + 1) { w with memory := m, regs := w.regs.insert i.id v }) :=
  step_execute hi hex

theorem step_noValue (hi : C.body.Has b k i)
    (hex : execute C.code (C.frame b k w) i.op w.memory = .ok .noValue m) :
    (C.here b k w).step = .inl (C.here b (k + 1) { w with memory := m }) :=
  step_execute hi hex

theorem step_fault (hi : C.body.Has b k i) {e : Fault}
    (hex : execute C.code (C.frame b k w) i.op w.memory = .error e m) :
    (C.here b k w).step =
      .inl { machine := C.machineIn { w with memory := m }
             stack := .frame (C.frame b k w) :: C.rest, activity := .raise e } :=
  step_execute hi hex

variable {t : Ir.Ty} {vs : List Value} {n n1 n2 : Int64} {m' : Memory} {xs : List Operand}
variable {bits : Nat} {is : List Nat} {u : Value}

theorem step_call (hi : C.body.Has b k i) {func : Nat}
    (hex : execute C.code (C.frame b k w) i.op w.memory = .ok (.call func vs) m) :
    (C.here b k w).step =
      .inl { machine := C.machineIn { w with memory := m }
             stack := .frame (C.frame b k w) :: C.rest, activity := .invoke func vs } :=
  step_execute hi hex

/-- A value comes back from a call that an instruction made. -/
theorem step_deliver (hi : C.body.Has b k i) {w' : World} (hregs : w'.regs = w.regs)
    (hslots : w'.slots = w.slots) :
    Config.step { machine := C.machineIn w', stack := .frame (C.frame b k w) :: C.rest
                  activity := .yield v } =
      .inl (C.here b (k + 1) { w' with regs := w'.regs.insert i.id v }) := by
  have htodo : (C.frame b k w).todo = i :: (C.body.code b).drop (k + 1) := drop_of_has hi
  change Sum.inl (Config.deliver (C.machineIn w') (C.frame b k w) C.rest v) = _
  unfold Config.deliver
  rw [htodo]
  simp only [Call.here, Call.frame, Call.machineIn, hregs, hslots]

/-! ## What instructions do -/

variable {f : Frame}

theorem execute_alloca (hsize : sizeOf (t.expand C.code.types) = .ok n) :
    execute C.code f (.alloca t) m =
      .ok (.slot { base := .object m.objects.size .stack }) (m.add .stack n) := by
  simp only [execute, hsize]
  rfl

theorem execute_load (hx : C.Means w.regs x (.ptr p))
    (hload : load (t.expand C.code.types) p m = .ok v m') :
    execute C.code (C.frame b k w) (.load t x) m = .ok (.value v) m' := by
  simp only [execute]
  rw [Access.bind_of_ok (evalPointer_of_means hx), Access.bind_of_ok hload]
  rfl

theorem staticType_of_ne (h : x.ty ≠ .invalid) : staticType x m = .ok x.ty m := by
  unfold staticType
  generalize x.ty = t at h ⊢
  cases t with
  | invalid => exact absurd rfl h
  | _ => rfl

theorem execute_store (hty : x.ty ≠ .invalid) (hx : C.Means w.regs x v)
    (hy : C.Means w.regs y (.ptr p)) (hstore : store (x.ty.expand C.code.types) v p m = .ok () m') :
    execute C.code (C.frame b k w) (.store x y) m = .ok .noValue m' := by
  simp only [execute]
  rw [Access.bind_of_ok (staticType_of_ne hty), Access.bind_of_ok (eval_of_means hx),
    Access.bind_of_ok (evalPointer_of_means hy), Access.bind_of_ok hstore]
  rfl

theorem execute_gep {q : Pointer} {ns : List Int64} (hx : C.Means w.regs x (.ptr p))
    (hxs : List.Forall₂ (fun y n => C.Means w.regs y (.int n)) xs ns)
    (haddress : elementAddress (t.expand C.code.types) p ns = .ok q) :
    execute C.code (C.frame b k w) (.gep t x xs) m = .ok (.value (.ptr q)) m := by
  have hns : xs.mapM (evalInt C.code (C.frame b k w)) m = .ok ns m :=
    Access.mapM_of_forall₂ (hxs.imp fun _ _ h => evalInt_of_means h)
  simp only [execute]
  rw [Access.bind_of_ok hns, Access.bind_of_ok (evalPointer_of_means hx), haddress]
  rfl

theorem execute_call {i : Nat} {name : String} {o : Int64}
    (hx : C.Means w.regs x (.ptr ⟨.function i name, o⟩))
    (hxs : List.Forall₂ (C.Means w.regs) xs vs) :
    execute C.code (C.frame b k w) (.call x xs) m = .ok (.call i vs) m := by
  have hvs : xs.mapM (eval C.code (C.frame b k w)) m = .ok vs m :=
    Access.mapM_of_forall₂ (hxs.imp fun _ _ h => eval_of_means h)
  simp only [execute]
  rw [Access.bind_of_ok hvs, Access.bind_of_ok (evalPointer_of_means hx)]
  rfl

theorem execute_icmp {c : Ir.Comparison} (hty : x.ty = .int bits) (hx : C.Means w.regs x (.int n1))
    (hy : C.Means w.regs y (.int n2)) :
    execute C.code (C.frame b k w) (.icmp c x y) m =
      .ok (.value (truth (compareInts c bits n1 n2))) m := by
  simp only [execute]
  rw [Access.bind_of_ok (staticType_of_ne (by simp [hty])), Access.bind_of_ok (eval_of_means hx),
    Access.bind_of_ok (eval_of_means hy), hty]
  rfl

theorem execute_bin {op : Ir.BinOp} {apply : Int64 → Int64 → Except Fault Int64}
    (hop : wordOp op = some apply) (hty : x.ty = .int bits) (hx : C.Means w.regs x (.int n1))
    (hy : C.Means w.regs y (.int n2)) (happly : apply n1 n2 = .ok n) :
    execute C.code (C.frame b k w) (.bin op x y) m =
      .ok (.value (.int (canonical bits n))) m := by
  have hwidth : staticWidth x m = .ok bits m := by rw [staticWidth, hty]; rfl
  simp only [execute, hop]
  rw [Access.bind_of_ok hwidth, Access.bind_of_ok (evalInt_of_means hx),
    Access.bind_of_ok (evalInt_of_means hy), happly]
  rfl

theorem execute_bitcast (hx : C.Means w.regs x v) :
    execute C.code (C.frame b k w) (.cast .bitcast x t) m = .ok (.value v) m := by
  simp only [execute]
  rw [Access.bind_of_ok (eval_of_means hx)]
  rfl

theorem execute_extract (hx : C.Means w.regs x v) (hu : extract v is m = .ok u m) :
    execute C.code (C.frame b k w) (.extract x is) m = .ok (.value u) m := by
  simp only [execute]
  rw [Access.bind_of_ok (eval_of_means hx), Access.bind_of_ok hu]
  rfl

theorem execute_insert {r : Value} (hx : C.Means w.regs x v) (hy : C.Means w.regs y u)
    (hr : insert v u is m = .ok r m) :
    execute C.code (C.frame b k w) (.insert x y is) m = .ok (.value r) m := by
  simp only [execute]
  rw [Access.bind_of_ok (eval_of_means hx), Access.bind_of_ok (eval_of_means hy),
    Access.bind_of_ok hr]
  rfl

end Instructions

/-! ## Ends of blocks -/

section Blocks

variable {t e : Nat} {m : Memory}
variable {F : Func} {end' : Term} {f : Frame} {name : String} {is : List Inst}
variable {incoming : List (Operand × Operand)} {a : Nat}

theorem block_of_term? (h : F.term? b = some end') :
    ∃ block, F.blocks[b]? = some block ∧ block.term = some end' := by
  unfold Func.term? at h
  cases hb : F.blocks[b]? with
  | none => simp [hb] at h
  | some block => exact ⟨block, rfl, by simpa [hb] using h⟩

/-- All instructions of a block are done, and it is left. -/
theorem step_leave (hend : (C.body.code b).length ≤ k) (hterm : C.body.term? b = some end')
    {q : Exit}
    (hleave : ∀ name, leave C.code (C.frame b k w) name (some end') w.memory = .ok q w.memory) :
    (C.here b k w).step = .inl (match q with
      | .ret v => C.leaving w v
      | .jump target => C.entering (some b) b k target w) := by
  obtain ⟨block, hblock, hend'⟩ := block_of_term? hterm
  have htodo : (C.frame b k w).todo = [] := List.drop_eq_nil_of_le hend
  change Sum.inl (Config.advance (C.machineIn w) (C.frame b k w) C.rest) = _
  have hcurrent : (C.machineIn w).code.current (C.frame b k w) = C.body := C.current_frame b k w
  have hblock' : C.body.blocks[(C.frame b k w).block]? = some block := hblock
  unfold Config.advance
  rw [htodo, hcurrent]
  simp only [hblock', hend']
  have hrun : (leave (C.machineIn w).code (C.frame b k w) (Ir.knownName block.name)
      (some end')).run (C.machineIn w).memory = .ok q w.memory := hleave _
  simp only [Config.withAccess, hrun]
  cases q <;> rfl

theorem step_br (hend : (C.body.code b).length ≤ k)
    (hterm : C.body.term? b = some (.br (.block t))) :
    (C.here b k w).step = .inl (C.entering (some b) b k t w) :=
  step_leave hend hterm fun _ => rfl

theorem step_condBr (hend : (C.body.code b).length ≤ k)
    (hterm : C.body.term? b = some (.condBr x (.block t) (.block e))) {n : Int64}
    (hx : C.Means w.regs x (.int n)) :
    (C.here b k w).step = .inl (C.entering (some b) b k (if n ≠ 0 then t else e) w) := by
  refine step_leave hend hterm (q := .jump (if n ≠ 0 then t else e)) fun name => ?_
  simp only [leave]
  rw [Access.bind_of_ok (evalInt_of_means hx)]
  split <;> rfl

theorem step_ret_none (hend : (C.body.code b).length ≤ k)
    (hterm : C.body.term? b = some (.ret none)) :
    (C.here b k w).step = .inl (C.leaving w .nothing) :=
  step_leave hend hterm fun _ => rfl

/-! ## Beginnings of blocks -/

theorem code_of_block {block : Ir.Block} (h : F.blocks[b]? = some block) :
    F.code b = block.insts.toList := by
  simp [Func.code, h]

/-- A block is entered once the values of its phis are known. -/
theorem step_enter (hlt : t < C.body.blocks.size)
    {l : List (Nat × Value)}
    (hphis : ∀ name, phiValues C.code (C.frame b k w) source name (C.body.code t) w.memory =
      .ok l w.memory) :
    (C.entering source b k t w).step = .inl (C.here t 0 { w with
      regs := l.foldl (fun regs (id, v) => regs.insert id v) w.regs }) := by
  have hblock : C.body.blocks[t]? = some C.body.blocks[t] := Array.getElem?_eq_getElem hlt
  have hcurrent : (C.machineIn w).code.current (C.frame b k w) = C.body := C.current_frame b k w
  change Sum.inl (Config.enterBlock (C.machineIn w) (C.frame b k w) C.rest source t) = _
  unfold Config.enterBlock
  rw [hcurrent, hblock]
  have hrun : (phiValues (C.machineIn w).code (C.frame b k w) source
      (Ir.knownName C.body.blocks[t].name) C.body.blocks[t].insts.toList).run
        (C.machineIn w).memory = .ok l w.memory := by
    rw [← code_of_block hblock]
    exact hphis _
  simp only [Config.withAccess, hrun]
  simp only [Call.here, Call.frame, Call.machineIn, List.drop_zero, code_of_block hblock]

theorem phiValues_plain (hplain : ∀ i ∈ is.head?, i.op.incoming? = none) :
    phiValues C.code f source name is m = .ok [] m := by
  cases is with
  | nil => rfl
  | cons i is =>
    have hi : i.op.incoming? = none := hplain i rfl
    obtain ⟨id, label, ty, op⟩ := i
    cases op with
    | phi incoming => cases hi
    | _ => rfl

/-- A block that has no phis. -/
theorem step_enter_plain (hlt : t < C.body.blocks.size)
    (hplain : ∀ i ∈ (C.body.code t).head?, i.op.incoming? = none) :
    (C.entering source b k t w).step = .inl (C.here t 0 w) := by
  exact step_enter hlt fun _ => phiValues_plain hplain

theorem targetBlock_block : targetBlock C.code f (.block t) m = .ok t m := rfl

/-- A phi takes the value that comes with the block control came from. -/
theorem incomingValue_of_mem (hnodup : (incoming.map (·.2)).Nodup)
    (hblocks : ∀ p ∈ incoming, ∃ a, p.2 = .block a) (hmem : (x, .block a) ∈ incoming)
    (hx : C.Means w.regs x v) :
    incomingValue C.code (C.frame b k w) (some a) name incoming m = .ok v m := by
  induction incoming with
  | nil => exact absurd hmem (by simp)
  | cons p rest ih =>
    obtain ⟨y, source⟩ := p
    obtain ⟨a', rfl⟩ := hblocks (y, source) (by simp)
    unfold incomingValue
    rw [Access.bind_of_ok targetBlock_block]
    rw [List.map_cons, List.nodup_cons] at hnodup
    rcases List.mem_cons.mp hmem with heq | hrest
    · injection heq with hxy hblock
      injection hblock with haa
      rw [if_pos (congrArg some haa), ← hxy]
      exact eval_of_means hx
    · have hne : some a ≠ some a' := by
        rintro heq
        obtain rfl := Option.some.inj heq
        exact hnodup.1 (List.mem_map.mpr ⟨(x, .block a), hrest, rfl⟩)
      rw [if_neg hne]
      exact ih hnodup.2 (fun p hp => hblocks p (List.mem_cons_of_mem _ hp)) hrest

/-- A block whose only phi stands at its head; the phi itself does nothing more. -/
theorem steps_enter_phi (hlt : t < C.body.blocks.size) {i : Inst} (hcode : C.body.code t = i :: is)
    (hi : i.op = .phi incoming) (hplain : ∀ j ∈ is.head?, j.op.incoming? = none)
    (hnodup : (incoming.map (·.2)).Nodup) (hblocks : ∀ p ∈ incoming, ∃ a, p.2 = .block a)
    (hmem : (x, .block a) ∈ incoming) (hx : C.Means w.regs x v) :
    Steps (C.entering (some a) b k t w)
      (C.here t 1 { w with regs := w.regs.insert i.id v }) := by
  have henter : (C.entering (some a) b k t w).step =
      .inl (C.here t 0 { w with regs := w.regs.insert i.id v }) := by
    refine step_enter (l := [(i.id, v)]) hlt fun name => ?_
    rw [hcode]
    unfold phiValues
    rw [hi]
    simp only
    rw [Access.bind_of_ok (incomingValue_of_mem hnodup hblocks hmem hx)]
    rw [Access.bind_of_ok (phiValues_plain hplain)]
    rfl
  have hphi : (C.here t 0 { w with regs := w.regs.insert i.id v }).step =
      .inl (C.here t 1 { w with regs := w.regs.insert i.id v }) := by
    refine step_noValue (i := i) ?_ ?_
    · rw [Func.Has, hcode]
      rfl
    · rw [hi]
      rfl
  exact .head henter (.single hphi)

end Blocks

/-! ## Calls of functions -/

section Invoking

variable {M : Machine} {stack : List Task} {i : Nat} {args : List Value} {F : Func}

/-- The call that a function with a body begins. -/
def Call.ofInvoke (M : Machine) (stack : List Task) (i : Nat) (args : List Value) (F : Func)
    (hF : M.code.funcs[i]? = some F) : Call where
  machine := { M with depth := M.depth + 1 }
  func := i
  body := F
  isBody := hF
  args := args.toArray
  rest := stack

theorem steps_invoke (hF : M.code.funcs[i]? = some F) (hbody : 0 < F.blocks.size)
    (hargs : args.length = F.params.length) (hdepth : M.depth + 1 ≤ maxDepth)
    (hplain : ∀ j ∈ (F.code 0).head?, j.op.incoming? = none) :
    Steps { machine := M, stack, activity := .invoke i args }
      ((Call.ofInvoke M stack i args F hF).here 0 0
        { memory := M.memory, output := M.output }) := by
  have hinvoke : Config.step { machine := M, stack, activity := .invoke i args } =
      .inl ((Call.ofInvoke M stack i args F hF).entering none 0 (F.code 0).length 0
        { memory := M.memory, output := M.output }) := by
    change Sum.inl (Config.invoke M stack i args) = _
    have hne : F.blocks.isEmpty = false := by
      rw [Array.isEmpty_eq_false_iff_exists_mem]
      exact ⟨F.blocks[0], Array.getElem_mem _⟩
    unfold Config.invoke
    simp only [hF, hne, hargs]
    simp only [Bool.false_eq_true, ne_eq, not_true, if_false, Int.not_lt.mpr hdepth]
    simp [Call.entering, Call.frame, Call.machineIn, Call.ofInvoke]
  exact .head hinvoke (.single (step_enter_plain hbody hplain))

/-- A function that is only declared is looked up among the registered ones, then
in the runtime. -/
theorem step_invoke_declared (hF : M.code.funcs[i]? = some F) (hbody : F.blocks = #[]) :
    Config.step { machine := M, stack, activity := .invoke i args } =
      .inl (Config.invokeDeclared M stack (M.code.funcName i) args) := by
  change Sum.inl (Config.invoke M stack i args) = _
  unfold Config.invoke
  simp only [hF, hbody]
  rfl

end Invoking

end Tenure.Interp
