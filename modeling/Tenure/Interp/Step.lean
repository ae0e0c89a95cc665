import Tenure.Interp.Eval
import Tenure.Interp.Strings

/-!
# Steps

A machine runs with a stack of its own, one small step at a time.  Functions
that the module only declares belong to the runtime or are registered from
outside; a registered one may call back into the machine.
-/

namespace Tenure.Interp

open Ir (Operand Inst Op Term)

/-- What a registered function does: it ends, or does something and goes on. -/
inductive Native where
  | done (v : Value)
  | fail (e : ExecError)
  | crash
  | write (bytes : ByteArray) (next : Option ExecError → Native)
  /-- calls a function of the machine from the start, as a caller outside would -/
  | call (name : String) (args : List Value) (next : Except ExecError Value → Native)

/-- How a writer answers to bytes after those that it has taken: not at all if it
takes them, and otherwise with the number that it still takes and an error. -/
abbrev Writer := ByteArray → ByteArray → Option (Nat × String)

/-- What was written. -/
structure Output where
  bytes : ByteArray := .empty
  writer : Writer := fun _ _ => none

def Output.write (o : Output) (bytes : ByteArray) : Output × Option ExecError :=
  match o.writer o.bytes bytes with
  | none => ({ o with bytes := o.bytes ++ bytes }, none)
  | some (n, message) => ({ o with bytes := o.bytes ++ bytes.extract 0 n }, some (.foreign message))

/-- Deeper calls than this are refused. -/
def maxDepth : Int := 10000

/-- A machine between calls. -/
structure Machine where
  code : Code
  memory : Memory := {}
  output : Output := {}
  /-- the number of calls under way, counted from the last call from outside -/
  depth : Int := 0
  /-- the registered functions, the latest first -/
  natives : List (String × (List Value → Native)) := []

/-- What is under way below the current activity. -/
inductive Task where
  | frame (f : Frame)
  /-- a registered function that waits for a call it made -/
  | waiting (next : Except ExecError Value → Native)

/-- The current activity. -/
inductive Activity where
  /-- the top frame goes into a block, from another one except at its start -/
  | enter (source : Option Nat) (target : Nat)
  /-- the top frame goes on with its block -/
  | run
  | invoke (func : Nat) (args : List Value)
  | native (n : Native)
  /-- a call has ended with a value -/
  | yield (v : Value)
  /-- a call has ended early -/
  | raise (f : Fault)

/-- A machine at work. -/
structure Config where
  machine : Machine
  stack : List Task := []
  activity : Activity

/-! ## Instructions -/

/-- What an instruction leads to. -/
inductive Effect where
  | value (v : Value)
  /-- a new stack slot -/
  | slot (p : Pointer)
  | noValue
  | call (func : Nat) (args : List Value)

def instructionKind : Op → String
  | .bin .shl .. => "*ir.InstShl"
  | .bin .udiv .. => "*ir.InstUDiv"
  | .cast .intToPtr .. => "*ir.InstIntToPtr"
  | .select => "*ir.InstSelect"
  | _ => "instruction"

/-- Executes an instruction other than a phi. -/
def execute (code : Code) (f : Frame) (op : Op) : Access Effect := do
  let unsupported : Access Effect :=
    Access.raise (.unsupportedInstruction (instructionKind op) (code.funcName f.func))
  match op with
  | .alloca t =>
      let bytes ← Access.check (sizeOf (t.expand code.types))
      return .slot (← allocate bytes .stack)
  | .load t source =>
      let p ← evalPointer code f source
      return .value (← load (t.expand code.types) p)
  | .store value dest =>
      let t ← staticType value
      let v ← eval code f value
      let p ← evalPointer code f dest
      store (t.expand code.types) v p
      return .noValue
  | .gep t source indices =>
      let is ← indices.mapM (evalInt code f)
      let p ← evalPointer code f source
      return .value (.ptr (← Access.check (elementAddress (t.expand code.types) p is)))
  | .call callee args =>
      let vs ← args.mapM (eval code f)
      let p ← evalPointer code f callee
      match p.base with
      | .function i _ => return .call i vs
      | _ => Access.raise (.notAFunction p.text)
  | .icmp c x y =>
      let t ← staticType x
      let a ← eval code f x
      let b ← eval code f y
      match a with
      | .ptr p => return .value (truth (← Access.check (comparePointers c p (← asPointer b))))
      | _ =>
          let m ← asInt a
          let n ← asInt b
          match t with
          | .int bits => return .value (truth (compareInts c bits m n))
          | _ => Access.crash
  | .bin op x y =>
      match wordOp op with
      | none => unsupported
      | some apply =>
          let bits ← staticWidth x
          let a ← evalInt code f x
          let b ← evalInt code f y
          return .value (.int (canonical bits (← Access.check (apply a b))))
  | .cast .bitcast source _ | .cast .sext source _ => return .value (← eval code f source)
  | .cast .trunc source target =>
      let n ← evalInt code f source
      match target with
      | .int bits => return .value (.int (canonical bits n))
      | _ => Access.crash
  | .cast .zext source _ =>
      let n ← evalInt code f source
      return .value (.int (zeroExtended (← staticWidth source) n))
  | .cast .ptrToInt source _ =>
      return .value (.int (← addressOf (← evalPointer code f source)))
  | .extract x indices => return .value (← extract (← eval code f x) indices)
  | .insert x elem indices =>
      let v ← eval code f x
      let e ← eval code f elem
      return .value (← insert v e indices)
  | .phi _ => return .noValue
  | .cast .intToPtr .. | .select => unsupported

/-! ## Blocks -/

/-- The block a branch goes to. -/
def targetBlock (code : Code) (f : Frame) : Operand → Access Nat
  | .block i => return i
  | x => Access.raise (.notABlock (code.operandText f x))

/-- The value that a phi takes for a predecessor. -/
def incomingValue (code : Code) (f : Frame) (pred : Option Nat) (block : String) :
    List (Operand × Operand) → Access Value
  | [] => Access.raise (.noIncoming block)
  | (x, source) :: rest => do
      let b ← targetBlock code f source
      if pred = some b then eval code f x else incomingValue code f pred block rest

/-- The values of the phis at the head of a block, all read before any is set. -/
def phiValues (code : Code) (f : Frame) (pred : Option Nat) (block : String) :
    List Inst → Access (List (Nat × Value))
  | [] => return []
  | i :: is => do
      match i.op with
      | .phi incoming =>
          let v ← incomingValue code f pred block incoming
          return (i.id, v) :: (← phiValues code f pred block is)
      | _ => return []

/-- Where control goes at the end of a block. -/
inductive Exit where
  | ret (v : Value)
  | jump (target : Nat)

/-- Executes the end of a block. -/
def leave (code : Code) (f : Frame) (block : String) : Option Term → Access Exit
  | some (.ret none) => return .ret .nothing
  | some (.ret (some x)) => return .ret (← eval code f x)
  | some (.br target) => return .jump (← targetBlock code f target)
  | some (.condBr cond t e) => do
      let n ← evalInt code f cond
      return .jump (← targetBlock code f (if n ≠ 0 then t else e))
  | some .unreachable => Access.raise (.reachedUnreachable (code.funcName f.func))
  | some .switch =>
      Access.raise (.unsupportedTerminator "*ir.TermSwitch" (code.funcName f.func))
  | none => Access.raise (.noTerminator block (code.funcName f.func))

/-! ## The runtime -/

/-- What a function of the runtime does. -/
inductive RuntimeEffect where
  | value (v : Value)
  | write (bytes : ByteArray)

/-- The functions of the runtime; `none` for any other name. -/
def runtime (name : String) (args : List Value) : Option (Access RuntimeEffect) :=
  let arg (i : Nat) : Access Value :=
    match args[i]? with
    | some v => return v
    | none => Access.crash
  let pointer (i : Nat) : Access Pointer := do asPointer (← arg i)
  let int (i : Nat) : Access Int64 := do asInt (← arg i)
  let done : Access RuntimeEffect := return .value .nothing
  match name with
  | "malloc" => some do
      let size ← int 0
      if size < 0 then Access.raise (.negativeAllocation size.toInt)
      return .value (.ptr (← allocate size .heap))
  | "free" => some do
      free (← pointer 0)
      done
  | "llvm.trap" => some (Access.raise .trap)
  | "strlen" => some do
      return .value (.int (.ofNat (← readString (← pointer 0)).size))
  | "__vinitStr" => some do
      initString (← pointer 0) (← pointer 1) (← int 2)
      done
  | "__vaddStr" => some do
      concatStrings (← pointer 0) (← pointer 1) (← pointer 2)
      done
  | "__veqStr" => some do
      return .value (truth (← equalStrings (← pointer 0) (← pointer 1)))
  | "__vprintStr" => some do
      return .write (← readString (← pointer 0))
  | "__vintToCStr" => some do
      formatInt (← int 0) (← pointer 1) (← int 2)
      done
  | _ => none

/-! ## The step -/

namespace Machine

/-- The last function of a module that is known by a name. -/
def function? (m : Machine) (name : String) : Option Nat :=
  let names := m.code.funcs.toList.map fun f => Ir.knownName f.name
  (names.reverse.findIdx? (· == name)).map (names.length - 1 - ·)

/-- Calls a function from outside: the count of calls starts anew. -/
def enter (m : Machine) (name : String) (args : List Value) (stack : List Task) :
    Option Config :=
  (m.function? name).map fun i =>
    { machine := { m with depth := 0 }, stack, activity := .invoke i args }

end Machine

namespace Config

/-- Runs an access and goes on with its result or its fault. -/
@[inline] def withAccess {α : Type} (m : Machine) (stack : List Task) (x : Access α)
    (next : Machine → α → Config) : Config :=
  let memory := m.memory
  let m := { m with memory := {} }
  match x.run memory with
  | .ok a memory => next { m with memory } a
  | .error f memory => { machine := { m with memory }, stack, activity := .raise f }

/-- Calls a function that the module only declares. -/
def invokeDeclared (m : Machine) (stack : List Task) (name : String) (args : List Value) :
    Config :=
  match m.natives.find? (·.1 == name) with
  | some (_, native) => { machine := m, stack, activity := .native (native args) }
  | none =>
      match runtime name args with
      | none =>
          { machine := m, stack, activity := .raise (.error (.undefinedFunction name)) }
      | some x =>
          withAccess m stack x fun m effect =>
            match effect with
            | .value v => { machine := m, stack, activity := .yield v }
            | .write bytes =>
                let (output, refused) := m.output.write bytes
                { machine := { m with output }, stack,
                  activity := match refused with
                    | none => .yield .nothing
                    | some e => .raise (.error e) }

/-- Calls a function of the module. -/
def invoke (m : Machine) (stack : List Task) (i : Nat) (args : List Value) : Config :=
  match m.code.funcs[i]? with
  | none => { machine := m, stack, activity := .raise .crash }
  | some fn =>
      let name := m.code.funcName i
      if fn.blocks.isEmpty then invokeDeclared m stack name args
      else if args.length ≠ fn.params.length then
        { machine := m, stack,
          activity := .raise (.error (.wrongArity name args.length fn.params.length)) }
      else
        let m := { m with depth := m.depth + 1 }
        if maxDepth < m.depth then
          { machine := m, stack, activity := .raise (.error (.tooDeep name)) }
        else
          { machine := m, stack := .frame { func := i, args := args.toArray } :: stack,
            activity := .enter none 0 }

/-- The end of a frame: its stack slots die with it. -/
def dropFrame (m : Machine) (f : Frame) : Machine :=
  { m with memory := f.slots.foldl Memory.kill m.memory, depth := m.depth - 1 }

/-- Goes into a block. -/
def enterBlock (m : Machine) (f : Frame) (rest : List Task) (pred : Option Nat) (i : Nat) :
    Config :=
  match (m.code.current f).blocks[i]? with
  | none => { machine := m, stack := .frame f :: rest, activity := .raise .crash }
  | some b =>
      withAccess m (.frame f :: rest)
        (phiValues m.code f pred (Ir.knownName b.name) b.insts.toList) fun m values =>
          let regs := values.foldl (fun regs (id, v) => regs.insert id v) f.regs
          { machine := m
            stack := .frame { f with regs, block := i, todo := b.insts.toList } :: rest
            activity := .run }

/-- Executes the next instruction of a frame, or leaves its block. -/
def advance (m : Machine) (f : Frame) (rest : List Task) : Config :=
  match f.todo with
  | [] =>
      match (m.code.current f).blocks[f.block]? with
      | none => { machine := m, stack := .frame f :: rest, activity := .raise .crash }
      | some b =>
          withAccess m (.frame f :: rest)
            (leave m.code f (Ir.knownName b.name) b.term) fun m exit =>
              match exit with
              | .ret v => { machine := dropFrame m f, stack := rest, activity := .yield v }
              | .jump target =>
                  { machine := m, stack := .frame f :: rest,
                    activity := .enter (some f.block) target }
  | i :: todo =>
      withAccess m (.frame f :: rest) (execute m.code f i.op) fun m effect =>
        match effect with
        | .value v =>
            { machine := m
              stack := .frame { f with regs := f.regs.insert i.id v, todo } :: rest
              activity := .run }
        | .slot p =>
            let slots :=
              match p.base with
              | .object id _ => id :: f.slots
              | _ => f.slots
            { machine := m
              stack := .frame { f with regs := f.regs.insert i.id (.ptr p), slots, todo } :: rest
              activity := .run }
        | .noValue =>
            { machine := m, stack := .frame { f with todo } :: rest, activity := .run }
        | .call func args =>
            { machine := m, stack := .frame f :: rest, activity := .invoke func args }

/-- Delivers the value of a call to the instruction that made it. -/
def deliver (m : Machine) (f : Frame) (rest : List Task) (v : Value) : Config :=
  match f.todo with
  | [] => { machine := m, stack := .frame f :: rest, activity := .raise .crash }
  | i :: todo =>
      { machine := m
        stack := .frame { f with regs := f.regs.insert i.id v, todo } :: rest
        activity := .run }

/-- One step; `none` when nothing is left to do. -/
def step (c : Config) : Config ⊕ (Machine × Except Fault Value) :=
  let { machine := m, stack, activity } := c
  match activity, stack with
  | .yield v, [] => .inr (m, .ok v)
  | .raise f, [] => .inr (m, .error f)
  | .yield v, .frame f :: rest => .inl (deliver m f rest v)
  | .yield v, .waiting next :: rest =>
      .inl { machine := m, stack := rest, activity := .native (next (.ok v)) }
  | .raise e, .frame f :: rest =>
      .inl { machine := dropFrame m f, stack := rest, activity := .raise e }
  | .raise (.error e), .waiting next :: rest =>
      .inl { machine := m, stack := rest, activity := .native (next (.error e)) }
  | .raise .crash, .waiting _ :: rest =>
      .inl { machine := m, stack := rest, activity := .raise .crash }
  | .invoke i args, stack => .inl (invoke m stack i args)
  | .native n, stack =>
      match n with
      | .done v => .inl { machine := m, stack, activity := .yield v }
      | .fail e => .inl { machine := m, stack, activity := .raise (.error e) }
      | .crash => .inl { machine := m, stack, activity := .raise .crash }
      | .write bytes next =>
          let (output, refused) := m.output.write bytes
          .inl { machine := { m with output }, stack, activity := .native (next refused) }
      | .call name args next =>
          match m.enter name args (.waiting next :: stack) with
          | some c => .inl c
          | none =>
              .inl { machine := m, stack, activity := .native (next (.error (.noFunction name))) }
  | .enter pred i, .frame f :: rest => .inl (enterBlock m f rest pred i)
  | .run, .frame f :: rest => .inl (advance m f rest)
  | .enter .., stack => .inl { machine := m, stack, activity := .raise .crash }
  | .run, stack => .inl { machine := m, stack, activity := .raise .crash }

/-- Runs to the end, for at most a number of steps. -/
def run : Nat → Config → Option (Machine × Except Fault Value)
  | 0, _ => none
  | fuel + 1, c =>
      match c.step with
      | .inl c => run fuel c
      | .inr r => some r

end Config
end Tenure.Interp
