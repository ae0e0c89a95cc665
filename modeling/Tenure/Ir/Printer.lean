import Std.Data.HashMap
import Tenure.Ir.Code

/-!
# The text of a module

Type definitions, globals and functions, each in the order of creation.  Values
without a name are numbered here, per function: parameters, then for each block
the block and its results.
-/

namespace Tenure.Ir

/-! ## Numbering -/

/-- Numbers what has no name from a number on; the rest keeps its place. -/
def numberFrom : Nat → List String → List Nat
  | _, [] => []
  | n, name :: names =>
      if name = "" then n :: numberFrom (n + 1) names else n :: numberFrom n names

namespace Func

/-- What takes part in the numbering of a function. -/
inductive Numbered where
  | param (i : Nat)
  | block (i : Nat)
  | reg (id : Nat)

/-- The values of a function in the order of their numbers, with their names. -/
def numberedValues (f : Func) : List (Numbered × String) :=
  f.params.zipIdx.map (fun ((name, _), i) => (.param i, name)) ++
  f.blocks.toList.zipIdx.flatMap fun (b, i) =>
    (.block i, b.name) ::
      (b.insts.toList.filter (·.hasResult)).map fun x => (.reg x.id, x.name)

end Func

/-- How the values in scope of a function are written once they are numbered. -/
def Module.names (m : Module) (f : Func) : Names :=
  let symbols := m.globals.toList.map (·.name) ++ m.funcs.toList.map (·.name)
  let idents := ((symbols.zip (numberFrom 0 symbols)).map fun (n, i) => globalIdent n i).toArray
  let values := f.numberedValues
  let numbers := numberFrom 0 (values.map (·.2))
  let written := values.zip numbers
  let params := written.filterMap fun ((v, name), n) =>
    match v with
    | .param _ => some (localIdent name n)
    | _ => none
  let blocks := written.filterMap fun ((v, name), n) =>
    match v with
    | .block _ => some (localIdent name n)
    | _ => none
  let regs : Std.HashMap Nat String := written.foldl (fun table ((v, name), n) =>
    match v with
    | .reg id => table.insert id (localIdent name n)
    | _ => table) {}
  let params := params.toArray
  let blocks := blocks.toArray
  { global := fun i => idents.getD i "@0"
    func := fun i => idents.getD (m.globals.size + i) "@0"
    param := fun i => params.getD i "%0"
    block := fun i => blocks.getD i "%0"
    reg := fun id => regs.getD id "%0" }

/-! ## Instructions -/

/-- Operands with their types, separated by commas. -/
def operandTexts (names : Names) (xs : List Operand) : String :=
  ", ".intercalate (xs.map (·.text names))

/-- An incoming value of a phi and the block it comes from. -/
def incomingText (names : Names) (inc : Operand × Operand) : String :=
  "[ " ++ inc.1.ident names ++ ", " ++ inc.2.ident names ++ " ]"

def indexTexts (is : List Nat) : String := String.join (is.map fun i => ", " ++ toString i)

/-- An operation as it is written; `ty` is the type of its result. -/
def Op.text (names : Names) (ty : Ty) : Op → String
  | alloca elem => "alloca " ++ elem.text
  | load elem source => "load " ++ elem.text ++ ", " ++ source.text names
  | store value dest => "store " ++ value.text names ++ ", " ++ dest.text names
  | gep elem source indices =>
      "getelementptr " ++ elem.text ++ ", " ++ operandTexts names (source :: indices)
  | call callee args =>
      "call " ++ ty.text ++ " " ++ callee.ident names ++ "(" ++ operandTexts names args ++ ")"
  | icmp c x y => "icmp " ++ c.text ++ " " ++ x.text names ++ ", " ++ y.ident names
  | bin op x y => op.text ++ " " ++ x.text names ++ ", " ++ y.ident names
  | cast c source target => c.text ++ " " ++ source.text names ++ " to " ++ target.text
  | extract x is => "extractvalue " ++ x.text names ++ indexTexts is
  | insert x elem is =>
      "insertvalue " ++ x.text names ++ ", " ++ elem.text names ++ indexTexts is
  | phi incoming =>
      "phi " ++ ty.text ++ " " ++ ", ".intercalate (incoming.map (incomingText names))
  | select => "select"

def Inst.text (names : Names) (i : Inst) : String :=
  let head := if i.hasResult then names.reg i.id ++ " = " else ""
  head ++ i.op.text names i.ty

def Term.text (names : Names) : Term → String
  | ret none => "ret void"
  | ret (some x) => "ret " ++ x.text names
  | br target => "br " ++ target.text names
  | condBr cond t e =>
      "br " ++ cond.text names ++ ", " ++ t.text names ++ ", " ++ e.text names
  | unreachable => "unreachable"
  | switch => "switch"

/-- A label: the name of a block without the mark of a local value. -/
def labelText (ident : String) : String := (ident.drop 1).toString ++ ":"

/-- A block as it is written; one without an end cannot be. -/
def Block.text? (names : Names) (i : Nat) (b : Block) : Option String :=
  b.term.map fun t =>
    let lines := b.insts.toList.map (·.text names) ++ [t.text names]
    labelText (names.block i) ++ String.join (lines.map ("\n\t" ++ ·))

/-! ## Definitions -/

def Func.headText (names : Names) (i : Nat) (f : Func) : String :=
  let params := f.params.zipIdx.map fun ((_, t), k) => t.text ++ " " ++ names.param k
  let linkage := if f.linked then "external " else ""
  linkage ++ f.result.text ++ " " ++ names.func i ++ "(" ++ ", ".intercalate params ++ ")" ++
    String.join (List.replicate f.nounwinds " nounwind")

/-- A function as it is written. -/
def Func.text? (m : Module) (i : Nat) (f : Func) : Option String := do
  let names := m.names f
  let head := f.headText names i
  if f.blocks.isEmpty then return "declare " ++ head
  let blocks ← f.blocks.toList.zipIdx.mapM fun (b, k) => b.text? names k
  return "define " ++ head ++ " \x7b\n" ++ "\n\n".intercalate blocks ++ "\n\x7d"

def Global.text (names : Names) (i : Nat) (g : Global) : String :=
  let value :=
    match g.init with
    | some c => c.text names
    | none => g.content.text
  names.global i ++ " = " ++ (if g.immutable then "constant " else "global ") ++ value

def TypeDef.text (d : TypeDef) : String :=
  (Ty.struct d.name d.fields).text ++ " = type " ++ (Ty.struct "" d.fields).text

/-- Whether the constants of a module can all be written. -/
def Module.isWritable (m : Module) : Bool :=
  let operand (x : Operand) : Bool := x.isWritable
  let op : Op → Bool
    | .load _ x | .cast _ x _ | .extract x _ => operand x
    | .store x y | .icmp _ x y | .bin _ x y | .insert x y _ => operand x && operand y
    | .gep _ x xs | .call x xs => operand x && xs.all operand
    | .phi incoming => incoming.all fun (x, y) => operand x && operand y
    | .alloca _ | .select => true
  let term : Term → Bool
    | .ret (some x) | .br x => operand x
    | .condBr x y z => operand x && operand y && operand z
    | _ => true
  m.globals.all (fun g => (g.init.map (·.isWritable)).getD true) &&
    m.funcs.all fun f => f.blocks.all fun b =>
      b.insts.all (fun i => op i.op) && (b.term.map term).getD true

/-- A module as it is written, if every block has its end and every constant can
be written. -/
def Module.text? (m : Module) : Option String := do
  guard m.isWritable
  let symbolNames := m.names { name := "", result := .void, params := [] }
  let types := m.types.toList.map (·.text)
  let globals := m.globals.toList.zipIdx.map fun (g, i) => g.text symbolNames i
  let funcs ← m.funcs.toList.zipIdx.mapM fun (f, i) => f.text? m i
  let lines (xs : List String) : String := String.join (xs.map (· ++ "\n"))
  let functions := if funcs.isEmpty then "" else "\n\n".intercalate funcs ++ "\n"
  let sections := [lines types, lines globals, functions].filter (· ≠ "")
  return "\n".intercalate sections

end Tenure.Ir
