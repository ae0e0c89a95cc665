import Tenure.Text.Blank
import Tenure.Text.Numeral
import Tenure.Text.Binary64
import Tenure.Text.Base64
import Tenure.Program.Reference
import Tenure.Program.Expr
import Tenure.Program.Registry
import Tenure.Program.Notation
import Tenure.Yaml.Token
import Tenure.Yaml.Scalar
import Tenure.Yaml.Lexer
import Tenure.Text.Printable
import Tenure.Text.Quoted
import Tenure.Yaml.Tag
import Tenure.Yaml.Node
import Tenure.Text.Utf8
import Tenure.Yaml.Decode
import Tenure.Program.Document
import Tenure.Program.Load
import Tenure.Ir.Name
import Tenure.Ir.Ty
import Tenure.Ir.Const
import Tenure.Ir.Code
import Tenure.Ir.Typing
import Tenure.Interp.Value
import Tenure.Interp.Fault
import Tenure.Interp.Arith
import Tenure.Interp.Layout
import Tenure.Interp.Memory
import Tenure.Interp.Strings
import Tenure.Interp.Eval
import Tenure.Interp.Step
import Tenure.Interp.Run
import Tenure.Lowering.Fault
import Tenure.Lowering.Build
import Tenure.Lowering.Layout
import Tenure.Lowering.Loop
import Tenure.Lowering.Counting
import Tenure.Lowering.Strings
import Tenure.Lowering.Dispatch
import Tenure.Lowering.Expr
import Tenure.Lowering.Module
import Tenure.Ir.Printer
import Tenure.Text.Template
import Tenure.Toml.Value
import Tenure.Toml.Token
import Tenure.Toml.Document
import Tenure.Command.Path
import Tenure.Command.Profile
import Tenure.Command.Report
import Tenure.Command.Files
import Tenure.Command.Arguments
import Tenure.Command.Execute
import Tenure.Main
import Tenure.Proofs.ControlFlow
import Tenure.Proofs.Building
import Tenure.Proofs.Forming
import Tenure.Proofs.Branching
import Tenure.Proofs.Emission
import Tenure.Proofs.EmittedParts
import Tenure.Proofs.EmittedValues
import Tenure.Proofs.EmittedExpr
import Tenure.Proofs.EmittedControl
import Tenure.Proofs.EmittedBodies
import Tenure.Proofs.Outcomes
import Tenure.Proofs.Resolution
import Tenure.Proofs.Assembly
import Tenure.Proofs.StaticForm
import Tenure.Proofs.Running
import Tenure.Proofs.Lifetimes
import Tenure.Proofs.Executing
import Tenure.Proofs.Pieces
import Tenure.Proofs.Outlines
import Tenure.Proofs.Histories
import Tenure.Proofs.LedgerInvariants
import Tenure.Proofs.ObjectLifetimes
import Tenure.Proofs.CallDepth
import Tenure.Proofs.Sites
import Tenure.Proofs.Straight
import Tenure.Proofs.Assembled
import Tenure.Proofs.MethodTables
import Tenure.Proofs.Dispatch
import Tenure.Proofs.Receivers
import Tenure.Proofs.InterfaceDispatch
import Tenure.Proofs.GuardedRuns
import Tenure.Proofs.Recounting
import Tenure.Proofs.SharedHeap
import Tenure.Proofs.Releasing
import Tenure.Proofs.Slotless
import Tenure.Proofs.DropFunctions
import Tenure.Proofs.Reclamation
import Tenure.Proofs.LocalEvents
import Tenure.Proofs.OpenLocals
import Tenure.Proofs.TypeNotation
import Tenure.Proofs.ResolutionCriterion
import Tenure.Proofs.RegistryHistories
import Tenure.Proofs.Rearrangement
import Tenure.Proofs.DefinitionOrder
import Tenure.Proofs.Refusals
import Tenure.Proofs.ScopedExpr
import Tenure.Proofs.ReadPrograms
import Tenure.Proofs.NameSafety
import Tenure.Proofs.ConditionalArms
import Tenure.Proofs.InlineNesting
import Tenure.Proofs.LoweredTypes
import Tenure.Proofs.Relocation
import Tenure.Proofs.InStep
import Tenure.Proofs.InStepParts
import Tenure.Proofs.InStepExpr
import Tenure.Proofs.InStepFunc
import Tenure.Proofs.InStepDecls
import Tenure.Proofs.InStepModule
import Tenure.Proofs.InStepBodies
import Tenure.Proofs.FunctionOrder
import Tenure.Proofs.Acquiring
import Tenure.Proofs.ArrayIndexing
import Tenure.Proofs.LastWriter
import Tenure.Proofs.Words
import Tenure.Proofs.Aggregates
import Tenure.Proofs.CountedTypes
import Tenure.Proofs.StartupOrder
import Tenure.Proofs.ByteStrings
