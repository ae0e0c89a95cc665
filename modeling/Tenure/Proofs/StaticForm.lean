import Tenure.Proofs.Assembled
import Tenure.Proofs.Outcomes

/-!
# Modules in static single assignment form

Every function that lowering fills in is in static single assignment form, and
the logs of its blocks tell that no block was touched after its end: what is
logged are the instructions of the block, in their order, and one end, with
nothing behind it but the stack slots of the entry.

Nothing is asked of the program but that it went through resolution: its types
may disagree with its operands, and its locals may be opened and closed in any
order.  What resolution is needed for are the indices of functions, since two
functions of one index would be written into the same place.
-/

namespace Tenure

open Ir (Func)
open Lowering (Options)

theorem Program.toModule_ok {p : Program} {options : Options} {m : Ir.Module}
    (h : p.toModule options = .ok m) :
    ∃ s, Lowering.buildModule { program := p, options } {} = .ok () s ∧ s.module = m := by
  unfold Program.toModule at h
  split at h
  · split at h
    · next s hrun =>
      exact ⟨s, hrun, Except.ok.inj h⟩
    · cases h
  · cases h

/-- Every function with a body is in static single assignment form, and each of its
blocks was written in order: ended once, and with nothing but stack slots of the
entry appended after the end. -/
theorem Program.toModule_isSsa {q p : Program} {options : Options} {m : Ir.Module}
    (hq : q.resolve = (p, none)) (h : p.toModule options = .ok m) :
    ∀ f ∈ m.funcs, f.blocks ≠ #[] →
      f.IsSsa ∧ ∀ k block, f.blocks[k]? = some block →
        block.writes.filter (· ≠ .term) = block.insts.toList.map (·.op.write) ∧
        Func.EndsOnce k block.writes := by
  intro f hf hbody
  obtain ⟨s, hrun, rfl⟩ := Program.toModule_ok h
  obtain ⟨i, hlt, rfl⟩ := Array.mem_iff_getElem.mp hf
  have hsound := Lowering.buildModule_sound (Program.resolve_numbered hq) hrun
  rcases hsound i _ (Array.getElem?_eq_getElem hlt) with hempty | hcomplete
  · exact absurd hempty hbody
  · refine ⟨hcomplete.ssa, fun k block hblock => ?_⟩
    obtain ⟨declared, hempty, hbuilt⟩ := hcomplete.built
    have hlog := hbuilt.logged hempty k block hblock
    have hterm := hcomplete.ssa.ended k (Array.getElem?_eq_some_iff.mp hblock).1
    rw [Func.term?, hblock] at hterm
    exact ⟨hlog.insts, hlog.ended hterm⟩

/-! ## A program with a loop, a branch that returns and a local -/

namespace Program.Countdown

def int : Option Reference := some ⟨.share, .inline, .int⟩

def bool : Option Reference := some ⟨.share, .inline, .bool⟩

def counter : Option Local := some ⟨0, "counter", int⟩

def positive : Expr :=
  .externCall (some (.native 1)) [.constantI64 0, .localLoad counter .share]

def decrement : Expr :=
  .localStore counter
    (.externCall (some (.native 0)) [.localLoad counter .share, .constantI64 1])

/-- Counts a local down to zero. -/
def program : Program where
  natives := #[⟨"__subIntInt", [int, int], int, -1⟩, ⟨"__lessThanInt", [int, int], bool, -1⟩]
  functions := #[⟨⟨"countdown", [int], int, -1⟩, .block [
    .stackify (.argument int 0) counter,
    .loop positive (.discard decrement int),
    .ite positive (.ret (.localLoad counter .share) int) (.unstackify counter) int]⟩]

end Program.Countdown

open Program.Countdown in
theorem Program.toModule_isSsa_countdown :
    ∃ m, program.resolve.1.toModule {} = .ok m ∧
      ∃ f ∈ m.funcs, f.blocks.size = 7 ∧ f.IsSsa ∧ ∀ k block, f.blocks[k]? = some block →
        block.writes.filter (· ≠ .term) = block.insts.toList.map (·.op.write) ∧
        Func.EndsOnce k block.writes := by
  have hq := Program.resolve_of_none (p := program) (by decide +kernel)
  have heval : (program.resolve.1.toModule {}).toOption.any
      (fun m => m.funcs.any fun f => f.blocks.size == 7) = true := by decide +kernel
  obtain ⟨m, hm, hany⟩ := except_of_any heval
  obtain ⟨f, hf, hsize⟩ := Array.any_eq_true'.mp hany
  have hsize : f.blocks.size = 7 := by simpa using hsize
  have hbody : f.blocks ≠ #[] := fun h => by
    rw [h] at hsize
    exact absurd hsize (by decide)
  exact ⟨m, hm, f, hf, hsize, Program.toModule_isSsa hq hm f hf hbody⟩

end Tenure
