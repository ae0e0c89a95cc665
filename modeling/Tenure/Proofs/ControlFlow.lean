import Tenure.Ir.Code

/-!
# Control flow and dominance

A function is read here as a graph: its blocks, with an edge wherever a block
ends in a branch.  A block dominates another if every way from the entry to the
other goes through it, and a function is in static single assignment form if
every register is defined by one instruction that dominates all its uses.

Dominance speaks of all paths of the finished graph, while a function is built
block by block.  What can be kept up to date while it is built is a table that
lists, for every block, some blocks that dominate it; the table is right as soon
as it is right along every single edge.  `Formed` is the form of a function with
such a table, and `Formed.isSsa` gets the statements about paths out of it.

* `Func.Trail`, `Func.Dominates`: ways from the entry, and dominance by them.
* `Func.Known`: an operand that stands for something, defined at a given place.
* `Func.IsSsa`: what a finished function satisfies.
* `Func.Formed`: what a function satisfies while it is built.
-/

namespace Tenure.Ir

/-! ## Operands and successors -/

/-- The operands an operation reads when it is executed.  A phi reads its own on
the way into its block, so it has none here. -/
def Op.operands : Op → List Operand
  | .load _ source => [source]
  | .store value dest => [value, dest]
  | .gep _ source indices => source :: indices
  | .call callee args => callee :: args
  | .icmp _ x y | .bin _ x y => [x, y]
  | .cast _ source _ => [source]
  | .extract x _ => [x]
  | .insert x elem _ => [x, elem]
  | .alloca _ | .phi _ | .select => []

/-- The pairs of a phi: a value and the block it comes with. -/
def Op.incoming? : Op → Option (List (Operand × Operand))
  | .phi incoming => some incoming
  | _ => none

def Op.isAlloca : Op → Bool
  | .alloca _ => true
  | _ => false

def Term.operands : Term → List Operand
  | .ret value => value.toList
  | .condBr cond .. => [cond]
  | _ => []

/-- Where a block may go on. -/
def Term.successors : Term → List Operand
  | .br target => [target]
  | .condBr _ t e => [t, e]
  | _ => []

namespace Func

/-! ## The graph -/

/-- The instructions of a block. -/
def code (f : Func) (b : Nat) : List Inst := (f.blocks[b]?.map (·.insts.toList)).getD []

/-- An instruction stands at a position of a block. -/
def Has (f : Func) (b j : Nat) (i : Inst) : Prop := (f.code b)[j]? = some i

/-- The end of a block. -/
def term? (f : Func) (b : Nat) : Option Term := f.blocks[b]?.bind (·.term)

/-- Control may pass from one block to another. -/
def Edge (f : Func) (a b : Nat) : Prop :=
  ∃ t, f.term? a = some t ∧ .block b ∈ t.successors

/-- A way from the entry to a block: the blocks it goes through, the last one
first. -/
inductive Trail (f : Func) : Nat → List Nat → Prop where
  | entry : Trail f 0 [0]
  | step {a b : Nat} {bs : List Nat} : Trail f a bs → f.Edge a b → Trail f b (b :: bs)

/-- Every way to a block goes through another. -/
def Dominates (f : Func) (d b : Nat) : Prop := ∀ bs, f.Trail b bs → d ∈ bs

/-- An operand stands for something: a constant, a parameter, or a register whose
instruction is at a place that satisfies a condition. -/
def Known (f : Func) (P : Nat → Nat → Prop) : Operand → Prop
  | .const _ => True
  | .param i _ => i < f.params.length
  | .reg id _ => ∃ d j i, f.Has d j i ∧ i.id = id ∧ P d j
  | .block _ => False

theorem Known.imp {f : Func} {P Q : Nat → Nat → Prop} {x : Operand} (h : f.Known P x)
    (hPQ : ∀ d j, j < (f.code d).length → P d j → Q d j) : f.Known Q x := by
  cases x with
  | const c => trivial
  | param i t => exact h
  | reg id t =>
    obtain ⟨d, j, i, hi, hid, hP⟩ := h
    exact ⟨d, j, i, hi, hid, hPQ d j (List.getElem?_eq_some_iff.mp hi).1 hP⟩
  | block b => exact h

/-! ## Static single assignment form -/

/-- A finished function is in static single assignment form. -/
structure IsSsa (f : Func) : Prop where
  /-- every block has an end -/
  ended : ∀ b, b < f.blocks.size → (f.term? b).isSome
  /-- branches go to blocks of the function, and never back to the entry -/
  targets : ∀ b t, f.term? b = some t → ∀ x ∈ t.successors,
    ∃ c, x = .block c ∧ 0 < c ∧ c < f.blocks.size
  /-- a register has one definition -/
  unique : ∀ b i c j x y, f.Has b i x → f.Has c j y → x.id = y.id →
    b = c ∧ i = j
  /-- what an instruction reads is defined before it in its block, or in another
  block that dominates it -/
  uses : ∀ b j i, f.Has b j i → ∀ x ∈ i.op.operands,
    f.Known (fun d k => d = b ∧ k < j ∨ d ≠ b ∧ f.Dominates d b) x
  /-- what the end of a block reads is defined in a block that dominates it -/
  endUses : ∀ b t, f.term? b = some t → ∀ x ∈ t.operands,
    f.Known (fun d _ => f.Dominates d b) x
  /-- phis stand at the head of their block -/
  phiFirst : ∀ b j i, f.Has b j i → i.op.incoming?.isSome → ∀ k < j,
    ∃ y, f.Has b k y ∧ y.op.incoming?.isSome
  /-- a phi has one pair for every predecessor, and no other -/
  phiSources : ∀ b j i incoming, f.Has b j i → i.op.incoming? = some incoming →
    (incoming.map (·.2)).Nodup ∧
      ∀ x, x ∈ incoming.map (·.2) ↔ ∃ a, x = .block a ∧ f.Edge a b
  /-- the value of a pair is defined where the predecessor ends -/
  phiUses : ∀ b j i incoming, f.Has b j i → i.op.incoming? = some incoming →
    ∀ p ∈ incoming, ∃ a, p.2 = .block a ∧ f.Known (fun d _ => f.Dominates d a) p.1

/-! ## Tables of dominators -/

/-- For every block, some blocks that dominate it. -/
abbrev Dominators := Nat → Nat → Prop

/-- The form of a function while it is built, with a table of dominators: the
table holds along every edge, and definitions dominate uses according to it. -/
structure Formed (f : Func) (D : Dominators) : Prop where
  self : ∀ b < f.blocks.size, D b b
  entry : ∀ b < f.blocks.size, D b 0
  root : ∀ d, D 0 d → d = 0
  targets : ∀ b t, f.term? b = some t → ∀ x ∈ t.successors,
    ∃ c, x = .block c ∧ 0 < c ∧ c < f.blocks.size ∧ ∀ d, D c d → d = c ∨ D b d
  below : ∀ b j i, f.Has b j i → i.id < f.nextReg
  unique : ∀ b i c j x y, f.Has b i x → f.Has c j y → x.id = y.id →
    b = c ∧ i = j
  uses : ∀ b j i, f.Has b j i → ∀ x ∈ i.op.operands,
    f.Known (fun d k => d = b ∧ k < j ∨ d ≠ b ∧ D b d) x
  endUses : ∀ b t, f.term? b = some t → ∀ x ∈ t.operands, f.Known (fun d _ => D b d) x
  phiFirst : ∀ b j i, f.Has b j i → i.op.incoming?.isSome → ∀ k < j,
    ∃ y, f.Has b k y ∧ y.op.incoming?.isSome
  phiSources : ∀ b j i incoming, f.Has b j i → i.op.incoming? = some incoming →
    (incoming.map (·.2)).Nodup ∧
      ∀ x, x ∈ incoming.map (·.2) ↔ ∃ a, x = .block a ∧ f.Edge a b
  phiUses : ∀ b j i incoming, f.Has b j i → i.op.incoming? = some incoming →
    ∀ p ∈ incoming, ∃ a, p.2 = .block a ∧ f.Known (fun d _ => D a d) p.1

variable {f : Func} {D : Dominators}

/-- What the table lists lies on every way from the entry. -/
theorem Formed.dominates (h : f.Formed D) {b d : Nat} (hd : D b d) : f.Dominates d b := by
  intro bs hbs
  induction hbs generalizing d with
  | entry =>
    rw [h.root d hd]
    exact List.mem_singleton_self 0
  | @step a b bs _ hedge ih =>
    obtain ⟨t, ht, hmem⟩ := hedge
    obtain ⟨c, hc, -, -, hD⟩ := h.targets a t ht _ hmem
    obtain rfl : b = c := by injection hc
    rcases hD d hd with rfl | hda
    · exact List.mem_cons_self ..
    · exact List.mem_cons_of_mem _ (ih hda)

/-- A function that is formed and has all its ends is in static single assignment
form. -/
theorem Formed.isSsa (h : f.Formed D)
    (hend : ∀ b, b < f.blocks.size → (f.term? b).isSome) : f.IsSsa where
  ended := hend
  targets b t ht x hx := by
    obtain ⟨c, hc, h0, hlt, -⟩ := h.targets b t ht x hx
    exact ⟨c, hc, h0, hlt⟩
  unique := h.unique
  uses b j i hi x hx :=
    (h.uses b j i hi x hx).imp fun d k _ hdk => hdk.imp_right fun ⟨hne, hd⟩ =>
      ⟨hne, h.dominates hd⟩
  endUses b t ht x hx := (h.endUses b t ht x hx).imp fun _ _ _ hd => h.dominates hd
  phiFirst := h.phiFirst
  phiSources := h.phiSources
  phiUses b j i incoming hi hin p hp := by
    obtain ⟨a, ha, hk⟩ := h.phiUses b j i incoming hi hin p hp
    exact ⟨a, ha, hk.imp fun _ _ _ hd => h.dominates hd⟩

end Func
end Tenure.Ir
