import Tenure.Ir.Ty
import Tenure.Interp.Fault

/-!
# Layout

Sizes, alignments and offsets of types in bytes, by natural alignment.  The
types here have their definitions written out.  Sizes are 64-bit words and may
wrap; an alignment of zero makes the layout crash.
-/

namespace Tenure.Interp

open Ir (Ty)

/-- The outcome of a computation that may end in a fault. -/
abbrev Checked := Except Fault

/-- The bytes of an integer. -/
def intBytes (bits : Nat) : Int64 := (Int64.ofNat bits + 7) / 8

/-- The first multiple of an alignment from a number on. -/
def alignTo (n align : Int64) : Checked Int64 :=
  if align = 0 then .error .crash else .ok ((n + align - 1) / align * align)

mutual

/-- The alignment of a type: that of its most demanding part. -/
def alignOf : Ty → Checked Int64
  | .int bits => .ok (intBytes bits)
  | .ptr _ => .ok 8
  | .struct _ fields => alignOfAll 1 fields
  | .array _ elem => alignOf elem
  | .defined .. | .invalid => .error .crash
  | t => .error (.error (.noLayout t.text))

def alignOfAll (align : Int64) : List Ty → Checked Int64
  | [] => .ok align
  | t :: ts => do
      let a ← alignOf t
      alignOfAll (if align < a then a else align) ts

end

mutual

/-- The size of a type. -/
def sizeOf : Ty → Checked Int64
  | .int bits => .ok (intBytes bits)
  | .ptr _ => .ok 8
  | .struct _ fields => do
      let stop ← fieldsEnd 0 fields
      alignTo stop (← alignOfAll 1 fields)
  | .array len elem => do
      return Int64.ofNat len * (← sizeOf elem)
  | .defined .. | .invalid => .error .crash
  | t => .error (.error (.noLayout t.text))

/-- Where a run of fields that starts at an offset ends. -/
def fieldsEnd (offset : Int64) : List Ty → Checked Int64
  | [] => .ok offset
  | t :: ts => do
      let start ← alignTo offset (← alignOf t)
      fieldsEnd (start + (← sizeOf t)) ts

end

/-- The offset and the type of a field; `none` past the last one. -/
def fieldAt (offset : Int64) : List Ty → Nat → Checked (Option (Int64 × Ty))
  | [], _ => .ok none
  | t :: ts, i => do
      let start ← alignTo offset (← alignOf t)
      match i with
      | 0 => return some (start, t)
      | i + 1 => fieldAt (start + (← sizeOf t)) ts i

/-- The offset and the type reached by the indices after the first. -/
def elementOffset : Ty → Int64 → List Int64 → Checked Int64
  | _, offset, [] => .ok offset
  | t, offset, i :: is => do
      match t with
      | .struct _ fields =>
          -- no field has a negative index, but the whole struct is laid out to see that
          let index := if i < 0 then fields.length else i.toNatClampNeg
          match ← fieldAt 0 fields index with
          | some (start, field) => elementOffset field (offset + start) is
          | none => throw (.error (.noField t.text i.toInt))
      | .array _ elem => elementOffset elem (offset + i * (← sizeOf elem)) is
      | .defined .. | .invalid => throw .crash
      | t => throw (.error (.noIndexing t.text))

/-- The address of an element: the first index steps over whole values of the
type, the rest go inside.  An index past the end of an array is allowed. -/
def elementAddress (t : Ty) (p : Pointer) : List Int64 → Checked Pointer
  | [] => .ok p
  | i :: is => do
      let start := p.offset + i * (← sizeOf t)
      return { p with offset := ← elementOffset t start is }

/-- The greatest number of items an aggregate can have. -/
def maxItems : Nat := 17592186044416

/-- The value of a type that is zero throughout. -/
def zeroValue : Ty → Checked Value
  | .int _ => .ok (.int 0)
  | .ptr _ => .ok (.ptr {})
  | .struct _ fields => return .agg (← zeroValues fields)
  | .array len elem =>
      if len = 0 then .ok (.agg [])
      else if maxItems < len then .error .crash
      else do return .agg (List.replicate len (← zeroValue elem))
  | .defined .. | .invalid => .error .crash
  | t => .error (.error (.noZero t.text))
where
  zeroValues : List Ty → Checked (List Value)
    | [] => .ok []
    | t :: ts => do
        let v ← zeroValue t
        return v :: (← zeroValues ts)

end Tenure.Interp
