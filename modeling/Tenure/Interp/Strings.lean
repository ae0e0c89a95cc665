import Tenure.Interp.Memory

/-!
# The string library

The functions on zero-terminated bytes that compiled programs rely on.  Every
byte is read and written through a checked access of its own.
-/

namespace Tenure.Interp

/-- Reads the byte at an offset from a pointer. -/
def readByte (p : Pointer) (i : Int64) : Access UInt8 := do
  match ← loadScalar .i8 (p.part i) with
  | .int n => return n.toInt8.toUInt8
  | _ => Access.crash

/-- Writes a byte at an offset from a pointer. -/
def writeByte (p : Pointer) (i : Int64) (b : UInt8) : Access Unit :=
  storeScalar .i8 (.int b.toInt8.toInt64) (p.part i)

/-- Writes bytes one after the other and gives the offset behind them. -/
def writeBytes (p : Pointer) : Int64 → List UInt8 → Access Int64
  | i, [] => return i
  | i, b :: bs => do
      writeByte p i b
      writeBytes p (i + 1) bs

/-- The number of cells of the object a pointer points into. -/
def cellCount (p : Pointer) : Access Nat := do
  match p.base with
  | .object id _ => return ((← get).objects[id]?.map (·.cells.size)).getD 0
  | _ => return 0

/-- Reads bytes up to a terminator; there is no more than one byte for each
unit of fuel. -/
def readUntilZero (p : Pointer) : Nat → Int64 → ByteArray → Access ByteArray
  | 0, _, _ => Access.crash
  | fuel + 1, i, acc => do
      let b ← readByte p i
      if b = 0 then return acc else readUntilZero p fuel (i + 1) (acc.push b)

/-- The bytes before the terminator.  Each byte is a cell, so there are no more
of them than cells. -/
def readString (p : Pointer) : Access ByteArray := do
  readUntilZero p ((← cellCount p) + 1) 0 .empty

/-- Copies a number of bytes, none of which may be zero. -/
def copyBytes (dest source : Pointer) (length : Int64) : Nat → Int64 → Access Unit
  | 0, _ => return
  | n + 1, i => do
      let b ← readByte source i
      if b = 0 then Access.raise (.zeroByte i.toInt length.toInt)
      writeByte dest i b
      copyBytes dest source length n (i + 1)

/-- Copies a number of bytes and terminates them. -/
def initString (dest source : Pointer) (length : Int64) : Access Unit := do
  copyBytes dest source length length.toNatClampNeg 0
  writeByte dest length 0

/-- Writes one string after another and terminates them.  The second is read
after the first has been written. -/
def concatStrings (a b dest : Pointer) : Access Unit := do
  let n ← writeBytes dest 0 (← readString a).data.toList
  let n ← writeBytes dest n (← readString b).data.toList
  writeByte dest n 0

/-- Compares byte by byte up to a difference or a common terminator. -/
def equalUntilZero (a b : Pointer) : Nat → Int64 → Access Bool
  | 0, _ => Access.crash
  | fuel + 1, i => do
      let x ← readByte a i
      let y ← readByte b i
      if x ≠ y then return false
      else if x = 0 then return true
      else equalUntilZero a b fuel (i + 1)

/-- Whether two strings are equal. -/
def equalStrings (a b : Pointer) : Access Bool := do
  equalUntilZero a b ((← cellCount a) + 1) 0

/-- Writes the low 32 bits of a number in decimal, as many digits as fit before
the terminator. -/
def formatInt (n : Int64) (dest : Pointer) (room : Int64) : Access Unit := do
  if room ≤ 0 then return
  let digits := (toString n.toInt32.toInt).toUTF8.data.toList
  let stop ← writeBytes dest 0 (digits.take (room - 1).toNatClampNeg)
  writeByte dest stop 0

end Tenure.Interp
