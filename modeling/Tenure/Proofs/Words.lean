import Mathlib.Algebra.Group.Int.Defs
import Mathlib.Algebra.Group.Nat.Defs
import Tenure.Proofs.Running

/-!
# Integers of a width in words

An integer of `n` bits is a bit vector, and the machine keeps it in a word: `word` is the
canonical form of a bit vector, with one bit extended by zeros and any other width by its sign.
The words that are canonical for a width are exactly those of its bit vectors
(`isCanonical_iff`), and bringing a word into canonical form keeps its low bits
(`canonical_eq_word`).

Operations are done on whole words.  As the low bits of a sum, a difference, a product or a
bitwise operation come from the low bits of the operands, and a quotient is that of the numbers
that the words stand for, what comes out is the canonical form of the operation on bit vectors
(`words_implement_bits`).  Comparisons with sign and extensions by the sign read the word as it
is.  That is right at every width but one (`signs_are_read_iff`): a single bit that is set counts
as one and not as minus one (`one_bit_has_no_sign`).
-/

namespace Tenure.Interp

open Ir (BinOp Comparison Operand Op)

variable {n k : Nat}

/-! ## Canonical forms -/

/-- The canonical form of a bit vector.  A word has only the low bits of one that is wider. -/
def word (x : BitVec n) : Int64 :=
  .ofBitVec (if n = 1 then x.setWidth 64 else x.signExtend 64)

/-- The words that are canonical for a width: zero and one for one bit, else the numbers with a
sign that this many bits can hold. -/
def IsCanonical (n : Nat) (w : Int64) : Prop :=
  if n = 1 then w = 0 ∨ w = 1 else -2 ^ (n - 1) ≤ w.toInt ∧ w.toInt < 2 ^ (n - 1)

theorem word_of_ne_one (hn : n ≠ 1) (x : BitVec n) : word x = .ofBitVec (x.signExtend 64) := by
  rw [word, if_neg hn]

theorem word_one (x : BitVec 1) : word x = .ofBitVec (x.setWidth 64) := rfl

/-- From two bits on a word is the number that its bits are. -/
theorem toInt_word (hn : n ≠ 1) (hle : n ≤ 64) (x : BitVec n) : (word x).toInt = x.toInt := by
  rw [word_of_ne_one hn, Int64.toInt_ofBitVec, BitVec.toInt_signExtend_of_le hle]

variable {x y : BitVec n} {X Y : BitVec 64} {c : Comparison}

/-- The low bits of a word are those of a narrower integer if the numbers agree up to a multiple
of the power of two. -/
theorem setWidth_of_toInt (hle : n ≤ 64) (h : X.toInt.bmod (2 ^ n) = x.toInt) :
    X.setWidth n = x := by
  rw [← BitVec.signExtend_eq_setWidth_of_le _ hle]
  refine BitVec.eq_of_toInt_eq ?_
  rw [BitVec.toInt_signExtend, Nat.min_eq_left hle, h]

/-- The bits of a word of a narrower integer. -/
theorem setWidth_word (hle : n ≤ 64) (x : BitVec n) : (word x).toBitVec.setWidth n = x := by
  by_cases hn : n = 1
  · subst hn
    rw [word_one, Int64.toBitVec_ofBitVec, BitVec.setWidth_setWidth_of_le _ (by decide),
      BitVec.setWidth_eq]
  · refine setWidth_of_toInt hle ?_
    rw [word_of_ne_one hn, Int64.toBitVec_ofBitVec, BitVec.toInt_signExtend_of_le hle,
      BitVec.toInt_bmod_cancel]

theorem word_injective (hle : n ≤ 64) (h : word x = word y) : x = y := by
  rw [← setWidth_word hle x, h, setWidth_word hle y]

/-- The canonical form of a word is that of its low bits. -/
theorem canonical_eq_word (n : Nat) (w : Int64) : canonical n w = word (w.toBitVec.setWidth n) := by
  by_cases hn : n = 1
  · subst hn
    rw [canonical, if_pos rfl, word_one, ← Int64.toBitVec_inj, Int64.toBitVec_ofBitVec,
      Int64.toBitVec_and]
    ext i hi
    simp only [BitVec.getElem_and, BitVec.getElem_setWidth, BitVec.getLsbD_setWidth]
    have hone : (1 : Int64).toBitVec[i] = decide (i = 0) := by
      have hbits : (1 : Int64).toBitVec = 1#64 := rfl
      rw [hbits, BitVec.getElem_one]
    rw [hone]
    by_cases hi0 : i = 0
    · subst hi0
      simp [BitVec.getLsbD_eq_getElem]
    · simp [hi0]
  · rw [canonical, if_neg hn, word_of_ne_one hn]
    split
    · next hwide =>
      refine Int64.toBitVec_inj.mp ?_
      rw [Int64.toBitVec_ofBitVec, BitVec.signExtend_eq_setWidth_of_le _ hwide,
        BitVec.setWidth_setWidth_of_le _ hwide, BitVec.setWidth_eq]
    · rfl

theorem isCanonical_word (hpos : 1 ≤ n) (hle : n ≤ 64) (x : BitVec n) : IsCanonical n (word x) := by
  unfold IsCanonical
  split
  · next hn =>
    subst hn
    have hall : ∀ x : BitVec 1, word x = 0 ∨ word x = 1 := by decide
    exact hall x
  · next hn =>
    rw [toInt_word hn hle]
    exact ⟨x.le_toInt, x.toInt_lt⟩

/-- The words that are canonical for a width are those of its bit vectors. -/
theorem isCanonical_iff (hpos : 1 ≤ n) (hle : n ≤ 64) (w : Int64) :
    IsCanonical n w ↔ ∃ x : BitVec n, w = word x := by
  refine ⟨fun h => ⟨w.toBitVec.setWidth n, ?_⟩, ?_⟩
  · unfold IsCanonical at h
    split at h
    · next hn =>
      subst hn
      rcases h with rfl | rfl <;> decide
    · next hn =>
      rw [← Int64.toInt_inj, toInt_word hn hle, ← BitVec.signExtend_eq_setWidth_of_le _ hle,
        BitVec.toInt_signExtend, Nat.min_eq_left hle]
      have htwo : (2 : Int) ^ n = 2 ^ (n - 1) * 2 := by
        rw [← Int.pow_succ, Nat.succ_eq_add_one, Nat.sub_add_cancel hpos]
      exact (Int.bmod_eq_of_le_mul_two (by push_cast; omega) (by push_cast; omega)).symm
  · rintro ⟨x, rfl⟩
    exact isCanonical_word hpos hle x

/-! ## Operations -/

/-- A binary operation on bit vectors; division rounds towards zero. -/
def bitsOp : BinOp → BitVec n → BitVec n → BitVec n
  | .add, x, y => x + y
  | .sub, x, y => x - y
  | .mul, x, y => x * y
  | .sdiv, x, y => x.sdiv y
  | .srem, x, y => x.srem y
  | .and, x, y => x &&& y
  | .or, x, y => x ||| y
  | .xor, x, y => x ^^^ y
  | .shl, x, y => x <<< y
  | .udiv, x, y => x.udiv y

/-- A comparison of bit vectors, with a sign or without. -/
def compareBits : Comparison → BitVec n → BitVec n → Bool
  | .eq, x, y => x == y
  | .ne, x, y => x != y
  | .slt, x, y => x.slt y
  | .sle, x, y => x.sle y
  | .sgt, x, y => y.slt x
  | .sge, x, y => y.sle x
  | .ult, x, y => x.ult y
  | .ule, x, y => x.ule y
  | .ugt, x, y => y.ult x
  | .uge, x, y => y.ule x

/-- Whether a comparison reads its operands with a sign. -/
def isSigned : Comparison → Bool
  | .slt | .sle | .sgt | .sge => true
  | _ => false

/-- The operations that divide. -/
def divides : BinOp → Bool
  | .sdiv | .srem => true
  | _ => false

/-- The low bits of a quotient of words are the quotient of the low bits, as long as the words are
the numbers that these bits are. -/
theorem setWidth_sdiv (hle : n ≤ 64) (hX : X.toInt = x.toInt) (hY : Y.toInt = y.toInt) :
    (X.sdiv Y).setWidth n = x.sdiv y := by
  refine setWidth_of_toInt hle ?_
  rw [BitVec.toInt_sdiv, BitVec.toInt_sdiv, hX, hY, Int.bmod_bmod_of_dvd (Nat.pow_dvd_pow 2 hle)]

theorem setWidth_srem (hle : n ≤ 64) (hX : X.toInt = x.toInt) (hY : Y.toInt = y.toInt) :
    (X.srem Y).setWidth n = x.srem y := by
  refine setWidth_of_toInt hle ?_
  rw [BitVec.toInt_srem, hX, hY, ← BitVec.toInt_srem, BitVec.toInt_bmod_cancel]

theorem word_eq_zero_iff (hle : n ≤ 64) (y : BitVec n) : word y = 0 ↔ y = 0 := by
  have hzero : word (0 : BitVec n) = 0 := by
    by_cases hn : n = 1
    · subst hn
      rfl
    · rw [← Int64.toInt_inj, toInt_word hn hle, Int64.toInt_zero]
      exact BitVec.toInt_zero
  exact ⟨fun h => word_injective hle (h.trans hzero.symm), fun h => h ▸ hzero⟩

/-- What an operation on canonical words gives has the bits of the operation on bit vectors. -/
theorem wordOp_word (hpos : 1 ≤ n) (hle : n ≤ 64) {op : BinOp}
    {apply : Int64 → Int64 → Except Fault Int64} (hop : wordOp op = some apply) (x y : BitVec n)
    (hy : divides op → y ≠ 0) :
    ∃ w, apply (word x) (word y) = .ok w ∧ w.toBitVec.setWidth n = bitsOp op x y := by
  have hx' := setWidth_word hle x
  have hy' := setWidth_word hle y
  have hne : divides op → word y ≠ 0 := fun hd h => hy hd ((word_eq_zero_iff hle y).mp h)
  cases op <;> simp only [wordOp, Option.some.injEq, reduceCtorEq] at hop <;> subst hop
  case' add | sub | mul | and | or | xor => refine ⟨_, rfl, ?_⟩
  case add =>
    rw [Int64.toBitVec_add, BitVec.setWidth_add _ _ hle, hx', hy', bitsOp]
  case sub =>
    rw [Int64.toBitVec_sub, BitVec.sub_eq_add_neg, BitVec.setWidth_add _ _ hle,
      BitVec.setWidth_neg_of_le hle, hx', hy', bitsOp, BitVec.sub_eq_add_neg]
  case mul =>
    rw [Int64.toBitVec_mul, BitVec.setWidth_mul _ _ hle, hx', hy', bitsOp]
  case and =>
    rw [Int64.toBitVec_and, BitVec.setWidth_and, hx', hy', bitsOp]
  case or =>
    rw [Int64.toBitVec_or, BitVec.setWidth_or, hx', hy', bitsOp]
  case xor =>
    rw [Int64.toBitVec_xor, BitVec.setWidth_xor, hx', hy', bitsOp]
  case sdiv =>
    refine ⟨word x / word y, if_neg (hne rfl), ?_⟩
    rw [Int64.toBitVec_div, bitsOp]
    by_cases hn : n = 1
    · subst hn
      revert x y
      decide
    · exact setWidth_sdiv hle (toInt_word hn hle x) (toInt_word hn hle y)
  case srem =>
    refine ⟨word x % word y, if_neg (hne rfl), ?_⟩
    rw [Int64.toBitVec_mod, bitsOp]
    by_cases hn : n = 1
    · subst hn
      revert x y
      decide
    · exact setWidth_srem hle (toInt_word hn hle x) (toInt_word hn hle y)

theorem toBitVec_zeroExtended_word (hle : n ≤ 64) (x : BitVec n) :
    (zeroExtended n (word x)).toBitVec = x.setWidth 64 := by
  rw [zeroExtended]
  split
  · next hwide =>
    obtain rfl : n = 64 := Nat.le_antisymm hle hwide
    rw [BitVec.setWidth_eq, ← BitVec.setWidth_eq (word x).toBitVec, setWidth_word hle]
  · rw [Int64.toBitVec_ofBitVec, setWidth_word hle]

theorem toNat_zeroExtended_word (hle : n ≤ 64) (x : BitVec n) :
    (zeroExtended n (word x)).toUInt64.toNat = x.toNat := by
  have hnat : (zeroExtended n (word x)).toUInt64.toNat = (zeroExtended n (word x)).toBitVec.toNat :=
    rfl
  rw [hnat, toBitVec_zeroExtended_word hle, BitVec.toNat_setWidth_of_le hle]

/-- Without a sign, words compare as their bits do. -/
theorem compareInts_word (hle : n ≤ 64) (hc : isSigned c = false) (x y : BitVec n) :
    compareInts c n (word x) (word y) = compareBits c x y := by
  have heq : word x = word y ↔ x = y := ⟨word_injective hle, fun h => h ▸ rfl⟩
  cases c <;> simp only [isSigned, reduceCtorEq] at hc <;>
    simp only [compareInts, compareBits, UInt64.lt_iff_toNat_lt, UInt64.le_iff_toNat_le,
      toNat_zeroExtended_word hle, BitVec.ult, BitVec.ule]
  case eq => exact decide_eq_decide.mpr heq
  case ne => exact congrArg not (decide_eq_decide.mpr heq)

/-! ## Changes of width -/

/-- Low bits do not depend on how the others were filled. -/
theorem setWidth_word_of_lt (hle : n ≤ 64) (hlt : n < k) (hpos : 1 ≤ n) (x : BitVec k) :
    (word x).toBitVec.setWidth n = x.setWidth n := by
  rw [word_of_ne_one (by omega), Int64.toBitVec_ofBitVec]
  ext i hi
  have hword : i < 64 := by omega
  have hin : i < k := by omega
  rw [BitVec.getElem_setWidth, BitVec.getElem_setWidth, BitVec.getLsbD_signExtend]
  simp [hword, hin]

/-- Extended by zeros, a word is the canonical form of the wider integer, whose sign is zero. -/
theorem zeroExtended_word (hle : n ≤ 64) (hlt : n < k) (hpos : 1 ≤ n) (x : BitVec n) :
    zeroExtended n (word x) = word (x.setWidth k) := by
  rw [word_of_ne_one (n := k) (by omega), ← Int64.toBitVec_inj, toBitVec_zeroExtended_word hle,
    Int64.toBitVec_ofBitVec]
  by_cases hwide : 64 ≤ k
  · rw [BitVec.signExtend_eq_setWidth_of_le _ hwide, BitVec.setWidth_setWidth_of_le _ hwide]
  · have hmsb : (x.setWidth k).msb = false := by
      rw [BitVec.msb_setWidth, BitVec.getLsbD_of_ge x _ (by omega), Bool.and_false]
    rw [BitVec.signExtend_eq_setWidth_of_msb_false hmsb]
    ext i hi
    simp only [BitVec.getElem_setWidth, BitVec.getLsbD_setWidth]
    by_cases hik : i < k
    · simp [hik]
    · simp [hik, BitVec.getLsbD_of_ge x i (by omega)]

/-! ## Instructions -/

/-- An operand of an integer type holds the canonical form of a bit vector. -/
structure Call.HasBits (C : Call) (w : World) (x : Operand) (a : BitVec n) : Prop where
  ty : x.ty = .int n
  value : C.Means w.regs x (.int (word a))

/-- An instruction gives a value and leaves memory alone, wherever it stands. -/
def Call.Computes (C : Call) (w : World) (op : Op) (v : Value) : Prop :=
  ∀ b k, execute C.code (C.frame b k w) op w.memory = .ok (.value v) w.memory

/-- Integer instructions compute the canonical forms of what the operations on bit vectors
give. -/
structure ImplementsBits (C : Call) (w : World) (n : Nat) : Prop where
  canonical_iff : ∀ a : Int64, IsCanonical n a ↔ ∃ x : BitVec n, a = word x
  faithful : ∀ x y : BitVec n, word x = word y → x = y
  bin : ∀ (op : BinOp) (a b : Operand) (x y : BitVec n), op ≠ .shl → op ≠ .udiv →
    C.HasBits w a x → C.HasBits w b y → (divides op → y ≠ 0) →
    C.Computes w (.bin op a b) (.int (word (bitsOp op x y)))
  trunc : ∀ (k : Nat) (a : Operand) (x : BitVec k), n < k → C.HasBits w a x →
    C.Computes w (.cast .trunc a (.int n)) (.int (word (x.setWidth n)))
  zext : ∀ (k : Nat) (a : Operand) (x : BitVec n), n < k → C.HasBits w a x →
    C.Computes w (.cast .zext a (.int k)) (.int (word (x.setWidth k)))
  icmp : ∀ (c : Comparison) (a b : Operand) (x y : BitVec n), isSigned c = false →
    C.HasBits w a x → C.HasBits w b y →
    C.Computes w (.icmp c a b) (.int (word (BitVec.ofBool (compareBits c x y))))

section Instructions

variable {C : Call} {w : World} {a b : Operand} {op : BinOp} {c : Comparison}

theorem truth_eq_word (t : Bool) : truth t = .int (word (BitVec.ofBool t)) := by
  cases t <;> rfl

variable {x y : BitVec n}

theorem computes_bin (hpos : 1 ≤ n) (hle : n ≤ 64) (hshl : op ≠ .shl) (hudiv : op ≠ .udiv)
    (ha : C.HasBits w a x) (hb : C.HasBits w b y) (hy : divides op → y ≠ 0) :
    C.Computes w (.bin op a b) (.int (word (bitsOp op x y))) := by
  obtain ⟨apply, hop⟩ : ∃ apply, wordOp op = some apply := by
    cases op with
    | shl | udiv => contradiction
    | _ => exact ⟨_, rfl⟩
  obtain ⟨z, hz, hbits⟩ := wordOp_word hpos hle hop x y hy
  intro i j
  rw [execute_bin hop ha.ty ha.value hb.value hz, canonical_eq_word, hbits]

theorem computes_trunc (hpos : 1 ≤ n) (hle : n ≤ 64) (hlt : n < k) {x : BitVec k}
    (ha : C.HasBits w a x) :
    C.Computes w (.cast .trunc a (.int n)) (.int (word (x.setWidth n))) := by
  intro i j
  simp only [execute]
  rw [Access.bind_of_ok (evalInt_of_means ha.value), canonical_eq_word,
    setWidth_word_of_lt hle hlt hpos]
  rfl

theorem computes_zext (hpos : 1 ≤ n) (hle : n ≤ 64) (hlt : n < k) (ha : C.HasBits w a x) :
    C.Computes w (.cast .zext a (.int k)) (.int (word (x.setWidth k))) := by
  intro i j
  have hwidth : staticWidth a w.memory = .ok n w.memory := by
    rw [staticWidth, ha.ty]
    rfl
  simp only [execute]
  rw [Access.bind_of_ok (evalInt_of_means ha.value), Access.bind_of_ok hwidth,
    zeroExtended_word hle hlt hpos]
  rfl

theorem computes_icmp {t : Bool} (ha : C.HasBits w a x) (hb : C.HasBits w b y)
    (ht : compareInts c n (word x) (word y) = t) :
    C.Computes w (.icmp c a b) (.int (word (BitVec.ofBool t))) := by
  intro i j
  rw [execute_icmp ha.ty ha.value hb.value, ht, truth_eq_word]

/-- At every width from one to 64 bits, the integer instructions are those of bit vectors. -/
theorem words_implement_bits (hpos : 1 ≤ n) (hle : n ≤ 64) : ImplementsBits C w n where
  canonical_iff := isCanonical_iff hpos hle
  faithful _ _ := word_injective hle
  bin _ _ _ _ _ hshl hudiv ha hb hy := computes_bin hpos hle hshl hudiv ha hb hy
  trunc _ _ _ hlt ha := computes_trunc hpos hle hlt ha
  zext _ _ _ hlt ha := computes_zext hpos hle hlt ha
  icmp _ _ _ x y hc ha hb := computes_icmp ha hb (compareInts_word hle hc x y)

/-- An integer constant is canonical from the start. -/
theorem hasBits_const (hle : n ≤ 64) (v : Int) :
    C.HasBits w (.const (.int n v)) (BitVec.ofInt n v) where
  ty := rfl
  value m := by
    have hbits : (Int64.ofInt v).toBitVec.setWidth n = BitVec.ofInt n v := by
      refine setWidth_of_toInt hle ?_
      rw [Int64.toBitVec_ofInt, BitVec.toInt_ofInt, BitVec.toInt_ofInt,
        Int.bmod_bmod_of_dvd (Nat.pow_dvd_pow 2 hle)]
    rw [evalConst, canonical_eq_word, hbits]
    rfl

end Instructions

/-- A function without code is called on an empty machine. -/
def idleCall : Call where
  machine := { code := { funcs := #[default] } }
  func := 0
  body := default
  isBody := rfl
  args := #[]
  rest := []

/-- Nothing has happened yet. -/
def idleWorld : World := { memory := {}, output := {} }

/-- The least number of eight bits divided by minus one is itself, and as a number without sign
it is greater than one. -/
theorem words_implement_bits_least :
    idleCall.Computes idleWorld
      (.bin .sdiv (.const (.int 8 (-128))) (.const (.int 8 (-1)))) (.int (-128)) ∧
    idleCall.Computes idleWorld
      (.icmp .ugt (.const (.int 8 (-128))) (.const (.int 8 1))) (.int 1) := by
  have h : ImplementsBits idleCall idleWorld 8 := words_implement_bits (by decide) (by decide)
  have hconst : ∀ v, idleCall.HasBits idleWorld (.const (.int 8 v)) (BitVec.ofInt 8 v) :=
    hasBits_const (by decide)
  exact ⟨h.bin .sdiv _ _ _ _ (by decide) (by decide) (hconst _) (hconst _) (by decide),
    h.icmp .ugt _ _ _ _ rfl (hconst _) (hconst _)⟩

/-! ## Signs -/

/-- With a sign, integers are extended and compared as the numbers that their bits are. -/
structure ReadsSigned (C : Call) (w : World) (n : Nat) : Prop where
  sext : ∀ (k : Nat) (a : Operand) (x : BitVec n), n < k → C.HasBits w a x →
    C.Computes w (.cast .sext a (.int k)) (.int (word (x.signExtend k)))
  icmp : ∀ (c : Comparison) (a b : Operand) (x y : BitVec n), isSigned c = true →
    C.HasBits w a x → C.HasBits w b y →
    C.Computes w (.icmp c a b) (.int (word (BitVec.ofBool (compareBits c x y))))

/-- From two bits on, words compare as the numbers that their bits are. -/
theorem compareInts_word_of_signed (hn : n ≠ 1) (hle : n ≤ 64) (hc : isSigned c = true)
    (x y : BitVec n) : compareInts c n (word x) (word y) = compareBits c x y := by
  cases c <;> simp only [isSigned, Bool.false_eq_true] at hc <;>
    simp only [compareInts, compareBits, Int64.lt_iff_toInt_lt, Int64.le_iff_toInt_le,
      toInt_word hn hle, BitVec.slt, BitVec.sle]

/-- From two bits on, an extension by the sign leaves the canonical form as it is. -/
theorem word_signExtend (hpos : 1 ≤ n) (hn : n ≠ 1) (hle : n ≤ 64) (hlt : n < k) (x : BitVec n) :
    word (x.signExtend k) = word x := by
  have hpow : 2 ^ n ≤ 2 ^ min 64 k := Nat.pow_le_pow_right (by decide) (by omega)
  have hpow' : ((2 ^ n : Nat) : Int) ≤ (2 ^ min 64 k : Nat) := Int.ofNat_le.mpr hpow
  have hlow := x.le_two_mul_toInt
  have hhigh := x.two_mul_toInt_lt
  push_cast at hpow'
  rw [word_of_ne_one (n := k) (by omega), word_of_ne_one hn]
  refine congrArg Int64.ofBitVec (BitVec.eq_of_toInt_eq ?_)
  rw [BitVec.toInt_signExtend, BitVec.toInt_signExtend_of_le (Nat.le_of_lt hlt),
    BitVec.toInt_signExtend_of_le hle]
  exact Int.bmod_eq_of_le_mul_two (by push_cast; omega) (by push_cast; omega)

/-- The result of an extension by the sign is the word as it was. -/
theorem computes_sext {C : Call} {w : World} {a : Operand} (ha : C.HasBits w a x) :
    C.Computes w (.cast .sext a (.int k)) (.int (word x)) := by
  intro i j
  simp only [execute]
  rw [Access.bind_of_ok (eval_of_means ha.value)]
  rfl

/-- A single bit is extended and compared as zero or one, so a set one does not count as minus
one. -/
theorem one_bit_has_no_sign :
    ∃ (C : Call) (w : World) (a b : Operand), C.HasBits w a 1#1 ∧ C.HasBits w b 0#1 ∧
      C.Computes w (.cast .sext a .i8) (.int 1) ∧ word (BitVec.signExtend 8 1#1) = -1 ∧
      C.Computes w (.icmp .slt a b) (.int 0) ∧ compareBits .slt 1#1 0#1 = true := by
  have ha : idleCall.HasBits idleWorld (.const (.int 1 1)) 1#1 := hasBits_const (by decide) 1
  have hb : idleCall.HasBits idleWorld (.const (.int 1 0)) 0#1 := hasBits_const (by decide) 0
  exact ⟨_, _, _, _, ha, hb, computes_sext ha, by decide,
    computes_icmp (t := false) ha hb (by decide), by decide⟩

/-- Signs are read right at every width but one bit. -/
theorem signs_are_read_iff (hpos : 1 ≤ n) (hle : n ≤ 64) :
    (∀ C w, ReadsSigned C w n) ↔ n ≠ 1 := by
  refine ⟨?_, fun hn C w => ⟨fun k a x hlt ha => ?_, fun c a b x y hc ha hb => ?_⟩⟩
  · rintro h rfl
    have ha : idleCall.HasBits idleWorld (.const (.int 1 1)) 1#1 := hasBits_const (by decide) 1
    have hminus := (h _ _).sext 8 _ _ (by decide) ha 0 0
    rw [computes_sext ha 0 0] at hminus
    injection hminus with hvalue
    injection hvalue with hvalue
    injection hvalue with hvalue
    exact absurd hvalue (by decide)
  · rw [word_signExtend hpos hn hle hlt]
    exact computes_sext ha
  · exact computes_icmp ha hb (compareInts_word_of_signed hn hle hc x y)

theorem signs_are_read_iff_bytes :
    idleCall.Computes idleWorld (.cast .sext (.const (.int 8 (-3))) (.int 16)) (.int (-3)) ∧
    idleCall.Computes idleWorld
      (.icmp .slt (.const (.int 8 (-3))) (.const (.int 8 2))) (.int 1) := by
  have h := (signs_are_read_iff (n := 8) (by decide) (by decide)).mpr (by decide)
  have hconst : ∀ v, idleCall.HasBits idleWorld (.const (.int 8 v)) (BitVec.ofInt 8 v) :=
    hasBits_const (by decide)
  exact ⟨(h _ _).sext 16 _ _ (by decide) (hconst _),
    (h _ _).icmp .slt _ _ _ _ rfl (hconst _) (hconst _)⟩

end Tenure.Interp
