import ThreeAddress.Proofs.WordRange

/-!
# Two's complement

The operations are defined on unbounded integers, with a reduction to 64 bits at the end. This
module compares them with the operations on vectors of 64 bits: `BinaryOp.onBits` and
`UnaryOp.onBits` say for each opcode which operation of bit vectors it is, and a word stands for its
bits in two's complement.

1. `toInt_bits`: reduction to a word is the signed reading of the bits, so the two agree on any
   result that is reduced, overflow included. What remains are the remainder, which needs no
   reduction, and the comparisons.
2. `truncDiv_eq_tdiv`, `wrap_div_add_mod`, `natAbs_tmod_lt`: division goes toward zero, and quotient
   and remainder belong together, also where the quotient overflows.
3. `evalBinary_zeroDivisor_iff`, `evalBinary_congr`: on any integers, words or not, only a zero
   divisor is reported as one, and sums, differences and products are taken modulo the number of
   words.
-/

namespace ThreeAddress

variable {op : String} {a b n : Int}

/-! ## Bits -/

/-- The bits of an integer in two's complement, those above the 64th cut off. -/
def bits (n : Int) : BitVec 64 := BitVec.ofInt 64 n

/-- A truth value as bits. -/
def bitsOfBool (b : Bool) : BitVec 64 := (BitVec.ofBool b).setWidth 64

/-- The signed reading of the bits is the word that the integer is reduced to. -/
theorem toInt_bits (n : Int) : (bits n).toInt = wrap n :=
  (BitVec.toInt_ofInt n).trans (wrap_eq_bmod n).symm

theorem toInt_bitsOfBool (b : Bool) : (bitsOfBool b).toInt = ofBool b := by
  cases b <;> rfl

theorem wrap_of_isWord (h : IsWord n) : wrap n = n := by
  have hcount : (wordCount : Int) = 0x10000000000000000 := rfl
  unfold IsWord at h
  rw [wrap_eq_bmod]
  refine Int.bmod_eq_of_le ?_ ?_ <;> omega

theorem toInt_bits_of_isWord (h : IsWord n) : (bits n).toInt = n :=
  (toInt_bits n).trans (wrap_of_isWord h)

/-- Words are told apart by their bits. -/
theorem bits_inj (ha : IsWord a) (hb : IsWord b) : bits a = bits b ↔ a = b := by
  rw [← BitVec.toInt_inj, toInt_bits_of_isWord ha, toInt_bits_of_isWord hb]

/-! ## Operations on bits -/

namespace BinaryOp

/-- How the operation is written. -/
def mnemonic : BinaryOp → String
  | add => "add"
  | sub => "sub"
  | mul => "mul"
  | div => "div"
  | mod => "mod"
  | eq => "eq"
  | ne => "ne"
  | lt => "lt"
  | le => "le"
  | gt => "gt"
  | ge => "ge"

/-- The operation on bit vectors: division goes toward zero, the remainder has the sign of the
dividend, and comparisons are signed. -/
def onBits : BinaryOp → BitVec 64 → BitVec 64 → BitVec 64
  | add, x, y => x + y
  | sub, x, y => x - y
  | mul, x, y => x * y
  | div, x, y => x.sdiv y
  | mod, x, y => x.srem y
  | eq, x, y => bitsOfBool (x == y)
  | ne, x, y => bitsOfBool (x != y)
  | lt, x, y => bitsOfBool (x.slt y)
  | le, x, y => bitsOfBool (x.sle y)
  | gt, x, y => bitsOfBool (y.slt x)
  | ge, x, y => bitsOfBool (y.sle x)

theorem ofName?_mnemonic (o : BinaryOp) : ofName? o.mnemonic = some o := by
  cases o <;> rfl

theorem mnemonic_of_ofName? {o : BinaryOp} (h : ofName? op = some o) : op = o.mnemonic := by
  unfold ofName? at h
  split at h <;> cases h <;> rfl

end BinaryOp

namespace UnaryOp

/-- How the operation is written. -/
def mnemonic : UnaryOp → String
  | neg => "neg"
  | not => "not"

/-- The operation on bit vectors; `not` tells whether all bits are zero. -/
def onBits : UnaryOp → BitVec 64 → BitVec 64
  | neg, x => -x
  | not, x => bitsOfBool (x == 0)

theorem ofName?_mnemonic (o : UnaryOp) : ofName? o.mnemonic = some o := by
  cases o <;> rfl

end UnaryOp

theorem evalBinary_mnemonic (o : BinaryOp) (a b : Int) :
    evalBinary o.mnemonic a b = o.eval a b := by
  rw [evalBinary, o.ofName?_mnemonic]

theorem evalUnary_mnemonic (o : UnaryOp) (a : Int) : evalUnary o.mnemonic a = .ok (o.eval a) := by
  rw [evalUnary, o.ofName?_mnemonic]

/-! ## Words are their bits -/

section Words

/-- Dividing the magnitudes and setting the sign is division toward zero. -/
theorem truncDiv_eq_tdiv (a b : Int) : truncDiv a b = a.tdiv b := by
  unfold truncDiv
  cases a with
  | ofNat m =>
    have hm : ¬ Int.ofNat m < 0 := Int.not_lt.2 (Int.natCast_nonneg m)
    cases b with
    | ofNat n => exact if_pos (iff_of_false hm (Int.not_lt.2 (Int.natCast_nonneg n)))
    | negSucc n => exact if_neg fun h => hm (h.2 (Int.negSucc_lt_zero n))
  | negSucc m =>
    have hm : Int.negSucc m < 0 := Int.negSucc_lt_zero m
    cases b with
    | ofNat n => exact if_neg fun h => Int.not_lt.2 (Int.natCast_nonneg n) (h.1 hm)
    | negSucc n => exact if_pos (iff_of_true hm (Int.negSucc_lt_zero n))

/-- What is left then has the sign of the dividend. -/
theorem sub_mul_truncDiv (a b : Int) : a - b * truncDiv a b = a.tmod b := by
  rw [truncDiv_eq_tdiv, Int.tmod_def]

/-- The remainder is smaller than the divisor. -/
theorem natAbs_tmod_lt (a : Int) (hzero : b ≠ 0) : (a.tmod b).natAbs < b.natAbs := by
  rw [Int.natAbs_tmod]
  exact Nat.mod_lt _ (Int.natAbs_pos.2 hzero)

/-- So it is a word if the divisor is, and needs no reduction. -/
theorem wrap_tmod (a : Int) (hb : IsWord b) (hzero : b ≠ 0) : wrap (a.tmod b) = a.tmod b := by
  have hlt := natAbs_tmod_lt a hzero
  refine wrap_of_isWord ?_
  unfold IsWord at hb ⊢
  omega

/-- On words an operation is the one on bit vectors, unless it divides by zero. -/
theorem BinaryOp.eval_eq_onBits (o : BinaryOp) (ha : IsWord a) (hb : IsWord b)
    (hzero : o = .div ∨ o = .mod → b ≠ 0) :
    o.eval a b = .ok (o.onBits (bits a) (bits b)).toInt := by
  have hx := toInt_bits_of_isWord ha
  have hy := toInt_bits_of_isWord hb
  cases o with
  | add =>
    rw [eval, wrap_eq_bmod, onBits, BitVec.toInt_add, hx, hy]
    rfl
  | sub =>
    rw [eval, wrap_eq_bmod, onBits, BitVec.toInt_sub, hx, hy]
    rfl
  | mul =>
    rw [eval, wrap_eq_bmod, onBits, BitVec.toInt_mul, hx, hy]
    rfl
  | div =>
    rw [eval, if_neg (hzero (.inl rfl)), wrap_eq_bmod, truncDiv_eq_tdiv, onBits, BitVec.toInt_sdiv,
      hx, hy]
    rfl
  | mod =>
    have hb0 := hzero (.inr rfl)
    rw [eval, if_neg hb0, sub_mul_truncDiv, onBits, BitVec.toInt_srem, hx, hy, wrap_tmod a hb hb0]
  | eq =>
    rw [onBits, toInt_bitsOfBool, beq_eq_decide, decide_eq_decide.2 (bits_inj ha hb)]
    rfl
  | ne =>
    rw [onBits, toInt_bitsOfBool, bne, beq_eq_decide, decide_eq_decide.2 (bits_inj ha hb),
      ← decide_not]
    rfl
  | lt | gt =>
    rw [onBits, toInt_bitsOfBool, BitVec.slt_eq_decide, hx, hy]
    rfl
  | le | ge =>
    rw [onBits, toInt_bitsOfBool, BitVec.sle_eq_decide, hx, hy]
    rfl

theorem UnaryOp.eval_eq_onBits (o : UnaryOp) (ha : IsWord a) :
    o.eval a = (o.onBits (bits a)).toInt := by
  cases o with
  | neg =>
    rw [eval, wrap_eq_bmod, onBits, BitVec.toInt_neg, toInt_bits_of_isWord ha]
    rfl
  | not =>
    have hzero : bits a = 0 ↔ a = 0 := bits_inj ha isWord_zero
    rw [onBits, toInt_bitsOfBool, beq_eq_decide, decide_eq_decide.2 hzero]
    rfl

/-! ## Quotient and remainder -/

/-- Multiplied back, the quotient and the remainder give the dividend; where the quotient overflows,
the product does too. -/
theorem wrap_div_add_mod (ha : IsWord a) (b : Int) :
    wrap (b * wrap (truncDiv a b) + wrap (a - b * truncDiv a b)) = a := by
  have hadd : ∀ m n, wrap (b * wrap m + wrap n) = wrap (b * m + n) := by
    intro m n
    simp only [wrap_eq_bmod]
    rw [Int.add_bmod_bmod, ← Int.bmod_add_bmod, Int.mul_bmod_bmod, Int.bmod_add_bmod]
  calc wrap (b * wrap (truncDiv a b) + wrap (a - b * truncDiv a b))
      = wrap (b * truncDiv a b + (a - b * truncDiv a b)) := hadd _ _
    _ = wrap a := by rw [Int.add_comm, Int.sub_add_cancel]
    _ = a := wrap_of_isWord ha

end Words

/-! ## Any integers -/

/-- A zero divisor is reported by the two operations that divide, each with an error of its own. -/
theorem evalBinary_zeroDivisor_iff (op : String) (a b : Int) :
    (evalBinary op a b = .error .divisionByZero ↔ op = "div" ∧ b = 0) ∧
      (evalBinary op a b = .error .remainderByZero ↔ op = "mod" ∧ b = 0) := by
  cases ho : BinaryOp.ofName? op with
  | none =>
    have hne : ∀ o : BinaryOp, op ≠ o.mnemonic := by
      rintro o rfl
      rw [o.ofName?_mnemonic] at ho
      cases ho
    have heval : evalBinary op a b = .error (.unsupportedBinary op) := by rw [evalBinary, ho]
    rw [heval]
    refine ⟨⟨fun h => ?_, fun h => absurd h.1 (hne .div)⟩,
      ⟨fun h => ?_, fun h => absurd h.1 (hne .mod)⟩⟩
    · cases h
    · cases h
  | some o =>
    cases BinaryOp.mnemonic_of_ofName? ho
    rw [evalBinary_mnemonic]
    by_cases hb : b = 0 <;> cases o <;> simp [BinaryOp.eval, BinaryOp.mnemonic, hb]

/-- Sums, differences and products depend on the operands modulo the number of words. -/
theorem evalBinary_congr (hop : op ∈ ["add", "sub", "mul"]) {a' b' : Int}
    (ha : a % wordCount = a' % wordCount) (hb : b % wordCount = b' % wordCount) :
    evalBinary op a b = evalBinary op a' b' := by
  have hwrap : ∀ {m n : Int}, m % wordCount = n % wordCount → wrap m = wrap n := by
    intro m n h
    rw [wrap_eq_bmod, wrap_eq_bmod, ← Int.emod_bmod m, ← Int.emod_bmod n, h]
  simp only [List.mem_cons, List.not_mem_nil, or_false] at hop
  rcases hop with rfl | rfl | rfl
  · exact congrArg Except.ok (hwrap (by rw [Int.add_emod, ha, hb, ← Int.add_emod]))
  · exact congrArg Except.ok (hwrap (by rw [Int.sub_emod, ha, hb, ← Int.sub_emod]))
  · exact congrArg Except.ok (hwrap (by rw [Int.mul_emod, ha, hb, ← Int.mul_emod]))

/-! ## All opcodes -/

/-- Arithmetic is that of 64 bits in two's complement. On words every opcode gives the signed
reading of its operation on bit vectors, overflow included. Quotient and remainder by any word but
zero give back the dividend, and the remainder is smaller than the divisor. On any integers at all,
an operation reports a zero divisor exactly if it is a division or a remainder by zero, and sums,
differences and products are taken modulo the number of words. -/
theorem arithmetic_twosComplement :
    (∀ (o : BinaryOp) (a b : Int), IsWord a → IsWord b → (o = .div ∨ o = .mod → b ≠ 0) →
      evalBinary o.mnemonic a b = .ok (o.onBits (bits a) (bits b)).toInt) ∧
    (∀ (o : UnaryOp) (a : Int), IsWord a → evalUnary o.mnemonic a = .ok (o.onBits (bits a)).toInt) ∧
    (∀ a b : Int, IsWord a → IsWord b → b ≠ 0 →
      ∃ q r, evalBinary "div" a b = .ok q ∧ evalBinary "mod" a b = .ok r ∧
        wrap (b * q + r) = a ∧ r.natAbs < b.natAbs) ∧
    (∀ (op : String) (a b : Int),
      (evalBinary op a b = .error .divisionByZero ↔ op = "div" ∧ b = 0) ∧
      (evalBinary op a b = .error .remainderByZero ↔ op = "mod" ∧ b = 0)) ∧
    ∀ op ∈ ["add", "sub", "mul"], ∀ a a' b b' : Int,
      a % wordCount = a' % wordCount → b % wordCount = b' % wordCount →
        evalBinary op a b = evalBinary op a' b' := by
  refine ⟨fun o a b ha hb hzero => ?_, fun o a ha => ?_, fun a b ha hb hzero => ?_,
    evalBinary_zeroDivisor_iff, fun op hop a a' b b' ha hb => evalBinary_congr hop ha hb⟩
  · exact (evalBinary_mnemonic o a b).trans (o.eval_eq_onBits ha hb hzero)
  · rw [evalUnary_mnemonic, o.eval_eq_onBits ha]
  · refine ⟨_, _, if_neg hzero, if_neg hzero, wrap_div_add_mod ha b, ?_⟩
    rw [sub_mul_truncDiv, wrap_tmod a hb hzero]
    exact natAbs_tmod_lt a hzero

/-- The least word: divided by -1 it overflows to itself and nothing remains, and so it does when it
is negated. -/
theorem arithmetic_twosComplement_leastWord :
    IsWord (-0x8000000000000000) ∧ IsWord (-1) ∧
      evalBinary "div" (-0x8000000000000000) (-1) = .ok (-0x8000000000000000) ∧
      evalBinary "mod" (-0x8000000000000000) (-1) = .ok 0 ∧
      evalUnary "neg" (-0x8000000000000000) = .ok (-0x8000000000000000) ∧
      (∃ q r, evalBinary "div" (-0x8000000000000000) (-1) = .ok q ∧
        evalBinary "mod" (-0x8000000000000000) (-1) = .ok r ∧
        wrap (-1 * q + r) = -0x8000000000000000 ∧ r.natAbs < 1) ∧
      evalBinary "mul" 0x10000000000000003 (-2) = evalBinary "mul" 3 (-2) := by
  have least : IsWord (-0x8000000000000000) := by decide
  have minusOne : IsWord (-1) := by decide
  obtain ⟨binary, unary, division, _, modulo⟩ := arithmetic_twosComplement
  exact ⟨least, minusOne, binary .div _ _ least minusOne (by decide),
    binary .mod _ _ least minusOne (by decide), unary .neg _ least,
    division _ _ least minusOne (by decide),
    modulo "mul" (by decide) _ _ _ _ (by decide) rfl⟩

end ThreeAddress
