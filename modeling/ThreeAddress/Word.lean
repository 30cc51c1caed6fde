/-!
# Words

The integers that a program computes with are signed 64-bit words: results of arithmetic wrap
around, division goes toward zero and the remainder takes the sign of the dividend. Opcodes are
named by mnemonics; a mnemonic that names no operation is kept as it is and fails when it is
evaluated.
-/

namespace ThreeAddress

/-- The number of words: 64 bits make so many. -/
def wordCount : Nat := 0x10000000000000000

/-- The bits of a word. -/
def wordMask : Nat := 0xFFFFFFFFFFFFFFFF

/-- The bit of a word that makes it negative. -/
def signBit : Nat := 0x8000000000000000

/-- The bits of an integer that a mask lets through. The bits of `-(n + 1)` are those that `n` does
not have. -/
def masked (mask : Nat) : Int → Nat
  | .ofNat n => n &&& mask
  | .negSucc n => mask ^^^ (n &&& mask)

/-- Reduces an integer to the range of a signed 64-bit word. -/
def wrap (n : Int) : Int :=
  let word := masked wordMask n
  if word &&& signBit ≠ 0 then word - wordCount else word

/-- Divides toward zero: the magnitudes are divided, and the signs tell that of the result. -/
def truncDiv (a b : Int) : Int :=
  let q : Int := (a.natAbs / b.natAbs : Nat)
  if a < 0 ↔ b < 0 then q else -q

/-- The operations of two operands. -/
inductive BinaryOp where
  | add | sub | mul | div | mod | eq | ne | lt | le | gt | ge
deriving DecidableEq

/-- The operations of one operand. -/
inductive UnaryOp where
  | neg | not
deriving DecidableEq

/-- Why an operation has no result. -/
inductive EvalError where
  | divisionByZero
  | remainderByZero
  | unsupportedBinary (mnemonic : String)
  | unsupportedUnary (mnemonic : String)
deriving DecidableEq

/-- The text that reports the error. -/
def EvalError.message : EvalError → String
  | .divisionByZero => "division by zero"
  | .remainderByZero => "remainder by zero"
  | .unsupportedBinary op => s!"unsupported binary opcode '{op}'"
  | .unsupportedUnary op => s!"unsupported unary opcode '{op}'"

/-- A truth value as a word. -/
def ofBool (b : Bool) : Int := if b then 1 else 0

namespace BinaryOp

/-- The operation that a mnemonic names. -/
def ofName? : String → Option BinaryOp
  | "add" => some add
  | "sub" => some sub
  | "mul" => some mul
  | "div" => some div
  | "mod" => some mod
  | "eq" => some eq
  | "ne" => some ne
  | "lt" => some lt
  | "le" => some le
  | "gt" => some gt
  | "ge" => some ge
  | _ => none

/-- Whether the operation fails on a right operand of zero. -/
def traps : BinaryOp → Bool
  | div | mod => true
  | _ => false

/-- The result of the operation. -/
def eval : BinaryOp → Int → Int → Except EvalError Int
  | add, a, b => .ok (wrap (a + b))
  | sub, a, b => .ok (wrap (a - b))
  | mul, a, b => .ok (wrap (a * b))
  | div, a, b => if b = 0 then .error .divisionByZero else .ok (wrap (truncDiv a b))
  | mod, a, b =>
    if b = 0 then .error .remainderByZero else .ok (wrap (a - b * truncDiv a b))
  | eq, a, b => .ok (ofBool (a = b))
  | ne, a, b => .ok (ofBool (a ≠ b))
  | lt, a, b => .ok (ofBool (a < b))
  | le, a, b => .ok (ofBool (a ≤ b))
  | gt, a, b => .ok (ofBool (a > b))
  | ge, a, b => .ok (ofBool (a ≥ b))

end BinaryOp

namespace UnaryOp

/-- The operation that a mnemonic names. -/
def ofName? : String → Option UnaryOp
  | "neg" => some neg
  | "not" => some not
  | _ => none

/-- The result of the operation. -/
def eval : UnaryOp → Int → Int
  | neg, a => wrap (-a)
  | not, a => ofBool (a = 0)

end UnaryOp

/-- Evaluates the operation of two operands that `op` names. -/
def evalBinary (op : String) (a b : Int) : Except EvalError Int :=
  match BinaryOp.ofName? op with
  | some o => o.eval a b
  | none => .error (.unsupportedBinary op)

/-- Evaluates the operation of one operand that `op` names. -/
def evalUnary (op : String) (a : Int) : Except EvalError Int :=
  match UnaryOp.ofName? op with
  | some o => .ok (o.eval a)
  | none => .error (.unsupportedUnary op)

end ThreeAddress
