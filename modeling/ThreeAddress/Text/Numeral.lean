import ThreeAddress.Operand

/-!
# Numerals

Integers as a user may write them: blanks around, a sign, decimal digits of any script, and single
underscores between digits.
-/

namespace ThreeAddress.Text

/-- The zeros of the decimal digits; the other nine of each script follow its zero. -/
def digitZeros : List Nat :=
  [48, 1632, 1776, 1984, 2406, 2534, 2662, 2790, 2918, 3046, 3174, 3302, 3430, 3558, 3664, 3792,
    3872, 4160, 4240, 6112,
   6160, 6470, 6608, 6784, 6800, 6992, 7088, 7232, 7248, 42528, 43216, 43264, 43472, 43504, 43600,
   44016, 65296, 66720, 68912, 69734, 69872, 69942, 70096, 70384, 70736, 70864, 71248, 71360, 71472,
   71904, 72016, 72784,
   73040, 73120, 92768, 92864, 93008, 120782, 120792, 120802, 120812, 120822, 123200, 123632,
   125264, 130032]

/-- The value of a decimal digit of any script. -/
def digitValue? (c : Char) : Option Nat :=
  digitZeros.findSome? fun z => if z ≤ c.toNat ∧ c.toNat < z + 10 then some (c.toNat - z) else none

/-- Whether the character is white space. -/
def isSpace (c : Char) : Bool :=
  let n := c.toNat
  (9 ≤ n && n ≤ 13) || (0x1c ≤ n && n ≤ 0x20) || n = 0x85 || n = 0xa0 || n = 0x1680
    || (0x2000 ≤ n && n ≤ 0x200a)
    || n = 0x2028 || n = 0x2029 || n = 0x202f || n = 0x205f || n = 0x3000

/-- Whether the character may stand around a numeral: any white space but the information
separators. -/
def isNumeralSpace (c : Char) : Bool := isSpace c && !(0x1c ≤ c.toNat && c.toNat ≤ 0x1f)

/-- Takes away characters at both ends. -/
def trim (p : Char → Bool) (cs : List Char) : List Char :=
  ((cs.dropWhile p).reverse.dropWhile p).reverse

/-- Reads digits with single underscores between them; `afterDigit` says whether a digit stands
before. -/
def readDigits : List Char → (value : Nat) → (afterDigit : Bool) → Option Nat
  | [], value, afterDigit => if afterDigit then some value else none
  | c :: rest, value, afterDigit =>
    if c = '_' then if afterDigit then readDigits rest value false else none
    else
      match digitValue? c with
      | some d => readDigits rest (10 * value + d) true
      | none => none

/-- Reads a number with an optional sign. -/
def readSigned : List Char → Option Int
  | '-' :: rest => (readDigits rest 0 false).map fun n => -(n : Int)
  | '+' :: rest => (readDigits rest 0 false).map fun n => (n : Int)
  | cs => (readDigits cs 0 false).map fun n => (n : Int)

/-- Reads a numeral. -/
def readInt? (cs : List Char) : Option Int := readSigned (trim isNumeralSpace cs)

/-- The parts of a text between separators. -/
def splitAt (separator : Char) : List Char → List (List Char)
  | [] => [[]]
  | c :: rest =>
    if c = separator then [] :: splitAt separator rest
    else
      match splitAt separator rest with
      | [] => [[c]]
      | part :: parts => (c :: part) :: parts

/-- Reads numerals with commas between them; parts of nothing but white space count for nothing. -/
def readInts? (text : String) : Option (List Int) :=
  ((splitAt ',' text.toList).filter fun part => !part.all isSpace).mapM readInt?

end ThreeAddress.Text
