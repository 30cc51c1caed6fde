import ThreeAddress.Text.Printable

/-!
# Quoted text

Diagnostics show characters and lists of names in quotes. A text stands in single quotes, or in
double quotes if it holds a single quote and no double quote. The quote itself and the backslash are
escaped, and so is every character that is not printable.
-/

namespace ThreeAddress.Text

/-- The single quote. -/
def singleQuote : Char := '\x27'

/-- The double quote. -/
def doubleQuote : Char := '\x22'

/-- The backslash. -/
def backslash : Char := '\x5c'

/-- The hexadecimal digits of `n`, at least `width` of them. -/
def hex (width n : Nat) : List Char :=
  let digits := Nat.toDigits 16 n
  List.replicate (width - digits.length) '0' ++ digits

/-- The code of a character that is not printable: as short as its size allows. -/
def escapeCode (c : Char) : List Char :=
  let n := c.toNat
  if n < 0x100 then backslash :: 'x' :: hex 2 n
  else if n < 0x10000 then backslash :: 'u' :: hex 4 n
  else backslash :: 'U' :: hex 8 n

/-- How a character appears inside quotes of kind `quote`. -/
def escape (quote c : Char) : List Char :=
  if c = quote ∨ c = backslash then [backslash, c]
  else if c = '\t' then [backslash, 't']
  else if c = '\n' then [backslash, 'n']
  else if c = '\r' then [backslash, 'r']
  else if isPrintable c then [c]
  else escapeCode c

/-- The quotes that a text stands in. -/
def quoteFor (cs : List Char) : Char :=
  if singleQuote ∈ cs ∧ doubleQuote ∉ cs then doubleQuote else singleQuote

/-- A text in quotes. -/
def quoted (s : String) : String :=
  let q := quoteFor s.toList
  String.ofList (q :: s.toList.flatMap (escape q) ++ [q])

/-- A list of names in brackets. -/
def quotedList (names : List String) : String :=
  "[" ++ String.intercalate ", " (names.map quoted) ++ "]"

/-- A list of pairs of names in brackets. -/
def quotedPairs (pairs : List (String × String)) : String :=
  "[" ++ String.intercalate ", " (pairs.map fun p => "(" ++ quoted p.1 ++ ", " ++ quoted p.2 ++ ")")
    ++ "]"

end ThreeAddress.Text
