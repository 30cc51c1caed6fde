/-!
# Tokens

A source text is cut into tokens from left to right, each as long as it can be. Blanks and a comment
at the end of the text are passed over; any run of line ends, blank lines and comment lines is one
`newline`. Cutting stops at the first character that starts no token.

Tokens do not know where they stand. A lexeme adds that, counted from the end of the text, so that
the tokens of a text do not depend on its layout.
-/

namespace ThreeAddress.Text

/-- The words that cannot be names. -/
inductive Keyword where
  | function | load | call | read | phi | store | write | jump | branch | ret | undefined
deriving DecidableEq

/-- The keyword with a given spelling. -/
def Keyword.ofString? : String → Option Keyword
  | "function" => some .function
  | "load" => some .load
  | "call" => some .call
  | "read" => some .read
  | "phi" => some .phi
  | "store" => some .store
  | "write" => some .write
  | "jump" => some .jump
  | "branch" => some .branch
  | "return" => some .ret
  | "undef" => some .undefined
  | _ => none

/-- A unit of the source text. -/
inductive Token where
  | keyword (k : Keyword)
  | name (text : String)
  | versioned (base : String) (version : Nat)
  | int (value : Int)
  | lparen | rparen | lbrace | rbrace | lbracket | rbracket | colon | equals | comma
  | newline
deriving DecidableEq

/-! ## Character classes -/

/-- A blank inside a line. -/
def isBlank (c : Char) : Bool := c = ' ' || c = '\t'

/-- A character that a name can start with. -/
def isNameStart (c : Char) : Bool := c.isAlpha || c = '_'

/-- A character that a name can go on with. -/
def isNameChar (c : Char) : Bool := c.isAlpha || c.isDigit || c = '_' || c = '.'

/-- The token of a single character. -/
def Token.ofSymbol? (c : Char) : Option Token :=
  if c = '(' then some .lparen
  else if c = ')' then some .rparen
  else if c = '\x7b' then some .lbrace
  else if c = '\x7d' then some .rbrace
  else if c = '[' then some .lbracket
  else if c = ']' then some .rbracket
  else if c = ':' then some .colon
  else if c = '=' then some .equals
  else if c = ',' then some .comma
  else none

/-! ## Cutting off one token -/

/-- What follows a line end, the comment before it and the blanks after it; `none` if the line does
not end. -/
def afterLineEnd? : List Char → Option (List Char)
  | '\n' :: rest => some (rest.dropWhile isBlank)
  | '\r' :: '\n' :: rest => some (rest.dropWhile isBlank)
  | '#' :: rest =>
    match rest.dropWhile (· ≠ '\n') with
    | [] => none
    | _ :: rest => some (rest.dropWhile isBlank)
  | _ => none

/-- What follows a run of line ends. -/
def afterLineEnds : (fuel : Nat) → List Char → List Char
  | 0, cs => cs
  | fuel + 1, cs =>
    match afterLineEnd? cs with
    | some rest => afterLineEnds fuel rest
    | none => cs

/-- The number that a list of digits denotes. -/
def numberOf (digits : List Char) : Nat := Nat.ofDigitChars 10 digits 0

/-- The token of a word: a keyword, or else a name. -/
def Token.ofWord (text : String) : Token :=
  match Keyword.ofString? text with
  | some k => .keyword k
  | none => .name text

/-- What stands at the front of a text. -/
inductive Scan where
  /-- A token. -/
  | token (t : Token) (rest : List Char)
  /-- Characters to pass over. -/
  | skip (rest : List Char)
  /-- A character that starts no token. -/
  | bad (c : Char)
  /-- Nothing. -/
  | done

/-- The word at the front, with its version if one follows. -/
def scanWord (cs : List Char) : Scan :=
  let text := String.ofList (cs.takeWhile isNameChar)
  let rest := cs.dropWhile isNameChar
  match rest with
  | '$' :: d :: more =>
    if d.isDigit then
      .token (.versioned text (numberOf ((d :: more).takeWhile Char.isDigit)))
        ((d :: more).dropWhile Char.isDigit)
    else .token (.ofWord text) rest
  | _ => .token (.ofWord text) rest

/-- Looks at the front of a text. -/
def scan : List Char → Scan
  | [] => .done
  | c :: cs =>
    if isBlank c then .skip (cs.dropWhile isBlank)
    else if isNameStart c then scanWord (c :: cs)
    else if c.isDigit then
      .token (.int (numberOf ((c :: cs).takeWhile Char.isDigit))) ((c :: cs).dropWhile Char.isDigit)
    else
      match afterLineEnd? (c :: cs) with
      | some rest => .token .newline (afterLineEnds rest.length rest)
      | none =>
        if c = '#' then .skip []
        else if c = '-' then
          match cs.takeWhile Char.isDigit with
          | [] => .bad c
          | digits => .token (.int (-(numberOf digits : Int))) (cs.dropWhile Char.isDigit)
        else
          match Token.ofSymbol? c with
          | some t => .token t cs
          | none => .bad c

/-! ## Cutting up a text -/

/-- A token and where it stands: the number of characters left at its start and after it. -/
structure Lexeme where
  token : Token
  start : Nat
  stop : Nat
deriving DecidableEq

/-- A text cut into tokens. -/
structure Lexed where
  /-- The tokens, in order. -/
  lexemes : List Lexeme
  /-- The character where cutting stopped, and the number of characters left there; `none` if it
  came to the end. -/
  fault : Option (Char × Nat)
deriving DecidableEq

/-- Cuts a text into tokens. -/
def lexFrom : (fuel : Nat) → List Char → Lexed
  | 0, _ => ⟨[], none⟩
  | fuel + 1, cs =>
    match scan cs with
    | .done => ⟨[], none⟩
    | .bad c => ⟨[], some (c, cs.length)⟩
    | .skip rest => lexFrom fuel rest
    | .token t rest =>
      let tail := lexFrom fuel rest
      ⟨⟨t, cs.length, rest.length⟩ :: tail.lexemes, tail.fault⟩

/-- Cuts a text into tokens; each takes at least one character. -/
def lex (cs : List Char) : Lexed := lexFrom cs.length cs

/-- The tokens, without their places. -/
def Lexed.tokens (l : Lexed) : List Token := l.lexemes.map (·.token)

end ThreeAddress.Text
