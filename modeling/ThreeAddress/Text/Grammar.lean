import ThreeAddress.Instr
import ThreeAddress.Text.Token

/-!
# Grammar

Reading tokens as functions, labels and statements, one token ahead. Reading fails at the first
token that no source can go on with; the failure says how many tokens were left there, the failing
one included (0 at the end of the text). The same count marks the statements that a later check may
complain about.
-/

namespace ThreeAddress.Text

/-- A place in a list of tokens: how many tokens are left there. -/
abbrev Mark := Nat

/-- A line of a function body. -/
inductive Item where
  /-- A label. -/
  | label (name : Label) (mark : Mark)
  /-- A statement, with the labels that it mentions and the marks to report them at. -/
  | statement (node : Node) (mark : Mark) (targets : List (Label × Mark))
deriving DecidableEq

/-- A function as it stands in the source. -/
structure FunctionText where
  /-- The name. -/
  name : String
  /-- The parameters. -/
  params : List String
  /-- The body. -/
  items : List Item
  /-- The place of the word that opens the function. -/
  mark : Mark
deriving DecidableEq

/-! ## Parts of statements -/

/-- The variable that a token denotes. -/
def varOf? : Token → Option Var
  | .name x => some ⟨x, none⟩
  | .versioned x n => some ⟨x, some n⟩
  | _ => none

/-- The operand that a token denotes. -/
def operandOf? : Token → Option Operand
  | .int n => some (.const n)
  | .keyword .undefined => some .undefined
  | t => (varOf? t).map .var

/-- Reads the given token. -/
def expect (t : Token) : List Token → Except Mark (List Token)
  | [] => .error 0
  | t' :: ts => if t' = t then .ok ts else .error (ts.length + 1)

/-- Reads a name. -/
def readName : List Token → Except Mark (String × List Token)
  | .name x :: ts => .ok (x, ts)
  | ts => .error ts.length

/-- Reads an operand. -/
def readOperand : List Token → Except Mark (Operand × List Token)
  | [] => .error 0
  | t :: ts =>
    match operandOf? t with
    | some x => .ok (x, ts)
    | none => .error (ts.length + 1)

/-- An operand of a phi and the place of its label. -/
abbrev MarkedArg := PhiArg × Mark

/-- Reads an operand of a phi. -/
def readPhiArg (ts : List Token) : Except Mark (MarkedArg × List Token) := do
  let (l, rest) ← readName ts
  let rest ← expect .colon rest
  let (x, rest) ← readOperand rest
  return ((⟨l, x⟩, ts.length), rest)

section Lists

variable {α : Type} (read : List Token → Except Mark (α × List Token)) (close : Token)

/-- Reads the rest of a list, after one of its members, up to the closing token. -/
def readMore : (fuel : Nat) → List Token → Except Mark (List α × List Token)
  | 0, ts => .error ts.length
  | fuel + 1, ts =>
    if ts.head? = some close then .ok ([], ts.tail)
    else do
      let ts ← expect .comma ts
      let (x, ts) ← read ts
      let (xs, ts) ← readMore fuel ts
      return (x :: xs, ts)

/-- Reads a list, with commas between its members, up to the closing token. -/
def readList (ts : List Token) : Except Mark (List α × List Token) :=
  if ts.head? = some close then .ok ([], ts.tail)
  else do
    let (x, ts) ← read ts
    let (xs, ts) ← readMore read close ts.length ts
    return (x :: xs, ts)

end Lists

/-! ## Statements -/

/-- Reads the callee and the arguments of a call. -/
def readCall (ts : List Token) : Except Mark ((String × List Operand) × List Token) := do
  let (callee, ts) ← readName ts
  let ts ← expect .lparen ts
  let (args, ts) ← readList readOperand .rparen ts
  return ((callee, args), ts)

/-- Reads what follows an opcode: one operand or two. -/
def readOperation (dest : Var) (op : String) (ts : List Token) :
    Except Mark (Instr × List Token) := do
  let (x, ts) ← readOperand ts
  match ts with
  | .comma :: ts =>
    let (y, ts) ← readOperand ts
    return (.binary dest op x y, ts)
  | ts => return (.unary dest op x, ts)

/-- Reads the right-hand side of an assignment, with the labels that it mentions. -/
def readRhs (dest : Var) : List Token → Except Mark ((Instr × List (Label × Mark)) × List Token)
  | .keyword .load :: ts => do
    let (a, ts) ← readOperand ts
    return ((.load dest a, []), ts)
  | .keyword .call :: ts => do
    let ((callee, args), ts) ← readCall ts
    return ((.call (some dest) callee args, []), ts)
  | .keyword .read :: ts => .ok ((.read dest, []), ts)
  | .keyword .phi :: ts => do
    let ts ← expect .lbracket ts
    let (args, ts) ← readList readPhiArg .rbracket ts
    return ((.phi ⟨dest, args.map Prod.fst⟩, args.map fun a => (a.1.block, a.2)), ts)
  -- A name is an opcode if an operand follows, and an operand itself if the line ends.
  | .name x :: .newline :: ts => .ok ((.copy dest (.var ⟨x, none⟩), []), .newline :: ts)
  | .name op :: ts => do
    let (i, ts) ← readOperation dest op ts
    return ((i, []), ts)
  | ts => do
    let (x, ts) ← readOperand ts
    return ((.copy dest x, []), ts)

/-- Reads a statement that starts with a keyword; the mark is that of the statement. -/
def readKeyword (mark : Mark) : Keyword → List Token →
    Except Mark ((Node × List (Label × Mark)) × List Token)
  | .store, ts => do
    let (a, ts) ← readOperand ts
    let ts ← expect .comma ts
    let (v, ts) ← readOperand ts
    return ((.instr (.store a v), []), ts)
  | .call, ts => do
    let ((callee, args), ts) ← readCall ts
    return ((.instr (.call none callee args), []), ts)
  | .write, ts => do
    let (v, ts) ← readOperand ts
    return ((.instr (.write v), []), ts)
  | .jump, ts => do
    let (l, ts) ← readName ts
    return ((.term (.jump l), [(l, mark)]), ts)
  | .branch, ts => do
    let (c, ts) ← readOperand ts
    let ts ← expect .comma ts
    let (t, ts) ← readName ts
    let ts ← expect .comma ts
    let (e, ts) ← readName ts
    return ((.term (.branch c t e), [(t, mark), (e, mark)]), ts)
  | .ret, .newline :: ts => .ok ((.term (.ret none), []), .newline :: ts)
  | .ret, ts => do
    let (v, ts) ← readOperand ts
    return ((.term (.ret (some v)), []), ts)
  | _, ts => .error (ts.length + 1)

/-- Reads a label or a statement, with the line end after it. -/
def readItem : List Token → Except Mark (Item × List Token)
  | [] => .error 0
  | .name x :: .colon :: ts => do
    let rest ← expect .newline ts
    return (.label x (ts.length + 2), rest)
  | .keyword k :: ts => do
    let ((node, targets), rest) ← readKeyword (ts.length + 1) k ts
    let rest ← expect .newline rest
    return (.statement node (ts.length + 1) targets, rest)
  | t :: ts =>
    match varOf? t with
    | none => .error (ts.length + 1)
    | some dest => do
      let rest ← expect .equals ts
      let ((i, targets), rest) ← readRhs dest rest
      let rest ← expect .newline rest
      return (.statement (.instr i) (ts.length + 1) targets, rest)

/-- Reads labels and statements up to the closing brace. -/
def readItems : (fuel : Nat) → List Token → Except Mark (List Item × List Token)
  | 0, ts => .error ts.length
  | _ + 1, .rbrace :: ts => .ok ([], ts)
  | fuel + 1, ts => do
    let (item, ts) ← readItem ts
    let (items, ts) ← readItems fuel ts
    return (item :: items, ts)

/-! ## Functions -/

/-- Passes over a line end. -/
def skipNewline : List Token → List Token
  | .newline :: ts => ts
  | ts => ts

/-- Reads a function and a line end after it, if there is one. -/
def readFunction (ts : List Token) : Except Mark (FunctionText × List Token) := do
  let mark := ts.length
  let ts ← expect (.keyword .function) ts
  let (name, ts) ← readName ts
  let ts ← expect .lparen ts
  let (params, ts) ← readList readName .rparen ts
  let ts ← expect .lbrace ts
  let ts ← expect .newline ts
  let (items, ts) ← readItems (ts.length + 1) ts
  return (⟨name, params, items, mark⟩, skipNewline ts)

/-- Reads functions up to the end of the text. -/
def readFunctions : (fuel : Nat) → List Token → Except Mark (List FunctionText)
  | 0, ts => .error ts.length
  | _ + 1, [] => .ok []
  | fuel + 1, ts => do
    let (function, ts) ← readFunction ts
    let functions ← readFunctions fuel ts
    return function :: functions

/-- Reads a whole source. -/
def readSource (ts : List Token) : Except Mark (List FunctionText) :=
  readFunctions (ts.length + 1) (skipNewline ts)

end ThreeAddress.Text
