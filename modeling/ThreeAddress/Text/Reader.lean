import ThreeAddress.Func
import ThreeAddress.Text.Grammar

/-!
# Reading programs

The blocks of a function are implicit in its text. Statements before the first label open the entry;
a block that reaches the next label without a terminator falls through to it; the last block without
one returns; statements after a terminator open a new block. A function that mentions a versioned
name or a phi is in SSA form: its phi operands follow the predecessor list, and its version counters
start at the highest version mentioned.
-/

namespace ThreeAddress.Text

/-! ## Errors -/

/-- Why a text is no program. -/
inductive SyntaxCause where
  /-- A character that starts no token. -/
  | character (c : Char)
  /-- A token that does not fit. -/
  | token (text : String)
  /-- The line ends too early. -/
  | endOfLine
  /-- The text ends too early. -/
  | endOfInput
  /-- Two parameters of a function have one name. -/
  | duplicateParameter (function : String)
  /-- Two blocks of a function have one label. -/
  | duplicateLabel (label : Label)
  /-- A phi follows another instruction. -/
  | latePhi
  /-- A label is mentioned that no block has. -/
  | unknownLabel (function : String) (label : Label)
  /-- A phi has two operands for one predecessor. -/
  | repeatedPredecessor (function : String) (dest : Var) (block : Label)
  /-- Two functions have one name. -/
  | duplicateFunction (name : String)
  /-- A text that should hold one function holds another number of them. -/
  | functionCount (count : Nat)
deriving DecidableEq

/-- The text that reports the cause. -/
def SyntaxCause.message : SyntaxCause → String
  | character c => "unexpected character " ++ quoted (String.singleton c)
  | token t => "unexpected " ++ quoted t
  | endOfLine => "unexpected end of line"
  | endOfInput => "unexpected end of input"
  | duplicateParameter f => s!"function {f}: duplicate parameter"
  | duplicateLabel l => s!"duplicate label '{l}'"
  | latePhi => "phi must precede other instructions in its block"
  | unknownLabel f l => s!"function {f}: unknown label '{l}'"
  | repeatedPredecessor f d b =>
    let dest := d.render
    s!"function {f}: phi for {dest} in '{b}' repeats a predecessor"
  | duplicateFunction f => s!"duplicate function '{f}'"
  | functionCount n =>
    let count := n.repr
    s!"expected exactly one function, found {count}"

/-- A line and a column, both from 1. -/
structure Position where
  line : Nat
  column : Nat
deriving DecidableEq

/-- Why a text is no program, and where, if the cause has a place. -/
structure SyntaxError where
  cause : SyntaxCause
  position : Option Position
deriving DecidableEq

/-- A cause with its mark among the tokens. -/
abbrev MarkedCause := SyntaxCause × Option Mark

/-! ## Blocks from items -/

/-- The block with a terminator, `t` if it has none yet. -/
def closeWith (t : Terminator) (b : Block) : Block :=
  match b.term with
  | some _ => b
  | none => { b with term := some t }

/-- A function body as far as it was read: the finished blocks, the latest first, and the block
being read. -/
structure Draft where
  finished : List Block
  current : Option Block
deriving DecidableEq

namespace Draft

/-- The body before anything was read. -/
def start : Draft := ⟨[], none⟩

/-- The blocks in order. -/
def blocks (d : Draft) : List Block := d.finished.reverse ++ d.current.toList

/-- The names of the blocks in order. -/
def names (d : Draft) : List Label := d.blocks.map (·.name)

/-- Finishes the current block and opens one named `l`. -/
def openBlock (d : Draft) (l : Label) : Draft :=
    ⟨d.current.toList ++ d.finished, some { name := l }⟩

/-- A name for a block that the source gives none. -/
def freshName (d : Draft) (labels : List Label) (base : String) : Label :=
  firstFree (numbered base) (labels ++ d.names)

/-- Opens the block of a label; the block before it falls through if it has no terminator. -/
def startLabel (d : Draft) (l : Label) (mark : Mark) : Except MarkedCause Draft :=
  if l ∈ d.names then .error (.duplicateLabel l, some mark)
  else .ok (openBlock ⟨d.finished, d.current.map (closeWith (.jump l))⟩ l)

/-- The body with a block that a statement can go into, and that block. -/
def withOpenBlock (d : Draft) (labels : List Label) : Draft × Block :=
  match d.current with
  | none =>
    let l := d.freshName labels "entry"
    (d.openBlock l, { name := l })
  | some b =>
    if b.term.isSome then
      let l := d.freshName labels (b.name ++ ".cont")
      (d.openBlock l, { name := l })
    else (d, b)

/-- Adds a statement. -/
def addNode (d : Draft) (labels : List Label) (node : Node) (mark : Mark) :
    Except MarkedCause Draft :=
  let (d, b) := d.withOpenBlock labels
  match node with
  | .term t => .ok { d with current := some { b with term := some t } }
  | .instr i =>
    if i.isPhi && b.instrs.any (!·.isPhi) then .error (.latePhi, some mark)
    else .ok { d with current := some { b with instrs := b.instrs ++ [i] } }

/-- Adds a label or a statement. -/
def addItem (labels : List Label) (d : Draft) : Item → Except MarkedCause Draft
  | .label l mark => d.startLabel l mark
  | .statement node mark _ => d.addNode labels node mark

/-- Adds labels and statements. -/
def addItems (labels : List Label) (d : Draft) : List Item → Except MarkedCause Draft
  | [] => .ok d
  | item :: items => do
    let d ← d.addItem labels item
    d.addItems labels items

/-- Ends the body: it has at least one block, and the last one returns if it has no terminator. -/
def finish (d : Draft) (labels : List Label) : Draft :=
  let d := if d.current.isNone then d.openBlock (d.freshName labels "entry") else d
  ⟨d.finished, d.current.map (closeWith (.ret none))⟩

end Draft

/-! ## Functions -/

/-- The labels that a body defines. -/
def definedLabels (items : List Item) : List Label :=
  items.filterMap fun
    | .label l _ => some l
    | .statement .. => none

/-- The labels that a body mentions. -/
def mentionedLabels (items : List Item) : List (Label × Mark) :=
  items.flatMap fun
    | .label .. => []
    | .statement _ _ targets => targets

/-- Whether a node is one of SSA form: a phi, or one that mentions a versioned name. -/
def isSsaNode (n : Node) : Bool :=
  (match n with
    | .instr i => i.isPhi
    | .term _ => false) || n.vars.any (·.version.isSome)

/-- The blocks with their predecessors, in layout order. -/
def withPreds (blocks : Table Label Block) : Table Label Block :=
  blocks.mapValues fun l b =>
    { b with preds := (blocks.values.filter fun p => decide (l ∈ p.successors)).map (·.name) }

/-- The first phi of a block that has two operands for one predecessor. -/
def repeatedIn? (b : Block) : Option Phi := b.phis.find? fun φ => !decide φ.labels.Nodup

/-- Puts the operands of a phi into the order of the predecessors; operands for other blocks come
last. -/
def alignPhi (preds : List Label) (φ : Phi) : Phi :=
  { φ with incoming :=
      (preds.filterMap fun p => φ.incoming.find? (·.block = p)) ++
      φ.incoming.filter (·.block ∉ preds) }

/-- Raises the counter of a name to a version that was met. -/
def raiseVersion (versions : Table String Int) (v : Var) : Table String Int :=
  match v.version with
  | none => versions
  | some n =>
    let last := versions.getD v.name 0
    versions.insert v.name (if last < n then n else last)

/-- The version counters of a function in SSA form: parameters start at 0, and no counter is below a
version that the function mentions. -/
def seedVersions (params : List String) (nodes : List Node) : Table String Int :=
  (nodes.flatMap Node.vars).foldl raiseVersion (Table.ofList (params.map fun p => (p, 0)))

/-- Aligns the phis of a function in SSA form and seeds its version counters. -/
def finishSsa (f : Func) : Except MarkedCause Func :=
  match f.blockList.findSome? fun b => (repeatedIn? b).map fun φ => (φ, b) with
  | some (φ, b) => .error (.repeatedPredecessor f.name φ.dest b.name, none)
  | none =>
    let f := f.mapBlocks fun b => b.mapPhis (alignPhi b.preds)
    .ok { f with versions := seedVersions f.params f.nodes }

/-- Makes a function of its text. -/
def buildFunction (t : FunctionText) : Except MarkedCause Func := do
  if !decide t.params.Nodup then throw (.duplicateParameter t.name, some t.mark)
  let labels := definedLabels t.items
  let draft ← Draft.start.addItems labels t.items
  let body := (draft.finish labels).blocks
  let blocks := Table.ofList (body.map fun b => (b.name, b))
  match (mentionedLabels t.items).find? fun l => decide (l.1 ∉ blocks) with
  | some (l, mark) => throw (.unknownLabel t.name l, some mark)
  | none =>
    let f : Func :=
      { name := t.name, params := t.params, blocks := withPreds blocks,
        entry := (blocks.keys.head?).getD "entry",
        ssa := blocks.values.any fun b => b.nodes.any isSsaNode }
    if f.ssa then finishSsa f else return f

/-- Adds functions to a program, one after the other. -/
def buildProgram (p : Program) : List FunctionText → Except MarkedCause Program
  | [] => .ok p
  | t :: ts => do
    let f ← buildFunction t
    if f.name ∈ p.functions then throw (.duplicateFunction f.name, some t.mark)
    buildProgram ⟨p.functions.insert f.name f⟩ ts

/-! ## Places -/

/-- The position where `left` characters of a text are left. -/
def positionAt (cs : List Char) (left : Nat) : Position :=
  let before := cs.take (cs.length - left)
  ⟨before.count '\n' + 1, (before.reverse.takeWhile (· ≠ '\n')).length + 1⟩

/-- The lexeme at a mark. -/
def Lexed.at? (l : Lexed) (mark : Mark) : Option Lexeme := l.lexemes[l.lexemes.length - mark]?

/-- The error for a mark that reading stopped at. -/
def unexpectedAt (cs : List Char) (l : Lexed) (mark : Mark) : SyntaxError :=
  match l.at? mark with
  | some x =>
    let text := (cs.drop (cs.length - x.start)).take (x.start - x.stop)
    ⟨if x.token = .newline then .endOfLine else .token (String.ofList text),
      some (positionAt cs x.start)⟩
  | none =>
    match l.fault with
    | some (c, left) => ⟨.character c, some (positionAt cs left)⟩
    -- The end of the text is reported at the start of the last token.
    | none => ⟨.endOfInput,
      some (positionAt cs ((l.lexemes.getLast?.map (·.start)).getD cs.length))⟩

/-- The error for a cause with its mark. -/
def errorAt (cs : List Char) (l : Lexed) (e : MarkedCause) : SyntaxError :=
  ⟨e.1, (e.2.bind l.at?).map fun x => positionAt cs x.start⟩

/-! ## Programs -/

/-- Reads a program. A character that starts no token counts once everything before it fits. -/
def parse (source : String) : Except SyntaxError Program :=
  let cs := source.toList
  let lexed := lex cs
  match readSource lexed.tokens, lexed.fault with
  | .error mark, _ => .error (unexpectedAt cs lexed mark)
  | .ok _, some _ => .error (unexpectedAt cs lexed 0)
  | .ok functions, none => (buildProgram {} functions).mapError (errorAt cs lexed)

/-- Reads a text that holds exactly one function. -/
def parseFunction (source : String) : Except SyntaxError Func := do
  let p ← parse source
  match p.functions.values with
  | [f] => return f
  | fs => throw ⟨.functionCount fs.length, none⟩

end ThreeAddress.Text
