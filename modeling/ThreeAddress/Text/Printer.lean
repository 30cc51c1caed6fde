import ThreeAddress.Func

/-!
# Printing

The text of instructions, blocks, functions and programs. What is printed reads back: each label and
each instruction stands on a line of its own, and the entry comes first, since reading takes the
first block as the entry.
-/

namespace ThreeAddress

/-- Texts with commas between them. -/
def commaSeparated (texts : List String) : String := String.intercalate ", " texts

/-- The text of a phi operand. -/
def PhiArg.render (a : PhiArg) : String := a.block ++ ": " ++ a.value.render

/-- The text of a call, without what it defines. -/
def renderCall (callee : String) (args : List Operand) : String :=
  "call " ++ callee ++ "(" ++ commaSeparated (args.map Operand.render) ++ ")"

/-- The text of an instruction. -/
def Instr.render : Instr → String
  | binary d op l r => d.render ++ " = " ++ op ++ " " ++ l.render ++ ", " ++ r.render
  | unary d op x => d.render ++ " = " ++ op ++ " " ++ x.render
  | copy d x => d.render ++ " = " ++ x.render
  | load d a => d.render ++ " = load " ++ a.render
  | store a v => "store " ++ a.render ++ ", " ++ v.render
  | call none g args => renderCall g args
  | call (some d) g args => d.render ++ " = " ++ renderCall g args
  | read d => d.render ++ " = read"
  | write v => "write " ++ v.render
  | phi φ => φ.dest.render ++ " = phi [" ++ commaSeparated (φ.incoming.map PhiArg.render) ++ "]"

/-- The text of a terminator. -/
def Terminator.render : Terminator → String
  | jump t => "jump " ++ t
  | branch c t e => "branch " ++ c.render ++ ", " ++ t ++ ", " ++ e
  | ret none => "return"
  | ret (some v) => "return " ++ v.render

/-- The text of an instruction or a terminator. -/
def Node.render : Node → String
  | instr i => i.render
  | term t => t.render

namespace Block

/-- The line with the label; with `showPreds`, a comment names the predecessors. -/
def header (b : Block) (showPreds : Bool) : String :=
  if showPreds && !b.preds.isEmpty then b.name ++ ":  # preds: " ++
    commaSeparated b.preds else b.name ++ ":"

/-- The lines of a block. -/
def lines (b : Block) (showPreds : Bool) : List String :=
  b.header showPreds :: b.nodes.map fun n => "\t" ++ n.render

/-- The text of a block. -/
def render (b : Block) (showPreds : Bool) : String := String.intercalate "\n" (b.lines showPreds)

end Block

namespace Func

/-- The blocks in the order in which they are printed: the entry, then the others in layout
order. -/
def printOrder (f : Func) : List Block :=
  (f.block? f.entry).toList ++ ((f.blocks.erase f.entry).values)

/-- The line that opens a function. -/
def header (f : Func) : String :=
  "function " ++ f.name ++ "(" ++ commaSeparated f.params ++ ") \x7b"

/-- The lines of a function. -/
def lines (f : Func) (showPreds : Bool) : List String :=
  f.header :: (f.printOrder.flatMap fun b => b.lines showPreds) ++ ["\x7d"]

/-- The text of a function. -/
def render (f : Func) (showPreds : Bool) : String := String.intercalate "\n" (f.lines showPreds)

end Func

/-- The text of a function whose entry has to be there, since it comes first. -/
def Func.print (f : Func) (showPreds : Bool) : Except Fault String := do
  let _ ← f.recallBlock f.entry
  return f.render showPreds

/-- The text of a program: its functions with an empty line between them, and a line end. -/
def Program.render (p : Program) (showPreds : Bool) : String :=
  String.intercalate "\n\n" (p.functions.values.map fun f => f.render showPreds) ++ "\n"

/-- The text of a program all of whose functions have their entries. -/
def Program.print (p : Program) (showPreds : Bool) : Except Fault String := do
  p.functions.values.forM fun f => discard (f.recallBlock f.entry)
  return p.render showPreds

end ThreeAddress
