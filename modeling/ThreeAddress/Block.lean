import ThreeAddress.Instr

/-!
# Blocks

A block is a list of instructions that run one after the other, phis first, and one terminator.
Predecessor lists are explicit and ordered; the phis of a block list their operands in the same
order.
-/

namespace ThreeAddress

/-- A basic block. -/
structure Block where
  /-- The name that the block prints under. -/
  name : Label
  /-- The instructions, phis first. -/
  instrs : List Instr := []
  /-- How the block ends; `none` while it is being built. -/
  term : Option Terminator := none
  /-- The blocks that control may come from. -/
  preds : List Label := []
deriving DecidableEq

/-- The phis at the head of a list of instructions. -/
def leadingPhis : List Instr → List Phi
  | .phi φ :: rest => φ :: leadingPhis rest
  | _ => []

/-- Changes the phis at the head of a list of instructions. -/
def mapLeadingPhis (f : Phi → Phi) : List Instr → List Instr
  | .phi φ :: rest => .phi (f φ) :: mapLeadingPhis f rest
  | rest => rest

namespace Block

/-- The phis that lead the block. -/
def phis (b : Block) : List Phi := leadingPhis b.instrs

/-- The instructions that are no phis, in order. -/
def body (b : Block) : List Instr := b.instrs.filter (!·.isPhi)

/-- The distinct blocks that may follow, in order. -/
def successors (b : Block) : List Label :=
  match b.term with
  | some t => t.targets
  | none => []

/-- The instructions, then the terminator. -/
def nodes (b : Block) : List Node := b.instrs.map .instr ++ b.term.toList.map .term

/-- Changes the phis that lead the block. -/
def mapPhis (f : Phi → Phi) (b : Block) : Block := { b with instrs := mapLeadingPhis f b.instrs }

/-- Redirects the edges to `old` so that they go to `new`. -/
def retarget (old new : Label) (b : Block) : Block :=
    { b with term := b.term.map (·.retarget old new) }

/-- Forgets the edge from `src`: in the predecessor list and in the leading phis. -/
def dropPred (src : Label) (b : Block) : Block :=
  { b with preds := b.preds.filter (· ≠ src) }.mapPhis (·.removeIncoming src)

/-- Lets the edge from `old` come from `new`: in the predecessor list and in the leading phis. -/
def renamePred (old new : Label) (b : Block) : Block :=
  { b with preds := b.preds.map fun p => if p = old then new else p }.mapPhis
    (·.renameIncoming old new)

/-- Replaces every operand that the block reads. -/
def mapUses (f : Operand → Operand) (b : Block) : Block :=
  { b with instrs := b.instrs.map (·.mapUses f), term := b.term.map (·.mapUses f) }

end Block

end ThreeAddress
