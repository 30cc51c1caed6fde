import ThreeAddress.Constants.Analysis
import ThreeAddress.Func.Edges

/-!
# Constant propagation

Uses what the analysis found: branches on a constant become jumps, blocks that cannot run go, uses
of constants become literals, and pure definitions of constants go.
-/

namespace ThreeAddress

/-- What constant propagation did. -/
structure ConstantsReport where
  /-- The function. -/
  function : String
  /-- The number of constant values. -/
  constants : Nat := 0
  /-- The number of uses that became literals. -/
  usesReplaced : Nat := 0
  /-- The number of definitions that went. -/
  instrsRemoved : Nat := 0
  /-- The number of branches that became jumps. -/
  branchesFolded : Nat := 0
  /-- The blocks that went. -/
  blocksRemoved : List Label := []
deriving DecidableEq

namespace ConstantsReport

/-- Whether anything changed. -/
def changed (r : ConstantsReport) : Bool :=
  r.usesReplaced > 0 || r.instrsRemoved > 0 || r.branchesFolded > 0 || !r.blocksRemoved.isEmpty

/-- The text of the report. -/
def render (r : ConstantsReport) : String :=
  let f := r.function
  let constants := r.constants.repr
  let uses := r.usesReplaced.repr
  let removed := r.instrsRemoved.repr
  let folded := r.branchesFolded.repr
  let counts := s!"const-prop {f}: {constants} constant values, {uses} uses rewritten, "
    ++ s!"{removed} instructions removed, {folded} branches folded"
  if r.blocksRemoved.isEmpty then counts
  else counts ++ "\n  removed blocks: " ++ String.intercalate ", " r.blocksRemoved

end ConstantsReport

namespace Facts

/-- The constant that a variable is known to hold. -/
def constOf? (s : Facts) (v : Var) : Option Int := (s.values.getD v .bottom).const?

/-- An operand with a literal in the place of a constant variable. -/
def substitute (s : Facts) : Operand → Operand
  | .var v => match s.constOf? v with
    | some n => .const n
    | none => .var v
  | x => x

/-- Whether the operand is a constant variable. -/
def isKnown (s : Facts) : Operand → Bool
  | .var v => (s.constOf? v).isSome
  | _ => false

/-- Whether the instruction does nothing but define a constant. -/
def isRedundant (s : Facts) : Instr → Bool
  | .phi φ => (s.constOf? φ.dest).isSome
  | .binary d .. | .unary d .. | .copy d _ => (s.constOf? d).isSome
  | _ => false

/-- A block with its constants put in. -/
def putConstants (s : Facts) (b : Block) : Block :=
  { b with instrs := b.instrs.filter (!s.isRedundant ·) }.mapUses s.substitute

/-- The number of uses that become literals in a block. -/
def replacedUses (s : Facts) (b : Block) : Nat :=
  let kept : Block := { b with instrs := b.instrs.filter (!s.isRedundant ·) }
  sumOf (fun n => n.uses.countP s.isKnown) kept.nodes

/-- The number of definitions that go from a block. -/
def removedInstrs (s : Facts) (b : Block) : Nat := b.instrs.countP s.isRedundant

end Facts

namespace Edit

/-- Makes branches on constants jumps and returns their number. -/
def foldBranches (s : Facts) : List Label → Edit Nat
  | [] => return 0
  | l :: labels => do
    let f ← get
    let cond := match (f.block? l).bind (·.term) with
      | some (.branch c _ _) => (s.valueOf c).const?
      | _ => none
    match cond with
    | some n =>
      let kept ← foldBranch l (n ≠ 0)
      emit (.branchFolded f.name l kept)
      return (← foldBranches s labels) + 1
    | none => foldBranches s labels

/-- Propagates constants; returns what the analysis found and what was done. -/
def propagateConstants : Edit (Facts × ConstantsReport) := do
  let f ← get
  if !f.ssa then fail (.violation (.constantsNeedSsa f.name))
  let s ← findConstants
  let folded ← foldBranches s (f.blocks.keys.filter (· ∈ s.blocks))
  let dead := (← get).blocks.keys.filter (· ∉ s.blocks)
  dead.forM deleteBlock
  let blocks := (← get).blockList
  modify (·.mapBlocks s.putConstants)
  let report : ConstantsReport :=
    { function := f.name
      constants := s.values.values.countP (·.isConst)
      usesReplaced := sumOf s.replacedUses blocks
      instrsRemoved := sumOf s.removedInstrs blocks
      branchesFolded := folded
      blocksRemoved := dead }
  emit (.constantsFound f.name report.constants report.usesReplaced report.instrsRemoved)
  return (s, report)

end Edit

end ThreeAddress
