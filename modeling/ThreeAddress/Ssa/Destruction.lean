import ThreeAddress.Func.Edges
import ThreeAddress.Ssa.ParallelCopy
import ThreeAddress.Ssa.PlainNames

/-!
# SSA destruction

Every edge into a block with phis that comes from a block with several successors is split, so that
each phi operand has a predecessor of its own. For each predecessor the phis form one parallel copy,
which is made there before the terminator; an undefined operand needs no copy. Then the phis go, and
versioned names become plain ones.
-/

namespace ThreeAddress

/-- What SSA destruction did. -/
structure Destruction where
  /-- The number of edges that were split. -/
  splitEdges : Nat
  /-- The number of copies that were made. -/
  copies : Nat
  /-- The number of temporaries among their destinations. -/
  temporaries : Nat
  /-- The number of phis that went. -/
  phisRemoved : Nat
deriving DecidableEq

/-- The parallel copy that phis make when control comes from `p`. -/
def phiCopies (p : Label) : List Phi → Except Fault (List Copy)
  | [] => .ok []
  | φ :: φs =>
    match φ.valueFrom? p with
    | none => .error (.violation (.missingOperand φ.dest p))
    | some x => do
      let rest ← phiCopies p φs
      return if x = .undefined then rest else (φ.dest, x) :: rest

/-- Version counters and the number of temporaries handed out. -/
structure Temporaries where
  versions : Table String Int
  count : Nat

/-- Hands out the next version of a variable's name. -/
def Temporaries.fresh (v : Var) (t : Temporaries) : Var × Temporaries :=
  let n := t.versions.getD v.name 0 + 1
  (⟨v.name, some n⟩, ⟨t.versions.insert v.name n, t.count + 1⟩)

namespace Edit

/-- Splits the edges to `l` from those predecessors that have several successors; returns their
number. -/
def splitForPhis (l : Label) : List Label → Edit Nat
  | [] => return 0
  | p :: preds => do
    let b ← ask (·.getBlock p)
    if b.successors.length > 1 then
      let _ ← splitEdge p l none
      return (← splitForPhis l preds) + 1
    else splitForPhis l preds

/-- Splits the edges into blocks with phis; returns the number of edges split. -/
def isolatePhis : List Label → Edit Nat
  | [] => return 0
  | l :: labels => do
    let b ← ask (·.getBlock l)
    let here ← if b.phis.isEmpty then pure 0 else splitForPhis l b.preds
    return here + (← isolatePhis labels)

/-- Makes the copies for the edge from `p`; returns the number of copies and of temporaries. -/
def lowerEdge (φs : List Phi) (p : Label) : Edit (Nat × Nat) := do
  let pairs ← ask fun _ => phiCopies p φs
  let (copies, temps) := sequenceCopies Temporaries.fresh pairs ⟨(← get).versions, 0⟩
  modify fun f => { f with versions := temps.versions }
  let _ ← ask (·.getBlock p)
  modify (·.modifyBlock p fun b =>
    { b with instrs := b.instrs ++ copies.map fun c => .copy c.1 c.2 })
  return (copies.length, temps.count)

/-- Makes the copies for the edges from `preds`. -/
def lowerEdges (φs : List Phi) : List Label → Edit (Nat × Nat)
  | [] => return (0, 0)
  | p :: preds => do
    let (copies, temps) ← lowerEdge φs p
    let (moreCopies, moreTemps) ← lowerEdges φs preds
    return (copies + moreCopies, temps + moreTemps)

/-- Replaces the phis of a block by copies in its predecessors. -/
def lowerBlock (l : Label) : Edit Destruction := do
  let b ← ask (·.getBlock l)
  if b.phis.isEmpty then return ⟨0, 0, 0, 0⟩
  let (copies, temps) ← lowerEdges b.phis b.preds
  modify (·.modifyBlock l fun b => { b with instrs := b.body })
  return ⟨0, copies, temps, b.phis.length⟩

/-- Replaces the phis of blocks by copies. -/
def lowerBlocks : List Label → Edit Destruction
  | [] => return ⟨0, 0, 0, 0⟩
  | l :: labels => do
    let here ← lowerBlock l
    let rest ← lowerBlocks labels
    return ⟨0, here.copies + rest.copies, here.temporaries + rest.temporaries,
      here.phisRemoved + rest.phisRemoved⟩

/-- Takes a function out of SSA form. -/
def leaveSsa : Edit Destruction := do
  let f ← get
  if !f.ssa then fail (.violation (.notSsa f.name))
  let splits ← isolatePhis f.blocks.keys
  let lowered ← lowerBlocks (← get).blocks.keys
  modify fun f => { f.withPlainNames with ssa := false, versions := .empty }
  let result : Destruction := { lowered with splitEdges := splits }
  emit (.destructed f.name result.phisRemoved result.copies result.temporaries result.splitEdges)
  return result

end Edit

end ThreeAddress
