import ThreeAddress.Func.Edges

/-!
# The shape of the graph

Edits that bring the graph of a function into a form that a pass needs: only reachable blocks, an
entry that nothing jumps to, no critical edges, a block of its own before a loop.
-/

namespace ThreeAddress

namespace Edit

/-- Deletes the blocks that cannot be reached from the entry and returns their names. -/
def removeUnreachable : Edit (List Label) := do
  let live ← ask Func.reversePostorder
  let f ← get
  let dead := f.blocks.keys.filter (· ∉ live)
  dead.forM deleteBlock
  if !dead.isEmpty then emit (.unreachableRemoved f.name dead)
  return dead

/-- What a phi of the old entry takes from the new one: the parameter as it arrives, or nothing. -/
def entryValue (params : List String) (φ : Phi) : Operand :=
  if φ.dest.name ∈ params then .var ⟨φ.dest.name, some 0⟩ else .undefined

/-- Adds the new entry `label` to the predecessors and phis of the old one. -/
def addEntryPred (params : List String) (label : Label) (b : Block) : Block :=
  { b with preds := b.preds ++ [label] }.mapPhis fun φ =>
    { φ with incoming := φ.incoming ++ [PhiArg.mk label (entryValue params φ)] }

/-- Puts a new block in front of an entry that has predecessors, and returns its label. -/
def ensureEntry : Edit (Option Label) := do
  let f ← get
  match f.block? f.entry with
  | none => fail (.malformed (.noEntry f.name f.entry))
  | some old =>
    if old.preds.isEmpty then return none
    let label := f.freshLabel "entry"
    let new : Block := { name := label, term := some (.jump old.name) }
    let f' := f.modifyBlock f.entry (addEntryPred f.params label)
    modify fun _ => { f' with blocks := f'.blocks.insertBefore old.name label new, entry := label }
    emit (.entryMade f.name label)
    return some label

end Edit

/-! ## Critical edges -/

namespace Func

/-- The critical edges that leave a block. -/
def criticalFrom (f : Func) (l : Label) : List Label → Except Fault (List (Label × Label))
  | [] => .ok []
  | s :: succs => do
    let target ← f.getBlock s
    let rest ← criticalFrom f l succs
    return if target.preds.length > 1 then (l, s) :: rest else rest

/-- The critical edges that leave the given blocks. -/
def criticalAmong (f : Func) : List (Label × Block) → Except Fault (List (Label × Label))
  | [] => .ok []
  | (l, b) :: blocks => do
    let here ← if b.successors.length < 2 then .ok [] else f.criticalFrom l b.successors
    let rest ← criticalAmong f blocks
    return here ++ rest

/-- The edges from a block with several successors to a block with several predecessors. -/
def criticalEdges (f : Func) : Except Fault (List (Label × Label)) :=
    f.criticalAmong f.blocks.entries

end Func

namespace Edit

/-- Splits edges, one after the other, and returns the new blocks; with `onlyPhis`, only the edges
into blocks with phis. -/
def splitEdges (onlyPhis : Bool) : List (Label × Label) → Edit (List Label)
  | [] => return []
  | (src, dst) :: rest => do
    let target ← ask (·.getBlock dst)
    if onlyPhis && target.phis.isEmpty then splitEdges onlyPhis rest
    else do
      let label ← splitEdge src dst none
      return label :: (← splitEdges onlyPhis rest)

/-- Splits the critical edges. -/
def splitCritical (onlyPhis : Bool) : Edit (List Label) := do
  splitEdges onlyPhis (← ask Func.criticalEdges)

end Edit

/-! ## Preheaders -/

/-- Replaces what comes from outside `loop` by one item, in the place of the first. -/
def mergeOutside {α : Type} (isInside : α → Bool) (merged : α) : List α → List α
  | [] => []
  | a :: rest => if isInside a then a :: mergeOutside isInside merged rest else merged
    :: rest.filter isInside

/-- The leading phis of a header on their way to a preheader. -/
structure HeaderPhis where
  /-- The instructions of the header. -/
  instrs : List Instr
  /-- The version counters. -/
  versions : Table String Int
  /-- The phis that the preheader needs. -/
  merges : List Phi
  /-- Whether every phi had an operand from outside. -/
  complete : Bool

/-- Lets the leading phis take one operand from the preheader `label` in place of those from outside
the loop. If the latter differ, the preheader needs a phi for them. A phi without such operands ends
it. -/
def splitHeaderPhis (loop : List Label) (label : Label) : List Instr → Table String Int → HeaderPhis
  | .phi φ :: rest, versions =>
    match φ.incoming.filter (·.block ∉ loop) with
    | [] => ⟨.phi φ :: rest, versions, [], false⟩
    | a :: more =>
      let same := more.all (·.value = a.value)
      let version := versions.getD φ.dest.name 0 + 1
      let fresh : Var := ⟨φ.dest.name, some version⟩
      let merged := if same then a.value else .var fresh
      let versions := if same then versions else versions.insert φ.dest.name version
      let tail := splitHeaderPhis loop label rest versions
      let incoming := mergeOutside (·.block ∈ loop) ⟨label, merged⟩ φ.incoming
      let merges := if same then tail.merges else ⟨fresh, a :: more⟩ :: tail.merges
      ⟨.phi { φ with incoming } :: tail.instrs, tail.versions, merges, tail.complete⟩
  | instrs, versions => ⟨instrs, versions, [], true⟩

namespace Edit

/-- Makes a new block on the edges that enter a loop. -/
def makePreheader (header : Label) (loop outside : List Label) : Edit Label := do
  let f ← get
  let label := f.freshLabel (header ++ ".preheader")
  outside.forM fun p => do
    let _ ← ask (·.getBlock p)
    modify (·.modifyBlock p (·.retarget header label))
  let head ← ask (·.getBlock header)
  let split := splitHeaderPhis loop label head.instrs f.versions
  modify fun f =>
    { f.modifyBlock header fun b => { b with instrs := split.instrs } with
      versions := split.versions }
  if !split.complete then fail .noOutsideOperand
  let pre : Block :=
    { name := label, instrs := split.merges.map .phi, term := some (.jump header),
      preds := outside }
  modify fun f =>
    let f := f.modifyBlock header fun b => { b with preds := mergeOutside (· ∈ loop) label b.preds }
    { f with blocks := f.blocks.insertBefore header label pre }
  emit (.preheaderMade f.name label header)
  return label

/-- The block through which alone control enters the loop `loop` at `header`, and whether it was
made for that. A block is taken as it is if it is the only predecessor from outside, goes nowhere
else, and has one predecessor itself. -/
def insertPreheader (header : Label) (loop : List Label) : Edit (Label × Bool) := do
  let head ← ask (·.getBlock header)
  match head.preds.filter (· ∉ loop) with
  | [] => fail (.malformed (.noEnteringEdge (← get).name header))
  | [p] => do
    let b ← ask (·.getBlock p)
    if b.successors = [header] ∧ b.preds.length = 1 then return (b.name, false)
    return (← makePreheader header loop [p], true)
  | outside => return (← makePreheader header loop outside, true)

end Edit

end ThreeAddress
