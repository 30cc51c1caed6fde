import ThreeAddress.Func.Shape
import ThreeAddress.Text.Printer

/-!
# Loop-invariant code

An instruction in a loop is invariant if each operand is a literal, is defined outside the loop, or
is the result of an invariant instruction. Invariant instructions that can neither fail nor touch
what others see are moved to the end of the preheader of the loop, innermost loops first: arithmetic
with known operations, division only by a literal other than 0, copies, and loads if the loop has no
stores and calls.
-/

namespace ThreeAddress

/-! ## Finding invariant instructions -/

/-- An instruction and where it stands. -/
structure Site where
  /-- The block. -/
  block : Label
  /-- The place among the block's instructions. -/
  index : Nat
  /-- The instruction. -/
  instr : Instr
deriving DecidableEq

/-- Whether an instruction may run where it need not have run before. -/
def isMovable (loopWrites : Bool) : Instr → Bool
  | .binary _ op _ r =>
    match BinaryOp.ofName? op with
    | none => false
    | some o =>
      if o.traps then
        match r with
        | .const n => decide (n ≠ 0)
        | _ => false
      else true
  | .unary _ op _ => (UnaryOp.ofName? op).isSome
  | .copy .. => true
  | .load .. => !loopWrites
  | _ => false

/-- Whether the instruction may change memory. -/
def writesMemory : Instr → Bool
  | .store .. | .call .. => true
  | _ => false

/-- Whether the operand has one value throughout the loop. -/
def isInvariant (inside invariant : List Var) : Operand → Bool
  | .var v => decide (v ∉ inside) || decide (v ∈ invariant)
  | _ => true

/-- What one walk over the candidates found. -/
structure Sweep where
  /-- The sites found to be invariant, in order. -/
  found : List Site
  /-- The sites that are left. -/
  rest : List Site
  /-- The results of all sites found so far. -/
  invariant : List Var

/-- Walks over the candidates once. -/
def sweepInvariants (inside : List Var) : List Var → List Site → Sweep
  | invariant, [] => ⟨[], [], invariant⟩
  | invariant, s :: sites =>
    if s.instr.uses.all (isInvariant inside invariant) then
      let tail := sweepInvariants inside (s.instr.dest?.toList ++ invariant) sites
      { tail with found := s :: tail.found }
    else
      let tail := sweepInvariants inside invariant sites
      { tail with rest := s :: tail.rest }

/-- Walks over the candidates until a walk finds no more. -/
def growInvariants (inside : List Var) : (fuel : Nat) → List Var → List Site → List Site
  | 0, _, _ => []
  | fuel + 1, invariant, sites =>
    let sweep := sweepInvariants inside invariant sites
    if sweep.found.isEmpty then []
    else sweep.found ++ growInvariants inside fuel sweep.invariant sweep.rest

namespace Func

/-- The sites of the given blocks, in order. -/
def sites (f : Func) (labels : List Label) : List Site :=
  labels.flatMap fun l =>
    match f.block? l with
    | none => []
    | some b => b.instrs.zipIdx.map fun (i, n) => ⟨l, n, i⟩

/-- The invariant sites of a loop that can be moved, in an order in which definitions come before
uses. -/
def invariantSites (f : Func) (d : Dominators) (loop : Loop) : List Site :=
  let sites := f.sites (d.order.filter (· ∈ loop.blocks))
  let inside := sites.filterMap (·.instr.dest?)
  let loopWrites := sites.any (writesMemory ·.instr)
  let candidates := sites.filter (isMovable loopWrites ·.instr)
  growInvariants inside (candidates.length + 1) [] candidates

/-- Takes the sites away from their blocks. -/
def removeSites (f : Func) (sites : List Site) : Func :=
  { f with blocks := f.blocks.mapValues fun l b =>
      let gone := (sites.filter (·.block = l)).map (·.index)
      { b with instrs := (b.instrs.zipIdx.filter fun (_, n) => decide (n ∉ gone)).map Prod.fst } }

end Func

/-! ## Moving them -/

/-- A move that was made. -/
structure Hoisted where
  /-- What the instruction defines, as text. -/
  dest : String
  /-- The block that it came from. -/
  source : Label
  /-- The preheader that it went to. -/
  preheader : Label
  /-- The instruction as text. -/
  text : String
deriving DecidableEq

/-- What was moved out of loops. -/
structure HoistReport where
  /-- The function. -/
  function : String
  /-- The number of loops. -/
  loops : Nat := 0
  /-- The preheaders that were made. -/
  preheaders : List Label := []
  /-- The moves, in order. -/
  hoisted : List Hoisted := []
deriving DecidableEq

namespace HoistReport

/-- Whether anything changed. -/
def changed (r : HoistReport) : Bool := !r.hoisted.isEmpty || !r.preheaders.isEmpty

/-- The text of the report. -/
def render (r : HoistReport) : String :=
  let f := r.function
  let loops := r.loops.repr
  let count := r.hoisted.length.repr
  let made := r.preheaders.length.repr
  let head := s!"licm {f}: {loops} loops, {count} instructions hoisted, {made} preheaders created"
  let moves := r.hoisted.map fun h => "  " ++ h.source ++ " -> " ++ h.preheader ++ ": " ++ h.text
  String.intercalate "\n" (head :: moves)

end HoistReport

/-- The record of a move to the preheader `pre`. -/
def Site.movedTo (s : Site) (pre : Label) : Hoisted :=
  let dest := match s.instr.dest? with
    | some d => d.render
    | none => ""
  ⟨dest, s.block, pre, s.instr.render⟩

namespace Edit

/-- Moves sites of a loop to its preheader; returns the preheader and whether it was made for
that. -/
def hoistSites (loop : Loop) (sites : List Site) : Edit (Label × Bool) := do
  let (pre, made) ← insertPreheader loop.header loop.blocks
  let _ ← ask (·.getBlock pre)
  modify fun f =>
    (f.removeSites sites).modifyBlock pre fun b =>
      { b with instrs := b.instrs ++ sites.map (·.instr) }
  let name := (← get).name
  sites.forM fun s => emit (.hoisted name s.instr.render s.block pre)
  return (pre, made)

/-- Goes through the loops that are not done, innermost first; returns the preheaders made and the
moves. After a preheader was made the loops are found anew. -/
def hoistLoops : (fuel : Nat) → Dominators → LoopForest → (done : List Label) →
    Edit (List Label × List Hoisted)
  | 0, _, _, _ => return ([], [])
  | fuel + 1, d, forest, done => do
    match forest.innermostFirst.find? (·.header ∉ done) with
    | none => return ([], [])
    | some loop =>
      let sites := (← get).invariantSites d loop
      if sites.isEmpty then hoistLoops fuel d forest (loop.header :: done)
      else
        let (pre, made) ← hoistSites loop sites
        let moves := sites.map (·.movedTo pre)
        if made then
          let d ← dominators
          let forest ← loops d
          let (preheaders, more) ← hoistLoops fuel d forest (loop.header :: done)
          return (pre :: preheaders, moves ++ more)
        else
          let (preheaders, more) ← hoistLoops fuel d forest (loop.header :: done)
          return (preheaders, moves ++ more)

/-- Moves invariant code out of loops. A preheader is never the header of a loop, so no more loops
come up than there are blocks. -/
def hoist : Edit HoistReport := do
  let f ← get
  if !f.ssa then fail (.violation (.motionNeedsSsa f.name))
  let d ← dominators
  let forest ← loops d
  let (preheaders, hoisted) ← hoistLoops (f.blocks.size + 1) d forest []
  return ⟨f.name, forest.loops.length, preheaders, hoisted⟩

end Edit

end ThreeAddress
