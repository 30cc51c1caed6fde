import ThreeAddress.Constants.Constancy
import ThreeAddress.Edit

/-!
# Sparse conditional constants

Which values are constant, and which blocks and edges can run, found together. Values start at
`top`, parameters at `bottom`. Two queues drive the search: edges that were found to run, and nodes
an operand of which changed. A phi meets only the operands that arrive along edges that run; an
operation folds when its operands are constants, and one that has no result varies. A branch on a
constant lets one edge run, a branch on a value that varies lets both.

A value is only ever met with new facts, so it goes down twice at most, and that bounds the search.
-/

namespace ThreeAddress

/-- A queue that is being emptied before the other one gets its turn. -/
inductive Turn where
  | edges | uses
deriving DecidableEq

/-- What is known in the course of the search. -/
structure Facts where
  /-- What is known about each value. -/
  values : Table Var Constancy
  /-- The blocks that can run, in the order found. -/
  blocks : List Label := []
  /-- The edges that can run, in the order found. -/
  edges : List (Label × Label) := []
  /-- Edges found to run and not looked at; the entry is reached from nowhere. -/
  edgeQueue : List (Option Label × Label)
  /-- Nodes to look at again, with their blocks. -/
  useQueue : List (Node × Label) := []
  /-- The queue in turn. -/
  turn : Turn := .edges
  /-- An edge that runs goes to a block that is not there. -/
  missing : Option Label := none
  /-- What was reported, in order. -/
  log : List Event := []

namespace Facts

/-- What is known about an operand. -/
def valueOf (s : Facts) : Operand → Constancy
  | .const n => .const n
  | .var v => s.values.getD v .bottom
  | .undefined => .bottom

end Facts

namespace Func

/-- The nodes that read `v`, each once for every time it does, with the names of their blocks. -/
def usesOf (f : Func) (v : Var) : List (Node × Label) :=
  f.blockList.flatMap fun b => b.nodes.flatMap fun n =>
    (n.uses.filter fun x => decide (x = .var v)).map fun _ => (n, b.name)

/-- The facts at the start. -/
def initialFacts (f : Func) : Facts :=
  let defined : List (Var × Constancy) := f.nodes.filterMap fun n => n.dest?.map fun d => (d, .top)
  let params : List (Var × Constancy) := f.params.map fun p => (⟨p, some 0⟩, .bottom)
  { values := Table.ofList (defined ++ params), edgeQueue := [(none, f.entry)] }

end Func

/-! ## Folding -/

/-- The result of a binary operation on what is known about its operands. -/
def foldBinary (op : String) : Constancy → Constancy → Except EvalError Constancy
  | .bottom, _ | _, .bottom => .ok .bottom
  | .top, _ | _, .top => .ok .top
  | .const a, .const b => (evalBinary op a b).map .const

/-- The result of a unary operation on what is known about its operand. -/
def foldUnary (op : String) : Constancy → Except EvalError Constancy
  | .bottom => .ok .bottom
  | .top => .ok .top
  | .const a => (evalUnary op a).map .const

/-- What is reported of an operation that has no result. -/
def keptEvent (op : String) : EvalError → Event
  | .divisionByZero | .remainderByZero => .divisionKept op
  | cause => .opcodeKept cause

namespace Facts

/-- Meets the fact about `v` with `new`; if that changes it, the uses of `v` are to be looked at
again. -/
def update (f : Func) (v : Var) (new : Constancy) (s : Facts) : Facts :=
  let old := s.values.getD v .top
  let met := old.meet new
  if met = old then s
  else { s with values := s.values.insert v met, useQueue := s.useQueue ++ f.usesOf v }

/-- Takes note of the result of an operation. -/
def updateWith (f : Func) (v : Var) (op : String) (result : Except EvalError Constancy)
    (s : Facts) : Facts :=
  match result with
  | .ok c => s.update f v c
  | .error e => { s with log := s.log ++ [keptEvent op e] }.update f v .bottom

/-- The meet of the operands of a phi that arrive along edges that run. -/
def phiValue (s : Facts) (b : Label) (φ : Phi) : Constancy :=
  ((φ.incoming.filter fun a => decide ((a.block, b) ∈ s.edges)).map fun a =>
    s.valueOf a.value).foldl .meet .top

/-- Looks at a phi of block `b`. -/
def visitPhi (f : Func) (b : Label) (s : Facts) (φ : Phi) : Facts :=
    s.update f φ.dest (s.phiValue b φ)

/-- Lets an edge run. -/
def pushEdge (s : Facts) (b target : Label) : Facts :=
    { s with edgeQueue := s.edgeQueue ++ [(some b, target)] }

/-- Looks at an instruction of block `b`. -/
def visitInstr (f : Func) (b : Label) (s : Facts) : Instr → Facts
  | .phi φ => s.visitPhi f b φ
  | .binary d op l r => s.updateWith f d op (foldBinary op (s.valueOf l) (s.valueOf r))
  | .unary d op x => s.updateWith f d op (foldUnary op (s.valueOf x))
  | .copy d x => s.update f d (s.valueOf x)
  | .load d _ | .read d | .call (some d) _ _ => s.update f d .bottom
  | .call none _ _ | .store .. | .write _ => s

/-- Looks at the terminator of block `b`. -/
def visitTerm (b : Label) (s : Facts) : Terminator → Facts
  | .jump t => s.pushEdge b t
  | .branch c t e =>
    match s.valueOf c with
    | .top => s
    | .const n => s.pushEdge b (if n ≠ 0 then t else e)
    | .bottom => (s.pushEdge b t).pushEdge b e
  | .ret _ => s

/-- Looks at a node of block `b`. -/
def visit (f : Func) (b : Label) (s : Facts) : Node → Facts
  | .instr i => s.visitInstr f b i
  | .term t => s.visitTerm b t

/-! ## The search -/

/-- Enters block `l` along an edge that was found to run: the first time all of it is looked at,
later its phis. -/
def enter (f : Func) (l : Label) (s : Facts) : Facts :=
  match f.block? l with
  | none => { s with missing := some l }
  | some b =>
    if l ∈ s.blocks then b.phis.foldl (visitPhi f l) s
    else b.nodes.foldl (visit f l) { s with blocks := s.blocks ++ [l] }

/-- Looks at an edge. -/
def visitEdge (f : Func) (src : Option Label) (dst : Label) (s : Facts) : Facts :=
  match src with
  | none => s.enter f dst
  | some p =>
    if (p, dst) ∈ s.edges then s else { s with edges := s.edges ++ [(p, dst)] }.enter f dst

/-- Looks at a node again, if its block can run. -/
def visitUse (f : Func) (n : Node) (b : Label) (s : Facts) : Facts :=
    if b ∈ s.blocks then s.visit f b n else s

/-- One item of the queues; `none` when both are empty or an edge goes nowhere. The queue in turn is
emptied before the other gets its turn. -/
def step (f : Func) (s : Facts) : Option Facts :=
  match s.missing, s.turn, s.edgeQueue, s.useQueue with
  | some _, _, _, _ => none
  | none, _, [], [] => none
  | none, .edges, (p, l) :: rest, _ => some ({ s with edgeQueue := rest }.visitEdge f p l)
  | none, .uses, (p, l) :: rest, [] =>
    some ({ s with edgeQueue := rest, turn := .edges }.visitEdge f p l)
  | none, .uses, _, (n, b) :: rest => some ({ s with useQueue := rest }.visitUse f n b)
  | none, .edges, [], (n, b) :: rest =>
    some ({ s with useQueue := rest, turn := .uses }.visitUse f n b)

/-- Takes up to `fuel` items from the queues. -/
def search (f : Func) : (fuel : Nat) → Facts → Facts
  | 0, s => s
  | fuel + 1, s =>
    match s.step f with
    | none => s
    | some s' => search f fuel s'

end Facts

namespace Func

/-- The number of operands that the nodes of a function read. -/
def useCount (f : Func) : Nat := sumOf (fun n => n.uses.length) f.nodes

/-- A bound on the items that the queues get: a value changes twice at most, and each change queues
its uses once; a terminator is looked at once and at each change of its condition, and queues two
edges at most. -/
def searchBound (f : Func) : Nat := 2 + 6 * f.blocks.size + 2 * f.useCount

/-- The constants of a function, and the blocks and edges that can run. -/
def facts (f : Func) : Facts := f.initialFacts.search f f.searchBound

end Func

/-- Finds constants and reports what the search met. -/
def Edit.findConstants : Edit Facts := do
  let f ← get
  let s := f.facts
  s.log.forM emit
  match s.missing with
  | some l => fail (.malformed (.unknownBlock f.name l))
  | none => return s

end ThreeAddress
