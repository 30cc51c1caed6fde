import ThreeAddress.Graph.Dominators
import ThreeAddress.Sort

/-!
# Natural loops

A back edge goes to a block that dominates its source. The loop of a header consists of the header
and the blocks that reach the source of one of its back edges without passing through it. An edge
that goes back in reverse postorder to a block that does not dominate its source is irreducible: it
is recorded and makes no loop.
-/

namespace ThreeAddress

/-- A natural loop. -/
structure Loop where
  /-- The block through which control enters. -/
  header : Label
  /-- The blocks of the loop, the header included, in reverse postorder. -/
  blocks : List Label
  /-- The sources of the back edges, in reverse postorder. -/
  latches : List Label
deriving DecidableEq

/-- The loops of a graph. -/
structure LoopForest where
  /-- The loops, by the place of their headers in reverse postorder. -/
  loops : List Loop
  /-- The edges that go back without making a loop. -/
  irreducible : List (Label × Label)
deriving DecidableEq

namespace Graph

/-- The sources of the back edges to `h`. -/
def latches (g : Graph) (d : Dominators) (h : Label) : List Label :=
  d.order.filter fun b => decide (h ∈ g.next b) && d.dominates h b

/-- The blocks of the loop of header `h`. -/
def loopBlocks (g : Graph) (d : Dominators) (h : Label) (latches : List Label) : List Label :=
  let body := closure d.order (fun b => if b = h then [] else g.predsWithin d.order b)
    (h :: latches)
  d.order.filter (· ∈ body)

/-- The edges that go back to a block that does not dominate their source. -/
def irreducibleEdges (g : Graph) (d : Dominators) : List (Label × Label) :=
  d.order.flatMap fun b =>
    ((g.next b).filter fun s => !d.dominates s b && decide (d.order.idxOf s ≤ d.order.idxOf b)).map
      fun s => (b, s)

/-- Finds the loops. -/
def loops (g : Graph) (d : Dominators) : LoopForest where
  loops := d.order.filterMap fun h =>
    match g.latches d h with
    | [] => none
    | latches => some ⟨h, g.loopBlocks d h latches, latches⟩
  irreducible := g.irreducibleEdges d

end Graph

namespace Loop

/-- Whether the block belongs to the loop. -/
def contains (l : Loop) (b : Label) : Bool := decide (b ∈ l.blocks)

/-- Whether all of `l` lies in another loop `outer`; both list their blocks in one order. -/
def within (l outer : Loop) : Bool :=
    decide (outer.header ≠ l.header) && l.blocks.isSublist outer.blocks

/-- The edges that leave the loop, by the name of their source. -/
def exits (l : Loop) (g : Graph) : List (Label × Label) :=
  (sortBy (fun a b => decide (a ≤ b)) l.blocks).flatMap fun b =>
    ((g.next b).filter (· ∉ l.blocks)).map fun s => (b, s)

end Loop

/-- The first loop with the fewest blocks. -/
def smallest : List Loop → Option Loop
  | [] => none
  | l :: rest =>
    match smallest rest with
    | none => some l
    | some m => if l.blocks.length ≤ m.blocks.length then some l else some m

namespace LoopForest

/-- The smallest loop that contains another one. -/
def parent? (forest : LoopForest) (l : Loop) : Option Loop :=
    smallest (forest.loops.filter l.within)

/-- The loops that have `l` as their parent. -/
def children (forest : LoopForest) (l : Loop) : List Loop :=
  forest.loops.filter fun m => (forest.parent? m).map (·.header) = some l.header

/-- The number of loops from `l` up to an outermost one. -/
def depthFrom (forest : LoopForest) : (fuel : Nat) → Loop → Nat
  | 0, _ => 1
  | fuel + 1, l =>
    match forest.parent? l with
    | none => 1
    | some outer => depthFrom forest fuel outer + 1

/-- How deep a loop is nested, an outermost one at depth 1. -/
def depth (forest : LoopForest) (l : Loop) : Nat := forest.depthFrom forest.loops.length l

/-- The loops that lie in no other. -/
def roots (forest : LoopForest) : List Loop := forest.loops.filter fun l =>
    (forest.parent? l).isNone

/-- The loops by decreasing depth, those of one depth in their order. -/
def innermostFirst (forest : LoopForest) : List Loop :=
  let deep := forest.loops.map fun l => (forest.depth l, l)
  (sortBy (fun a b => decide (b.1 ≤ a.1)) deep).map Prod.snd

/-- The loop with the given header. -/
def loopOfHeader? (forest : LoopForest) (h : Label) : Option Loop :=
    forest.loops.find? (·.header = h)

/-- The smallest loop that contains a block. -/
def innermostOf? (forest : LoopForest) (b : Label) : Option Loop :=
    smallest (forest.loops.filter (·.contains b))

end LoopForest

end ThreeAddress
