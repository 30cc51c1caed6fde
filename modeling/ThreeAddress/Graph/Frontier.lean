import ThreeAddress.Graph.Dominators

/-!
# Dominance frontiers

The frontier of a block is where its dominance ends: the blocks with a predecessor that it dominates
and that it does not strictly dominate themselves.
-/

namespace ThreeAddress

/-- The frontier of each reachable block. -/
structure Frontiers where
  /-- The reachable blocks in reverse postorder. -/
  order : List Label
  /-- The frontier of each of them. -/
  sets : Table Label (List Label)
deriving DecidableEq

/-- The blocks that have `b` in their frontier: from each predecessor up the dominator tree, short
of the immediate dominator of `b`. -/
def Graph.runners (g : Graph) (d : Dominators) (b : Label) : List Label :=
  (g.predsWithin d.order b).flatMap (d.chain (d.idom? b))

/-- Computes the frontiers. -/
def Graph.frontiers (g : Graph) (d : Dominators) : Frontiers :=
  let runners := d.order.map fun b => (b, g.runners d b)
  ⟨d.order, Table.ofList (d.order.map fun x =>
    (x, (runners.filter fun r => decide (x ∈ r.2)).map Prod.fst))⟩

/-- Where the search for an iterated frontier stands. -/
structure FrontierSearch where
  /-- The blocks whose frontiers are still to be looked at, the next one first. -/
  work : List Label
  /-- The blocks that were ever to be looked at. -/
  seen : List Label
  /-- What the frontiers held. -/
  found : List Label

/-- Takes note of a block of a frontier: one that was not seen before is to be looked at too. -/
def FrontierSearch.note (s : FrontierSearch) (y : Label) : FrontierSearch :=
  if y ∈ s.found then s
  else if y ∈ s.seen then { s with found := y :: s.found }
  else ⟨y :: s.work, y :: s.seen, y :: s.found⟩

namespace Frontiers

/-- The frontier of a block. -/
def frontier (df : Frontiers) (b : Label) : List Label := df.sets.getD b []

/-- Looks at the frontier of one block after the other. -/
def search (df : Frontiers) : (fuel : Nat) → FrontierSearch → FrontierSearch
  | 0, s => s
  | fuel + 1, s =>
    match s.work with
    | [] => s
    | b :: work => search df fuel ((df.frontier b).foldl .note { s with work := work })

/-- The iterated frontier: the frontiers of the blocks, of their frontiers, and so on. No block is
put on the work list twice, which bounds the search. -/
def iterated (df : Frontiers) (blocks : List Label) : List Label :=
  let work := (blocks.filter (· ∈ df.order)).reverse
  let s := df.search (work.length + df.order.length) ⟨work, work, []⟩
  df.order.filter (· ∈ s.found)

end Frontiers

end ThreeAddress
