import ThreeAddress.Graph.Basic
import ThreeAddress.Graph.Closure

/-!
# Dominators

A block dominates another if every path from the entry to the other goes through it. The sets are
computed by sweeps in reverse postorder, from all reachable blocks downwards, until a sweep changes
nothing. Blocks that cannot be reached take no part.

A set of blocks is kept as the part of the reverse postorder that belongs to it, so that two equal
sets are equal lists. A result is a snapshot: it describes the graph that it was computed from.
-/

namespace ThreeAddress

variable {order part : List Label} {a : Label}

/-- The dominators of the reachable blocks of a graph. -/
structure Dominators where
  /-- The entry of the graph. -/
  entry : Label
  /-- The reachable blocks in reverse postorder. -/
  order : List Label
  /-- The dominators of each reachable block, itself included. -/
  doms : Table Label (List Label)
  /-- The immediate dominator of each reachable block but the entry. -/
  idoms : Table Label Label
  /-- The number of sweeps that were made. -/
  passes : Nat
deriving DecidableEq

/-! ## Parts of an order -/

/-- Goes on in a part of an order past `a`. -/
def skipHead (a : Label) (part : List Label) : List Label :=
    if part.head? = some a then part.tail else part

/-- What is common to some parts of an order, and `b`, found by going along the order and all parts
at once. -/
def commonPart (b : Label) : (order : List Label) → (parts : List (List Label)) → List Label
  | [], _ => []
  | a :: order, parts =>
    let rest := commonPart b order (parts.map (skipHead a))
    if a = b ∨ ∀ part ∈ parts, part.head? = some a then a :: rest else rest

theorem skipHead_sublist (sub : part.Sublist (a :: order)) : (skipHead a part).Sublist order := by
  cases sub with
  | cons _ sub =>
    unfold skipHead
    split
    · exact (List.tail_sublist part).trans sub
    · exact sub
  | cons_cons _ sub => simpa [skipHead] using sub

theorem head?_eq_some_iff_mem (fresh : a ∉ order) (sub : part.Sublist (a :: order)) :
    part.head? = some a ↔ a ∈ part := by
  cases sub with
  | cons _ sub =>
    have absent : a ∉ part := fun h => fresh (sub.subset h)
    constructor
    · exact fun h => List.mem_of_mem_head? h
    · exact fun h => absurd h absent
  | cons_cons _ sub => simp

theorem mem_skipHead {x : Label} (other : x ≠ a) : x ∈ skipHead a part ↔ x ∈ part := by
  unfold skipHead
  split
  · cases part with
    | nil => simp
    | cons c part => simp_all
  · rfl

/-- Going along is the same as asking of each block whether it is in all parts. -/
theorem commonPart_eq_filter (b : Label) (nodup : order.Nodup) (parts : List (List Label))
    (sub : ∀ part ∈ parts, part.Sublist order) :
    commonPart b order parts = order.filter fun a => decide (a = b) || parts.all fun part =>
      decide (a ∈ part) := by
  induction order generalizing parts with
  | nil => rfl
  | cons a order ih =>
    obtain ⟨fresh, nodup⟩ := List.nodup_cons.1 nodup
    have rest := ih nodup (parts.map (skipHead a)) (by
      intro part mem
      obtain ⟨q, hq, rfl⟩ := List.mem_map.1 mem
      exact skipHead_sublist (sub q hq))
    have same : (order.filter fun x => decide (x = b) || (parts.map (skipHead a)).all fun part =>
        decide (x ∈ part))
        = order.filter fun x => decide (x = b) || parts.all fun part => decide (x ∈ part) := by
      apply List.filter_congr
      intro x mem
      have other : x ≠ a := fun h => fresh (h ▸ mem)
      simp [List.all_map, Function.comp_def, mem_skipHead other]
    have heads : (∀ part ∈ parts, part.head? = some a) ↔ ∀ part ∈ parts, a ∈ part := by
      constructor
      · exact fun h part mem => (head?_eq_some_iff_mem fresh (sub part mem)).1 (h part mem)
      · exact fun h part mem => (head?_eq_some_iff_mem fresh (sub part mem)).2 (h part mem)
    rw [commonPart, rest, same, List.filter_cons]
    simp [heads]

/-! ## The computation -/

namespace Graph

/-- One step of the computation: `b` and what dominates all its predecessors. -/
def meetPreds (g : Graph) (order : List Label) (doms : Table Label (List Label)) (b : Label) :
    List Label :=
  match g.predsWithin order b with
  | [] => [b]
  | preds => commonPart b order (preds.map fun p => doms.getD p [])

/-- One sweep over the blocks. -/
def sweep (g : Graph) (order : List Label) (doms : Table Label (List Label)) :
    Table Label (List Label) :=
  order.foldl
    (fun doms b => if b = g.entry then doms else doms.insert b (g.meetPreds order doms b)) doms

/-- Sweeps until nothing changes, at most `limit` times; the sets and the number of sweeps made. -/
def settle (g : Graph) (order : List Label) :
    (limit passes : Nat) → Table Label (List Label) → Option (Table Label (List Label) × Nat)
  | 0, _, _ => none
  | limit + 1, passes, doms =>
    let doms' := g.sweep order doms
    if doms' = doms then some (doms, passes + 1) else settle g order limit (passes + 1) doms'

/-- The sets to start from: the entry dominates itself, and any other block all of them. -/
def startSets (g : Graph) (order : List Label) : Table Label (List Label) :=
  Table.ofList (order.map fun b => (b, if b = g.entry then [b] else order))

end Graph

/-- The immediate dominator: the dominators of a block form a chain, and the closest of the strict
ones has the most dominators itself. -/
def closestDominator (doms : Table Label (List Label)) (b : Label) : Option Label :=
  ((doms.getD b []).filter (· ≠ b)).maxOn? fun a => (doms.getD a []).length

/-- Computes the dominators; more sweeps than blocks are never needed. -/
def Graph.dominators (g : Graph) : Except Malformed Dominators := do
  let order ← g.reversePostorder
  match g.settle order (order.length + 2) 0 (g.startSets order) with
  | none => .error (.notConverged g.name (order.length + 2))
  | some (doms, passes) =>
    let idoms := order.filterMap fun b =>
      if b = g.entry then none else (closestDominator doms b).map fun a => (b, a)
    .ok ⟨g.entry, order, doms, Table.ofList idoms, passes⟩

/-- A step of a walk over the dominator tree. -/
inductive TreeStep where
  /-- A block is entered. -/
  | enter (b : Label)
  /-- A block is left, after its subtrees. -/
  | leave (b : Label)

namespace Dominators

/-- Whether the block can be reached from the entry. -/
def isReachable (d : Dominators) (b : Label) : Bool := d.doms.contains b

/-- Whether every path from the entry to `b` goes through `a`. -/
def dominates (d : Dominators) (a b : Label) : Bool := decide (a ∈ d.doms.getD b [])

/-- Whether `a` dominates `b` and is another block. -/
def strictlyDominates (d : Dominators) (a b : Label) : Bool := decide (a ≠ b) && d.dominates a b

/-- The immediate dominator. -/
def idom? (d : Dominators) (b : Label) : Option Label := d.idoms.get? b

/-- The blocks that `b` dominates immediately, in reverse postorder. -/
def children (d : Dominators) (b : Label) : List Label :=
    (d.idoms.entries.filter (·.2 = b)).map Prod.fst

/-- Walks the dominator tree: a block, then its subtrees, then what is left on the stack. -/
def preorderFrom (d : Dominators) : (fuel : Nat) → (stack : List Label) → List Label
  | 0, _ => []
  | _ + 1, [] => []
  | fuel + 1, b :: stack => b :: preorderFrom d fuel (d.children b ++ stack)

/-- The blocks in preorder of the dominator tree. -/
def preorder (d : Dominators) : List Label := d.preorderFrom d.order.length [d.entry]

/-- Walks the dominator tree with a stack of the steps that are to be made. -/
def tourFrom (d : Dominators) : (fuel : Nat) → (stack : List TreeStep) → List TreeStep
  | 0, _ => []
  | _ + 1, [] => []
  | fuel + 1, .leave b :: stack => .leave b :: tourFrom d fuel stack
  | fuel + 1, .enter b :: stack =>
    .enter b :: tourFrom d fuel ((d.children b).map .enter ++ .leave b :: stack)

/-- A walk over the dominator tree that enters and leaves each block once. -/
def tour (d : Dominators) : List TreeStep := d.tourFrom (2 * d.order.length) [.enter d.entry]

/-- A block, its immediate dominator, and so on up the tree, short of `stop`. -/
def climb (d : Dominators) (stop : Option Label) : (fuel : Nat) → Label → List Label
  | 0, _ => []
  | fuel + 1, b =>
    if stop = some b then []
    else
      b :: match d.idom? b with
        | none => []
        | some a => climb d stop fuel a

/-- The blocks from `b` up the dominator tree, short of `stop`. -/
def chain (d : Dominators) (stop : Option Label) (b : Label) : List Label :=
    d.climb stop d.order.length b

end Dominators

/-! ## Dominators by deletion -/

namespace Graph

/-- The blocks that can be reached from the entry without passing through `removed`. -/
def reachableWithout (g : Graph) (removed : Option Label) : List Label :=
  if some g.entry = removed then []
  else closure g.labels (fun b => (g.next b).filter fun s => some s ≠ removed) [g.entry]

/-- The dominators from their definition: `a` dominates `b` if `b` cannot be reached once `a` is
deleted. -/
def dominatorsByDeletion (g : Graph) : Table Label (List Label) :=
  let live := g.reachableWithout none
  let without := Table.ofList (live.map fun a => (a, g.reachableWithout (some a)))
  Table.ofList (live.map fun b =>
    (b, live.filter fun a => decide (a = b) || decide (b ∉ without.getD a [])))

end Graph

end ThreeAddress
