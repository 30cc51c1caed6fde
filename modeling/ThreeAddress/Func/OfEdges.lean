import ThreeAddress.Func.Edges

/-!
# Functions from edges

A function that consists of nothing but its graph, to look at graphs alone: blocks are empty, and a
block with two outgoing edges branches on the variable `c`.
-/

namespace ThreeAddress

/-- A block has more outgoing edges than a terminator can hold. -/
structure TooManyEdges where
  /-- The block. -/
  block : Label
deriving DecidableEq

/-- The text that reports the failure. -/
def TooManyEdges.message (e : TooManyEdges) : String :=
  let block := e.block
  s!"block {block} has more than two successors"

/-- The terminator that goes to the given blocks. -/
def Terminator.ofTargets? : List Label → Option Terminator
  | [] => some (.ret none)
  | [t] => some (.jump t)
  | [t, e] => some (.branch (.var ⟨"c", none⟩) t e)
  | _ => none

namespace Func

/-- The blocks that edges mention, in order, after the entry and the given blocks. -/
def edgeLabels (edges : List (Label × Label)) (entry : Label) (labels : List Label) : List Label :=
  (Table.ofList ((entry :: labels ++ edges.flatMap fun e => [e.1, e.2]).map fun l => (l, ()))).keys

/-- The empty blocks of a graph. -/
def edgeBlocks (edges : List (Label × Label)) : List Label →
    Except TooManyEdges (List (Label × Block))
  | [] => .ok []
  | l :: rest =>
    match Terminator.ofTargets? ((edges.filter (·.1 = l)).map Prod.snd) with
    | none => .error ⟨l⟩
    | some t => do
      let blocks ← edgeBlocks edges rest
      return (l, { name := l, term := some t }) :: blocks

/-- The function `f` with the given graph. -/
def ofEdges (edges : List (Label × Label)) (entry : Label) (labels : List Label) :
    Except TooManyEdges Func := do
  let blocks ← edgeBlocks edges (edgeLabels edges entry labels)
  let f : Func := { name := "f", params := [], blocks := Table.ofList blocks, entry }
  return f.setPreds f.edges

end Func

end ThreeAddress
