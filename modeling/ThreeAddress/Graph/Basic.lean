import ThreeAddress.Fault
import ThreeAddress.Sum
import ThreeAddress.Table

/-!
# Control-flow graphs

The analyses look at a function only through its graph: the entry and the successors of each block,
in layout order. A successor need not be a block; then the traversals that meet it fail.
-/

namespace ThreeAddress

/-- The control-flow graph of a function. -/
structure Graph where
  /-- The function, as diagnostics name it. -/
  name : String
  /-- Where control starts. -/
  entry : Label
  /-- The distinct successors of each block, in layout order. -/
  succs : Table Label (List Label)
deriving DecidableEq

namespace Graph

/-- The blocks, in layout order. -/
def labels (g : Graph) : List Label := g.succs.keys

/-- The successors of a block; none if it is not in the graph. -/
def next (g : Graph) (b : Label) : List Label := g.succs.getD b []

/-- The blocks among `live` that have an edge to `b`, in layout order. -/
def predsWithin (g : Graph) (live : List Label) (b : Label) : List Label :=
  (g.succs.entries.filter fun e => decide (b ∈ e.2) && decide (e.1 ∈ live)).map Prod.fst

/-- The first edge that leaves one of the blocks `live` for a block that is not there. -/
def dangling? (g : Graph) (live : List Label) : Option (Label × Label) :=
  (g.succs.entries.filter (·.1 ∈ live)).findSome? fun e =>
    (e.2.find? (· ∉ g.labels)).map fun s => (e.1, s)

/-- The predecessors of each of the blocks `live`, counting only edges that come from these. -/
def predecessors (g : Graph) (live : List Label) : Except Malformed (Table Label (List Label)) :=
  match g.dangling? live with
  | some (b, s) => .error (.danglingTarget g.name b s)
  | none => .ok ((g.succs.filter fun b _ => decide (b ∈ live)).mapValues fun b _ =>
    g.predsWithin live b)

/-! ## Reverse postorder -/

/-- Depth-first search with an explicit stack. Each unfinished block stands on the stack with the
successors that it has still to try; a block is put in front of `done` when it has none left. -/
def search (g : Graph) :
    (fuel : Nat) → (visited : List Label) → (stack : List (Label × List Label)) →
    (done : List Label) →
      Except Malformed (List Label)
  | 0, _, _, done => .ok done
  | _ + 1, _, [], done => .ok done
  | fuel + 1, visited, (b, []) :: stack, done => search g fuel visited stack (b :: done)
  | fuel + 1, visited, (b, s :: rest) :: stack, done =>
    if s ∈ visited then search g fuel visited ((b, rest) :: stack) done
    else
      match g.succs.get? s with
      | none => .error (.unknownBlock g.name s)
      | some succs => search g fuel (s :: visited) ((s, succs) :: (b, rest) :: stack) done

/-- How many steps a search can take: each block is finished once and tries each of its successors
once. -/
def searchSteps (g : Graph) : Nat := sumOf (fun e => e.2.length + 1) g.succs.entries

/-- The blocks that can be reached from the entry, each before the blocks that finish before it. -/
def reversePostorder (g : Graph) : Except Malformed (List Label) :=
  match g.succs.get? g.entry with
  | none => .error (.noEntry g.name g.entry)
  | some succs => g.search g.searchSteps [g.entry] [(g.entry, succs)] []

end Graph

end ThreeAddress
