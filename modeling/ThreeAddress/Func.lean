import ThreeAddress.Block
import ThreeAddress.Fresh
import ThreeAddress.Graph.Frontier
import ThreeAddress.Graph.Loops

/-!
# Functions

A function owns its blocks, in layout order. A block is registered under a key; the name it bears is
its own and equals the key in a well-formed function.
-/

namespace ThreeAddress

/-- A function. -/
structure Func where
  /-- The name that it is called by. -/
  name : String
  /-- The names of the parameters. -/
  params : List String
  /-- The blocks, in layout order. -/
  blocks : Table Label Block := .empty
  /-- Where control starts. -/
  entry : Label := "entry"
  /-- Whether the function is in SSA form. -/
  ssa : Bool := false
  /-- The last version handed out for each name. -/
  versions : Table String Int := .empty
deriving DecidableEq

namespace Func

/-- The block registered under `l`. -/
def block? (f : Func) (l : Label) : Option Block := f.blocks.get? l

/-- The block registered under `l`, which has to be there. -/
def getBlock (f : Func) (l : Label) : Except Fault Block :=
  match f.block? l with
  | some b => .ok b
  | none => .error (.malformed (.unknownBlock f.name l))

/-- The block registered under a label that was met in an earlier look at the function. -/
def recallBlock (f : Func) (l : Label) : Except Fault Block :=
  match f.block? l with
  | some b => .ok b
  | none => .error (.staleLabel l)

/-- The blocks in layout order. -/
def blockList (f : Func) : List Block := f.blocks.values

/-- All instructions and terminators, block by block. -/
def nodes (f : Func) : List Node := f.blockList.flatMap Block.nodes

/-- The control-flow graph. -/
def graph (f : Func) : Graph := ⟨f.name, f.entry, f.blocks.mapValues fun _ b => b.successors⟩

/-- The reachable blocks in reverse postorder. -/
def reversePostorder (f : Func) : Except Fault (List Label) :=
    f.graph.reversePostorder.mapError .malformed

/-- The dominators of the function's graph. -/
def dominators (f : Func) : Except Fault Dominators := f.graph.dominators.mapError .malformed

/-- The predecessors by the terminators, of the blocks `live` or of all. -/
def predecessors (f : Func) (live : Option (List Label)) :
    Except Fault (Table Label (List Label)) :=
  (f.graph.predecessors (live.getD f.blocks.keys)).mapError .malformed

/-- Changes the block registered under `l`, if there is one. -/
def modifyBlock (f : Func) (l : Label) (g : Block → Block) : Func :=
    { f with blocks := f.blocks.modify l g }

/-- Changes every block. -/
def mapBlocks (f : Func) (g : Block → Block) : Func :=
    { f with blocks := f.blocks.mapValues fun _ b => g b }

/-! ## Fresh names -/

/-- The last version handed out for a name, 0 if there was none. -/
def lastVersion (f : Func) (base : String) : Int := f.versions.getD base 0

/-- Hands out the next version of a name. -/
def freshVar (f : Func) (base : String) : Var × Func :=
  let n := f.lastVersion base + 1
  (⟨base, some n⟩, { f with versions := f.versions.insert base n })

/-- A label that no block is registered under: `base`, or `base.1`, `base.2`, ... -/
def freshLabel (f : Func) (base : String) : Label := firstFree (numbered base) f.blocks.keys

/-! ## Adding a block -/

/-- Registers a block under its name, placed just before the block `before` if that is given and
there. -/
def insertBlock (f : Func) (b : Block) (before : Option Label) : Except Fault Func :=
  if b.name ∈ f.blocks then .error (.violation (.blockExists f.name b.name))
  else
    match before with
    | none => .ok { f with blocks := f.blocks.insert b.name b }
    | some l => .ok { f with blocks := f.blocks.insertBefore l b.name b }

end Func

/-- A program: its functions by name, in the order of the source. -/
structure Program where
  /-- The functions. -/
  functions : Table String Func := .empty
deriving DecidableEq

namespace Program

/-- The function with the given name. -/
def function? (p : Program) (name : String) : Option Func := p.functions.get? name

/-- The function with the given name, which has to be there. -/
def getFunction (p : Program) (name : String) : Except Fault Func :=
  match p.function? name with
  | some f => .ok f
  | none => .error (.malformed (.unknownFunction name))

/-- Puts a function in the place of the one with its name. -/
def setFunction (p : Program) (f : Func) : Program := ⟨p.functions.insert f.name f⟩

end Program

end ThreeAddress
