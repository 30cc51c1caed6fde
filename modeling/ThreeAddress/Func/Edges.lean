import ThreeAddress.Edit

/-!
# Edges

An edge shows in three places: the terminator of its source, the predecessor list of its target and
the phis of its target. The edits here change one after the other. `Func.removeEdge`,
`Func.splitEdge` and `Func.deleteBlock` say what becomes of a function in the end.
-/

namespace ThreeAddress

namespace Func

/-- The edges by the terminators, in layout order; a source goes by the name it bears. -/
def edges (f : Func) : List (Label × Label) := f.blockList.flatMap fun b =>
    b.successors.map fun s => (b.name, s)

/-- Makes the predecessor lists show the given edges. -/
def setPreds (f : Func) (edges : List (Label × Label)) : Func :=
  { f with
    blocks := f.blocks.mapValues fun l b =>
      { b with preds := (edges.filter (·.2 = l)).map Prod.fst } }

/-- The function without `src` among the predecessors and in the phis of `dst`. -/
def removeEdge (f : Func) (src dst : Label) : Except Fault Func := do
  let _ ← f.getBlock dst
  return f.modifyBlock dst (·.dropPred src)

/-- The name of a block on an edge: `name`, unless there is none or it is empty. -/
def edgeName (src dst : Label) : Option String → String
  | none | some "" => src ++ "." ++ dst
  | some name => name

/-- The function with an empty block on the edge from `src` to `dst`, and the label of the block. -/
def splitEdge (f : Func) (src dst : Label) (name : Option String) :
    Except Fault (Label × Func) := do
  let source ← f.getBlock src
  let _ ← f.getBlock dst
  if dst ∉ source.successors then throw (.violation (.noEdge f.name src dst))
  let label := f.freshLabel (edgeName src dst name)
  let mid : Block := { name := label, term := some (.jump dst), preds := [src] }
  let f := (f.modifyBlock src (·.retarget dst label)).modifyBlock dst (·.renamePred src label)
  return (label, { f with blocks := f.blocks.insertBefore dst label mid })

/-- The function without a block and the edges that leave it. -/
def deleteBlock (f : Func) (l : Label) : Except Fault Func := do
  let b ← f.getBlock l
  let f := (b.successors.filter (· ≠ l)).foldl (fun f s => f.modifyBlock s (·.dropPred l)) f
  return { f with blocks := f.blocks.erase l }

end Func

namespace Edit

/-- Rebuilds the predecessor lists from the terminators. An edge to a block that is not there ends
it. -/
def link : Edit Unit := do
  let f ← get
  let known := f.edges.takeWhile fun e => decide (e.2 ∈ f.blocks)
  modify (·.setPreds known)
  match f.edges[known.length]? with
  | some (_, s) => fail (.malformed (.unknownBlock f.name s))
  | none => return ()

/-- Takes `src` from the predecessors and phis of `dst`; the terminator is left to the caller. -/
def removeEdge (src dst : Label) : Edit Unit := do
  let _ ← ask (·.getBlock dst)
  modify (·.modifyBlock dst fun b => { b with preds := b.preds.filter (· ≠ src) })
  modify (·.modifyBlock dst (·.mapPhis (·.removeIncoming src)))

/-- Puts an empty block on the edge from `src` to `dst` and returns its label. -/
def splitEdge (src dst : Label) (name : Option String) : Edit Label := do
  let source ← ask (·.getBlock src)
  let _ ← ask (·.getBlock dst)
  let f ← get
  if dst ∉ source.successors then fail (.violation (.noEdge f.name src dst))
  let label := f.freshLabel (Func.edgeName src dst name)
  modify (·.modifyBlock src (·.retarget dst label))
  modify (·.modifyBlock dst fun b =>
    { b with preds := b.preds.map fun p => if p = src then label else p })
  modify (·.modifyBlock dst (·.mapPhis (·.renameIncoming src label)))
  apply (·.insertBlock { name := label, term := some (.jump dst), preds := [src] } (some dst))
  return label

/-- Takes a block off the edges that leave it, and away. -/
def deleteBlock (l : Label) : Edit Unit := do
  let b ← ask (·.getBlock l)
  b.successors.forM fun s => do
    if s ∈ (← get).blocks ∧ s ≠ l then removeEdge l s
  modify fun f => { f with blocks := f.blocks.erase l }

/-- Makes a branch a jump to one of its arms, which it returns. -/
def foldBranch (l : Label) (taken : Bool) : Edit Label := do
  let b ← ask (·.getBlock l)
  match b.term with
  | some (.branch _ t e) =>
    let keep := if taken then t else e
    let drop := if taken then e else t
    modify (·.modifyBlock l fun b => { b with term := some (.jump keep) })
    if drop ≠ keep then removeEdge l drop
    return keep
  | _ => fail (.violation (.notBranch (← get).name l))

end Edit

end ThreeAddress
