import ThreeAddress.Func.Shape
import ThreeAddress.Ssa.DeadPhis

/-!
# SSA construction

Unreachable blocks go, and the entry gets no predecessors. Then each variable gets phis at the
iterated dominance frontier of the blocks that assign it, where parameters count as assigned in the
entry. Last, definitions and uses are renamed along the dominator tree, with a stack of definitions
for each name: parameters are version 0, each definition gets the next version of its name and goes
on top, and a use takes what is on top. When a block is left, its definitions are taken off again.
-/

namespace ThreeAddress

/-- What becomes of a use that no definition reaches. -/
inductive UndefinedPolicy where
  /-- It reads the undefined operand. -/
  | sentinel
  /-- It is refused. -/
  | refuse
deriving DecidableEq

/-! ## Placing phis -/

/-- Adds a block to those that assign a name. -/
def addDefBlock (sites : Table String (List Label)) (name : String) (l : Label) :
    Table String (List Label) :=
  sites.insert name (sites.getD name [] ++ [l])

namespace Func

/-- The names that a block assigns, in order. -/
def assignedIn (f : Func) (l : Label) : List String :=
  match f.block? l with
  | none => []
  | some b => b.instrs.filterMap fun i => i.dest?.map (·.name)

/-- The blocks that assign each name: parameters first, then names by their first assignment. -/
def defBlocks (f : Func) (order : List Label) : Table String (List Label) :=
  let assignments := order.flatMap fun l => (f.assignedIn l).map fun x => (x, l)
  assignments.foldl (fun sites a => addDefBlock sites a.1 a.2)
    (Table.ofList (f.params.map fun p => (p, [f.entry])))

/-- The names that need phis, each with the blocks that need one. -/
def phiSites (f : Func) (order : List Label) (df : Frontiers) : List (String × List Label) :=
  (f.defBlocks order).entries.map fun e => (e.1, df.iterated e.2)

/-- A phi for a name that has not been renamed. -/
def blankPhi (name : String) (preds : List Label) : Phi :=
    ⟨⟨name, none⟩, preds.map fun p => ⟨p, .var ⟨name, none⟩⟩⟩

/-- Puts phis in front of the blocks that need them. -/
def placePhis (f : Func) (sites : List (String × List Label)) : Func :=
  { f with blocks := f.blocks.mapValues fun l b =>
      let names := (sites.filter fun s => decide (l ∈ s.2)).map Prod.fst
      { b with instrs := (names.map fun x => .phi (blankPhi x b.preds)) ++ b.instrs } }

end Func

/-! ## Renaming -/

/-- The definitions of each name that a walk has on its way, the latest on top. -/
structure Reaching where
  /-- The stack of each name. -/
  byName : Table String (List Var)

namespace Reaching

/-- The definitions of a name. -/
def stack (defs : Reaching) (x : String) : List Var := defs.byName.getD x []

/-- The definition of a name that reaches the point. -/
def get? (defs : Reaching) (x : String) : Option Var := (defs.stack x).head?

/-- Puts a definition on top. -/
def push (defs : Reaching) (x : String) (v : Var) : Reaching :=
  ⟨defs.byName.insert x (v :: defs.stack x)⟩

/-- Takes off the definition of a name on top. -/
def pop (defs : Reaching) (x : String) : Reaching := ⟨defs.byName.insert x (defs.stack x).tail⟩

/-- What reaches the entry: parameters are version 0. -/
def ofParams (params : List String) : Reaching :=
  ⟨Table.ofList (params.map fun p => (p, [⟨p, some 0⟩]))⟩

end Reaching

/-- What a use becomes; `none` if no definition reaches it. -/
def Reaching.resolve? (defs : Reaching) : Operand → Option Operand
  | .var v => (defs.get? v.name).map .var
  | x => some x

/-- What a use becomes, the undefined operand if no definition reaches it. -/
def Reaching.resolve (defs : Reaching) (x : Operand) : Operand := (defs.resolve? x).getD .undefined

/-- The names among some operands that no definition reaches, in order. -/
def Reaching.unresolved (defs : Reaching) (uses : List Operand) : List String :=
  (uses.filter fun x => (defs.resolve? x).isNone).filterMap fun x => x.var?.map (·.name)

/-- An instruction as it is left when one of its uses is refused: operands before that use are
renamed, unless they are the arguments of a call. -/
def refusedInstr (defs : Reaching) : Instr → Instr
  | .binary d op l r =>
    if (defs.resolve? l).isSome then .binary d op (defs.resolve l) r else .binary d op l r
  | .store a v => if (defs.resolve? a).isSome then .store (defs.resolve a) v else .store a v
  | i => i

/-- Instructions after renaming. -/
structure Renamed where
  /-- The instructions; those from a refused use on are not renamed. -/
  instrs : List Instr
  /-- The version counters. -/
  versions : Table String Int
  /-- The definitions that reach the end. -/
  defs : Reaching
  /-- The names of the uses that no definition reaches, in order. -/
  missing : List String
  /-- The name of the use that was refused. -/
  refused : Option String

/-- Gives the destination of an instruction its next version. -/
def renameDest (i : Instr) (versions : Table String Int) (defs : Reaching) :
    Instr × Table String Int × Reaching :=
  match i.dest? with
  | none => (i, versions, defs)
  | some d =>
    let n := versions.getD d.name 0 + 1
    let v : Var := ⟨d.name, some n⟩
    (i.setDest v, versions.insert d.name n, defs.push d.name v)

/-- Renames instructions from the top down. -/
def renameInstrs (policy : UndefinedPolicy) : List Instr → Table String Int → Reaching → Renamed
  | [], versions, defs => ⟨[], versions, defs, [], none⟩
  | i :: rest, versions, defs =>
    let uses := if i.isPhi then [] else i.uses
    match policy, defs.unresolved uses with
    | .refuse, x :: _ => ⟨refusedInstr defs i :: rest, versions, defs, [], some x⟩
    | _, missing =>
      let used := if i.isPhi then i else i.mapUses defs.resolve
      let (renamed, versions, defs) := renameDest used versions defs
      let tail := renameInstrs policy rest versions defs
      { tail with instrs := renamed :: tail.instrs, missing := missing ++ tail.missing }

/-- Phis after their operands for one predecessor were set. -/
structure FilledPhis where
  /-- The instructions. -/
  instrs : List Instr
  /-- The names of the operands that no definition reaches, in order. -/
  missing : List String
  /-- The destination of a phi without operand for the predecessor. -/
  failed : Option Var

/-- Sets the operands of the leading phis for predecessor `l`. -/
def fillPhis (l : Label) (defs : Reaching) : List Instr → FilledPhis
  | .phi φ :: rest =>
    let x : Operand := .var ⟨φ.dest.name, none⟩
    match φ.setValue? l (defs.resolve x) with
    | none => ⟨.phi φ :: rest, [], some φ.dest⟩
    | some φ' =>
      let tail := fillPhis l defs rest
      { tail with instrs := .phi φ' :: tail.instrs, missing := defs.unresolved [x] ++ tail.missing }
  | instrs => ⟨instrs, [], none⟩

namespace Edit

/-- Fails for a use that no definition reaches. -/
def refuseUse {α : Type} (l : Label) (name : String) : Edit α := do
  fail (.undefinedUse (← get).name l name)

/-- Sets the operands for predecessor `l` in the phis of its successors; returns the names that no
definition reaches. -/
def fillSuccessors (l : Label) (defs : Reaching) : List Label → Edit (List String)
  | [] => return []
  | s :: succs => do
    let b ← ask (·.getBlock s)
    let filled := fillPhis l defs b.instrs
    modify (·.modifyBlock s fun b => { b with instrs := filled.instrs })
    match filled.failed with
    | some d => fail (.violation (.missingOperand d l))
    | none => return filled.missing ++ (← fillSuccessors l defs succs)

/-- Renames a block; returns the definitions that reach its end and the names that no definition
reaches. -/
def renameBlock (policy : UndefinedPolicy) (l : Label) (defs : Reaching) :
    Edit (Reaching × List String) := do
  let b ← ask (·.getBlock l)
  let renamed := renameInstrs policy b.instrs (← get).versions defs
  modify fun f =>
    { f.modifyBlock l fun b => { b with instrs := renamed.instrs } with
      versions := renamed.versions }
  if let some x := renamed.refused then refuseUse l x
  let uses := match b.term with
    | some t => t.uses
    | none => []
  let missing := renamed.defs.unresolved uses
  match policy, missing with
  | .refuse, x :: _ => refuseUse l x
  | _, _ =>
    modify (·.modifyBlock l fun b => { b with term := b.term.map (·.mapUses renamed.defs.resolve) })
    let filled ← fillSuccessors l renamed.defs b.successors
    return (renamed.defs, renamed.missing ++ missing ++ filled)

/-- Renames blocks along a walk over the dominator tree. When a block is left, the definitions of
the names that it has `pushed` are taken off. Returns the uses that no definition reaches. -/
def renameAlong (policy : UndefinedPolicy) :
    List TreeStep → Reaching → (pushed : Table Label (List String)) → Edit (List (Label × String))
  | [], _, _ => return []
  | .leave l :: tour, defs, pushed =>
    renameAlong policy tour ((pushed.getD l []).foldl .pop defs) (pushed.erase l)
  | .enter l :: tour, defs, pushed => do
    let names := (← get).assignedIn l
    let (defs, missing) ← renameBlock policy l defs
    return missing.map (fun x => (l, x)) ++ (← renameAlong policy tour defs (pushed.insert l names))

end Edit

/-! ## The whole construction -/

/-- What SSA construction did. -/
structure Construction where
  /-- The number of phis that were placed, less the number of those found dead. A function may hold
  phis of its own before, and dead ones among them count too, so this may be below zero. -/
  phis : Int
  /-- The number of phis that were found dead. -/
  pruned : Nat
  /-- The block and the name of each use that no definition reaches. -/
  undefinedUses : List (Label × String)

namespace Edit

/-- Places phis and returns their number. -/
def placePhis (d : Dominators) : Edit Nat := do
  let f ← get
  let sites := f.phiSites d.order (f.graph.frontiers d)
  modify (·.placePhis sites)
  return sumOf (fun s => s.2.length) sites

/-- Renames all definitions and uses. -/
def rename (policy : UndefinedPolicy) (d : Dominators) : Edit (List (Label × String)) := do
  modify fun f => { f with versions := Table.ofList (f.params.map fun p => (p, 0)) }
  renameAlong policy d.tour (.ofParams (← get).params) .empty

/-- Brings a function into SSA form; with `prune`, without dead phis. -/
def enterSsa (policy : UndefinedPolicy) (prune : Bool) : Edit Construction := do
  let f ← get
  if f.ssa then fail (.violation (.alreadySsa f.name))
  let _ ← removeUnreachable
  let _ ← ensureEntry
  link
  let d ← dominators
  let placed ← placePhis d
  let undefinedUses ← rename policy d
  modify fun f => { f with ssa := true }
  let pruned ← if prune then pruneDeadPhis else pure 0
  emit (.phisPlaced f.name placed pruned)
  return ⟨(placed : Int) - pruned, pruned, undefinedUses⟩

end Edit

end ThreeAddress
