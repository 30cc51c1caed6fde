import ThreeAddress.Edit

/-!
# Dead phis

A phi is live if its result reaches an instruction that is no phi, or a terminator: directly, or
through other phis. The others, cycles of phis that feed only each other included, can go.
-/

namespace ThreeAddress

namespace Func

/-- The phis of a function by what they define; of two with one destination the later counts. -/
def phiTable (f : Func) : Table Var Phi :=
  Table.ofList (f.nodes.filterMap fun
    | .instr (.phi φ) => some (φ.dest, φ)
    | _ => none)

/-- The variables that instructions other than phis, and terminators, read. -/
def directUses (f : Func) : List Var :=
  f.nodes.flatMap fun
    | .instr (.phi _) => []
    | n => n.uses.filterMap Operand.var?

/-- The variables among `phis` that the phi for `v` reads. -/
def phiSources (phis : Table Var Phi) (v : Var) : List Var :=
  match phis.get? v with
  | none => []
  | some φ => (φ.incoming.filterMap fun a => a.value.var?).filter (· ∈ phis)

/-- The live variables: those read directly, and those that live phis read. -/
def liveVars (f : Func) : List Var :=
  let phis := f.phiTable
  let direct := f.directUses
  direct ++ closure phis.keys (phiSources phis) (direct.filter (· ∈ phis))

/-- Whether the instruction is a phi whose result is not live. -/
def isDeadPhi (live : List Var) : Instr → Bool
  | .phi φ => decide (φ.dest ∉ live)
  | _ => false

/-- The function without its dead phis, and their number. -/
def withoutDeadPhis (f : Func) : Func × Nat :=
  let live := f.liveVars
  (f.mapBlocks fun b => { b with instrs := b.instrs.filter (!isDeadPhi live ·) },
    sumOf (fun b => b.instrs.countP (isDeadPhi live)) f.blockList)

end Func

/-- Deletes the dead phis and returns their number. -/
def Edit.pruneDeadPhis : Edit Nat := do
  let f ← get
  let (f', count) := f.withoutDeadPhis
  modify fun _ => f'
  if count > 0 then emit (.phisPruned f.name count)
  return count

end ThreeAddress
