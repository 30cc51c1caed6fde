import ThreeAddress.Func

/-!
# Plain names

Outside SSA form a variable is a plain name again. A name with one version left keeps its plain
form, and so does version 0 of any name; the others become `name_version`, with as many more
underscores as it takes to differ from all names in use.
-/

namespace ThreeAddress

/-- Adds a version to those seen of a name. -/
def addVersion (seen : Table String (List Int)) (name : String) (n : Int) :
    Table String (List Int) :=
  let versions := seen.getD name []
  seen.insert name (if n ∈ versions then versions else versions ++ [n])

/-- The versions of each name that a function mentions, names by their first mention; parameters
have version 0. -/
def Func.seenVersions (f : Func) : Table String (List Int) :=
  let mentioned := (f.nodes.flatMap Node.vars).filterMap fun v => v.version.map fun n => (v.name, n)
  let all : List (String × Int) := mentioned ++ f.params.map fun p => (p, 0)
  all.foldl (fun seen m => addVersion seen m.1 m.2) .empty

/-- Plain names for versioned ones. -/
structure Naming where
  /-- The plain names in use. -/
  taken : List String
  /-- The plain name of each name and version. -/
  names : Table (String × Int) String

namespace Naming

/-- The candidates for version `n` of a name. -/
def candidate (base : String) (n : Int) (k : Nat) : String :=
  base ++ "_" ++ renderInt n ++ String.ofList (List.replicate k '_')

/-- Names one of several versions. -/
def addOne (naming : Naming) (base : String) (n : Int) : Naming :=
  if n = 0 then { naming with names := naming.names.insert (base, n) base }
  else
    let name := firstFree (candidate base n) naming.taken
    ⟨naming.taken ++ [name], naming.names.insert (base, n) name⟩

/-- Names all versions of a name. -/
def addBase (naming : Naming) (base : String) (versions : List Int) : Naming :=
  match versions with
  | [n] => { naming with names := naming.names.insert (base, n) base }
  | _ =>
    (sortBy (fun a b => decide (a ≤ b)) versions).foldl (fun naming n => naming.addOne base n) naming

/-- Names all versions that a function mentions. -/
def ofFunc (f : Func) : Naming :=
  let seen := f.seenVersions
  seen.entries.foldl (fun naming e => naming.addBase e.1 e.2) ⟨seen.keys, .empty⟩

/-- The plain form of a variable. -/
def plain (naming : Naming) (v : Var) : Var :=
  match v.version with
  | none => v
  | some n => ⟨naming.names.getD (v.name, n) v.name, none⟩

/-- The plain form of an operand; the undefined one reads as 0. -/
def plainOperand (naming : Naming) : Operand → Operand
  | .const n => .const n
  | .var v => .var (naming.plain v)
  | .undefined => .const 0

/-- The plain form of an instruction. -/
def plainInstr (naming : Naming) (i : Instr) : Instr :=
  let i := i.mapUses naming.plainOperand
  match i.dest? with
  | none => i
  | some d => i.setDest (naming.plain d)

/-- The plain form of a block. -/
def plainBlock (naming : Naming) (b : Block) : Block :=
  { b with instrs := b.instrs.map naming.plainInstr,
           term := b.term.map (·.mapUses naming.plainOperand) }

end Naming

/-- The function with plain names. -/
def Func.withPlainNames (f : Func) : Func := f.mapBlocks (Naming.ofFunc f).plainBlock

end ThreeAddress
