/-!
# Variables and operands

Before SSA construction a variable is a plain name; in SSA form each of its definitions has a
version of its own, and version 0 is the value a parameter arrives with. Versions are handed out by
counters that go up by one; a counter may be set to any integer, so a version may be one too.
-/

namespace ThreeAddress

/-- The decimal text of an integer. -/
def renderInt : Int → String
  | .ofNat n => n.repr
  | .negSucc n => "-" ++ (n + 1).repr

/-- A name of a block within its function. -/
abbrev Label := String

/-- A variable; `version` is `none` outside SSA form. -/
structure Var where
  /-- The name that the variable has in the source. -/
  name : String
  /-- Which definition of the name is meant. -/
  version : Option Int := none
deriving DecidableEq

namespace Var

/-- The variable without its version. -/
def unversioned (v : Var) : Var := ⟨v.name, none⟩

/-- The text of a variable: `x`, or `x$3` with its version. -/
def render (v : Var) : String :=
  match v.version with
  | none => v.name
  | some n => v.name ++ "$" ++ renderInt n

end Var

/-- What an instruction reads. -/
inductive Operand where
  /-- An integer literal, of any size. -/
  | const (value : Int)
  /-- The current value of a variable. -/
  | var (v : Var)
  /-- The value of a variable that no definition reaches. -/
  | undefined
deriving DecidableEq

namespace Operand

/-- The variable that is read, if any. -/
def var? : Operand → Option Var
  | var v => some v
  | _ => none

/-- The text of an operand. -/
def render : Operand → String
  | const n => renderInt n
  | var v => v.render
  | undefined => "undef"

end Operand

end ThreeAddress
