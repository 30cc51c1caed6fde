import ThreeAddress.Operand

/-!
# The constant lattice

What is known about a value: nothing yet (`top`), that it is one constant, or that it may vary
(`bottom`). Facts from two sides meet, and meeting only goes down: `top`, a constant, `bottom`.
-/

namespace ThreeAddress

/-- What is known about a value. -/
inductive Constancy where
  /-- No evidence has been seen. -/
  | top
  /-- Every execution seen gives this number. -/
  | const (n : Int)
  /-- It may differ from one execution to the next. -/
  | bottom
deriving DecidableEq

namespace Constancy

/-- What two facts about one value tell together. -/
def meet : Constancy → Constancy → Constancy
  | top, b => b
  | a, top => a
  | const m, const n => if m = n then const m else bottom
  | _, _ => bottom

/-- The constant, if it is one. -/
def const? : Constancy → Option Int
  | const n => some n
  | _ => none

/-- Whether the value is a known constant. -/
def isConst (c : Constancy) : Bool := c.const?.isSome

/-- The text of a fact. -/
def render : Constancy → String
  | top => "top"
  | const n => renderInt n
  | bottom => "bottom"

@[simp] theorem top_meet (c : Constancy) : top.meet c = c := by cases c <;> rfl

@[simp] theorem meet_top (c : Constancy) : c.meet top = c := by cases c <;> rfl

@[simp] theorem bottom_meet (c : Constancy) : bottom.meet c = bottom := by cases c <;> rfl

@[simp] theorem meet_bottom (c : Constancy) : c.meet bottom = bottom := by cases c <;> rfl

@[simp] theorem meet_self (c : Constancy) : c.meet c = c := by cases c <;> simp [meet]

end Constancy

end ThreeAddress
