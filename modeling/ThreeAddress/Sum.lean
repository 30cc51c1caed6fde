/-!
# Sums of counts
-/

namespace ThreeAddress

variable {α : Type}

/-- The sum of the counts of the elements. -/
def sumOf (count : α → Nat) : List α → Nat
  | [] => 0
  | a :: rest => count a + sumOf count rest

@[simp] theorem sumOf_nil (count : α → Nat) : sumOf count [] = 0 := rfl

@[simp] theorem sumOf_cons (count : α → Nat) (a : α) (l : List α) :
    sumOf count (a :: l) = count a + sumOf count l := rfl

@[simp] theorem sumOf_append (count : α → Nat) (l₁ l₂ : List α) :
    sumOf count (l₁ ++ l₂) = sumOf count l₁ + sumOf count l₂ := by
  induction l₁ with
  | nil => simp
  | cons a l₁ ih =>
    rw [List.cons_append, sumOf_cons, sumOf_cons, ih]
    omega

end ThreeAddress
