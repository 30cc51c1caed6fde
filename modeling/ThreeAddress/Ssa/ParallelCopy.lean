import ThreeAddress.Operand

/-!
# Parallel copies

A parallel copy reads all its sources before it writes any destination. To make the copies one after
the other, a copy is made as soon as no copy still to come reads its destination. When only cycles
are left, one destination is saved in a temporary first, and its readers read the temporary.
-/

namespace ThreeAddress

/-- A variable and what it is to hold. -/
abbrev Copy := Var × Operand

/-- The first element with a property, and the others. -/
def extractFirst {α : Type} (p : α → Bool) : List α → Option (α × List α)
  | [] => none
  | a :: rest =>
    if p a then some (a, rest)
    else (extractFirst p rest).map fun (b, others) => (b, a :: others)

/-- Whether no copy of the list reads the destination. -/
def isUnread (pending : List Copy) (c : Copy) : Bool :=
    pending.all fun c' => decide (c'.2 ≠ .var c.1)

/-- Lets the copies that read `d` read `t`. -/
def redirect (d t : Var) (pending : List Copy) : List Copy :=
  pending.map fun c => (c.1, if c.2 = .var d then .var t else c.2)

/-- Orders the pending copies; `fresh` makes a temporary for a destination. -/
def orderPending {σ : Type} (fresh : Var → σ → Var × σ) : (fuel : Nat) → List Copy → σ →
    List Copy × σ
  | 0, _, s => ([], s)
  | _ + 1, [], s => ([], s)
  | fuel + 1, c :: rest, s =>
    match extractFirst (isUnread (c :: rest)) (c :: rest) with
    | some (next, pending) =>
      let (copies, s) := orderPending fresh fuel pending s
      (next :: copies, s)
    | none =>
      let (t, s) := fresh c.1 s
      let (copies, s) := orderPending fresh fuel (redirect c.1 t (c :: rest)) s
      ((t, .var c.1) :: copies, s)

/-- Makes a parallel copy a sequence of copies with the same effect. A temporary other than the
destination it saves frees a copy, and of two temporaries in a row one is such, so each copy takes
three steps at most. -/
def sequenceCopies {σ : Type} (fresh : Var → σ → Var × σ) (copies : List Copy) (s : σ) :
    List Copy × σ :=
  let pending := copies.filter fun c => decide (c.2 ≠ .var c.1)
  orderPending fresh (3 * pending.length) pending s

end ThreeAddress
