import ThreeAddress.Sum

/-!
# Closures

The elements that can be reached from a list of elements by following `next`. A work list holds what
is still to be looked at; an element that was seen before is passed over. Loop bodies, reachability
and live phis are all closures of this kind.
-/

namespace ThreeAddress

variable {α : Type} [DecidableEq α]

/-- Works a list off: each element not seen before is added, and what follows it is put on the
list. -/
def grow (next : α → List α) : (fuel : Nat) → (work seen : List α) → List α
  | 0, _, seen => seen
  | _ + 1, [], seen => seen
  | fuel + 1, a :: work, seen =>
    if a ∈ seen then grow next fuel work seen else grow next fuel (next a ++ work) (a :: seen)

/-- The elements that can be reached from `start` by following `next`, where every element met lies
in `univ`. Each element of the universe puts its followers on the work list at most once, which
bounds the work. -/
def closure (univ : List α) (next : α → List α) (start : List α) : List α :=
  grow next (start.length + sumOf (fun a => (next a).length) univ) start []

end ThreeAddress
