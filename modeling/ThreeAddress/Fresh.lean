/-!
# Fresh names

A fresh name is the first of a sequence of candidates that is not taken. With candidates that all
differ, one more of them than there are taken names is enough to find it (`firstFree_not_mem`).
-/

namespace ThreeAddress

variable {candidate : Nat → String} {taken : List String}

/-- The first candidate from the `k`-th on that is not taken, after at most `tries` taken ones. -/
def firstFreeFrom (candidate : Nat → String) (taken : List String) : (tries k : Nat) → String
  | 0, k => candidate k
  | tries + 1, k =>
    if candidate k ∈ taken then firstFreeFrom candidate taken tries (k + 1) else candidate k

/-- The first of `candidate 0`, `candidate 1`, ... that is not taken. -/
def firstFree (candidate : Nat → String) (taken : List String) : String :=
  firstFreeFrom candidate taken taken.length 0

/-- The names `base`, `base.1`, `base.2`, ... -/
def numbered (base : String) : Nat → String
  | 0 => base
  | n + 1 => base ++ "." ++ (n + 1).repr

/-- The result is taken only if all the candidates that were tried are. -/
theorem mem_of_firstFreeFrom_mem {tries k : Nat}
    (h : firstFreeFrom candidate taken tries k ∈ taken) :
    ∀ i, k ≤ i → i ≤ k + tries → candidate i ∈ taken := by
  induction tries generalizing k with
  | zero =>
    intro i hk hi
    have : i = k := by omega
    subst this
    exact h
  | succ tries ih =>
    rw [firstFreeFrom] at h
    split at h
    · rename_i hc
      intro i hk hi
      by_cases hik : i = k
      · subst hik
        exact hc
      · exact ih h i (by omega) (by omega)
    · exact absurd h ‹_›

/-- Candidates that all differ cannot all be taken, so the fresh name is none of the taken ones. -/
theorem firstFree_not_mem (inj : ∀ i j, candidate i = candidate j → i = j) :
    firstFree candidate taken ∉ taken := by
  intro h
  have all := mem_of_firstFreeFrom_mem h
  have nodup : ((List.range (taken.length + 1)).map candidate).Nodup := by
    rw [List.nodup_iff_pairwise_ne, List.pairwise_map]
    exact List.nodup_range.imp fun hne e => hne (inj _ _ e)
  have sub : (List.range (taken.length + 1)).map candidate ⊆ taken := by
    intro x hx
    obtain ⟨i, hi, rfl⟩ := List.mem_map.1 hx
    exact all i (by omega) (by have := List.mem_range.1 hi; omega)
  have le := nodup.length_le_of_subset sub
  rw [List.length_map, List.length_range] at le
  omega

end ThreeAddress
