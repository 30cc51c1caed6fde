import ThreeAddress.Graph.Closure

/-!
# Closures are closed, and least

`closure` gives the least list that holds the start and is closed under `next`, as long as every
element met lies in the given universe: the work list is never cut off by the fuel.
-/

namespace ThreeAddress

variable {α : Type} {fuel : Nat}

theorem sumOf_le_sumOf {f g : α → Nat} {l : List α} (h : ∀ a ∈ l, f a ≤ g a) :
    sumOf f l ≤ sumOf g l := by
  induction l with
  | nil => exact Nat.le_refl _
  | cons a l ih =>
    have ha := h a (.head _)
    have hl := ih fun b hb => h b (.tail _ hb)
    rw [sumOf_cons, sumOf_cons]
    omega

theorem sumOf_congr {f g : α → Nat} {l : List α} (h : ∀ a ∈ l, f a = g a) : sumOf f l = sumOf g l :=
  Nat.le_antisymm (sumOf_le_sumOf fun a ha => Nat.le_of_eq (h a ha))
    (sumOf_le_sumOf fun a ha => Nat.le_of_eq (h a ha).symm)

theorem sumOf_eq_zero {f : α → Nat} {l : List α} (h : ∀ a ∈ l, f a = 0) : sumOf f l = 0 := by
  induction l with
  | nil => rfl
  | cons a l ih => rw [sumOf_cons, h a (.head _), ih fun b hb => h b (.tail _ hb)]

/-- One element that falls by `n` makes the sum fall by `n` at least. -/
theorem sumOf_add_le {f g : α → Nat} {l : List α} {a : α} {n : Nat} (mem : a ∈ l)
    (h : ∀ b ∈ l, f b ≤ g b) (ha : f a + n ≤ g a) : sumOf f l + n ≤ sumOf g l := by
  induction l with
  | nil => cases mem
  | cons b l ih =>
    have hb := h b (.head _)
    have hl := sumOf_le_sumOf fun c hc => h c (.tail _ hc)
    rw [sumOf_cons, sumOf_cons]
    rcases List.mem_cons.1 mem with rfl | hm
    · omega
    · have := ih hm fun c hc => h c (.tail _ hc)
      omega

variable [DecidableEq α]

/-- What an element may still put on the work list. -/
def followersLeft (next : α → List α) (seen : List α) (a : α) : Nat :=
    if a ∈ seen then 0 else (next a).length

theorem followersLeft_cons_le (next : α → List α) (seen : List α) (a b : α) :
    followersLeft next (a :: seen) b ≤ followersLeft next seen b := by
  unfold followersLeft
  by_cases h : b ∈ seen
  · simp [h]
  · by_cases hb : b = a
    · simp [hb]
    · simp [h, hb]

/-- A list that holds whatever follows its elements. -/
def ClosedUnder (next : α → List α) (l : List α) : Prop := ∀ a ∈ l, ∀ b ∈ next a, b ∈ l

theorem grow_closed {univ : List α} {next : α → List α}
    (inside : ∀ a ∈ univ, ∀ b ∈ next a, b ∈ univ) {work seen : List α} (hw : ∀ a ∈ work, a ∈ univ)
    (hs : ∀ a ∈ seen, ∀ b ∈ next a, b ∈ seen ∨ b ∈ work)
    (enough : work.length + sumOf (followersLeft next seen) univ ≤ fuel) :
    (∀ a ∈ seen, a ∈ grow next fuel work seen) ∧ (∀ a ∈ work, a ∈ grow next fuel work seen) ∧
      ClosedUnder next (grow next fuel work seen) := by
  induction fuel generalizing work seen with
  | zero =>
    have hnil : work = [] := List.length_eq_zero_iff.1 (by omega)
    subst hnil
    refine ⟨fun a h => h, fun a h => (nomatch h), fun a ha b hb => ?_⟩
    rcases hs a ha b hb with h | h
    · exact h
    · cases h
  | succ fuel ih =>
    cases work with
    | nil =>
      refine ⟨fun a h => h, fun a h => (nomatch h), fun a ha b hb => ?_⟩
      rcases hs a ha b hb with h | h
      · exact h
      · cases h
    | cons a work =>
      rw [List.length_cons] at enough
      by_cases ha : a ∈ seen
      · have hgrow : grow next (fuel + 1) (a :: work) seen = grow next fuel work seen := by
          rw [grow, if_pos ha]
        rw [hgrow]
        obtain ⟨h₁, h₂, h₃⟩ := ih (fun b hb => hw b (.tail _ hb))
          (by
            intro b hb c hc
            rcases hs b hb c hc with h | h
            · exact .inl h
            · rcases List.mem_cons.1 h with rfl | h
              · exact .inl ha
              · exact .inr h)
          (by omega)
        refine ⟨h₁, fun b hb => ?_, h₃⟩
        rcases List.mem_cons.1 hb with rfl | hb
        · exact h₁ b ha
        · exact h₂ b hb
      · have hgrow : grow next (fuel + 1) (a :: work) seen = grow next fuel (next a ++
            work) (a :: seen) := by
          rw [grow, if_neg ha]
        rw [hgrow]
        have hau : a ∈ univ := hw a (.head _)
        -- The element moves its followers from what is left to the work list.
        have hfall : sumOf (followersLeft next (a :: seen)) univ + (next a).length
            ≤ sumOf (followersLeft next seen) univ :=
          sumOf_add_le hau (fun b _ => followersLeft_cons_le next seen a b)
            (by simp [followersLeft, ha])
        obtain ⟨h₁, h₂, h₃⟩ := @ih (next a ++ work) (a :: seen)
          (by
            intro b hb
            rcases List.mem_append.1 hb with h | h
            · exact inside a hau b h
            · exact hw b (.tail _ h))
          (by
            intro b hb c hc
            rcases List.mem_cons.1 hb with rfl | hb
            · exact .inr (List.mem_append_left _ hc)
            · rcases hs b hb c hc with h | h
              · exact .inl (.tail _ h)
              · rcases List.mem_cons.1 h with rfl | h
                · exact .inl (.head _)
                · exact .inr (List.mem_append_right _ h))
          (by rw [List.length_append]; omega)
        refine ⟨fun b hb => h₁ b (.tail _ hb), fun b hb => ?_, h₃⟩
        rcases List.mem_cons.1 hb with rfl | hb
        · exact h₁ b (.head _)
        · exact h₂ b (List.mem_append_right _ hb)

theorem grow_least {next : α → List α} {P : α → Prop} (hnext : ∀ a, P a → ∀ b ∈ next a, P b)
    {work seen : List α} (hw : ∀ a ∈ work, P a) (hs : ∀ a ∈ seen, P a) :
    ∀ a ∈ grow next fuel work seen, P a := by
  induction fuel generalizing work seen with
  | zero => exact hs
  | succ fuel ih =>
    cases work with
    | nil => exact hs
    | cons a work =>
      have ha := hw a (.head _)
      have hrest : ∀ b ∈ work, P b := fun b hb => hw b (.tail _ hb)
      rw [grow]
      split
      · exact ih hrest hs
      · apply ih
        · intro b hb
          rcases List.mem_append.1 hb with h | h
          · exact hnext a ha b h
          · exact hrest b h
        · intro b hb
          rcases List.mem_cons.1 hb with rfl | h
          · exact ha
          · exact hs b h

/-- The closure holds its start and is closed. -/
theorem closure_closed {univ : List α} {next : α → List α} {start : List α}
    (hs : ∀ a ∈ start, a ∈ univ) (inside : ∀ a ∈ univ, ∀ b ∈ next a, b ∈ univ) :
    (∀ a ∈ start, a ∈ closure univ next start) ∧ ClosedUnder next (closure univ next start) := by
  have hnil : ∀ a ∈ ([] : List α), ∀ b ∈ next a, b ∈ [] ∨ b ∈ start := fun _ h => (nomatch h)
  exact (grow_closed inside hs hnil (Nat.le_refl _)).2

/-- Nothing is in the closure but what the start and `next` put there. -/
theorem closure_least {univ : List α} {next : α → List α} {start : List α} {P : α → Prop}
    (hs : ∀ a ∈ start, P a) (hnext : ∀ a, P a → ∀ b ∈ next a, P b) :
    ∀ a ∈ closure univ next start, P a :=
  grow_least hnext hs fun _ h => (nomatch h)

end ThreeAddress
