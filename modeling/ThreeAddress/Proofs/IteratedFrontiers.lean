import ThreeAddress.Graph.Frontier

/-!
# The search for an iterated frontier

The search looks at the frontiers of some blocks and of the blocks that it finds there. What it
finds is closed: it holds the frontiers of the blocks and of its own (`mem_iterated_of_frontier`).
And there is nothing else in it (`iterated_induction`).
-/

namespace ThreeAddress

variable {y : Label}

namespace FrontierSearch

variable {s : FrontierSearch} {order ys : List Label}

/-! ## Taking note of a frontier -/

/-- What was found was seen. -/
def Seen (s : FrontierSearch) : Prop := ∀ x ∈ s.found, x ∈ s.seen

/-- What taking note of some blocks does. -/
structure Notes (ys : List Label) (s s' : FrontierSearch) : Prop where
  found : ∀ x, x ∈ s'.found ↔ x ∈ ys ∨ x ∈ s.found
  seen : ∀ x, x ∈ s'.seen ↔ x ∈ ys ∨ x ∈ s.seen
  work : ∀ x, x ∈ s'.work ↔ x ∈ s.work ∨ x ∈ ys ∧ x ∉ s.seen

theorem note_notes (h : s.Seen) (y : Label) : Notes [y] s (s.note y) := by
  unfold note
  split
  · rename_i hfound
    have hseen := h y hfound
    refine ⟨fun x => ?_, fun x => ?_, fun x => ?_⟩ <;> rw [List.mem_singleton]
    · exact ⟨.inr, fun hx => hx.elim (· ▸ hfound) id⟩
    · exact ⟨.inr, fun hx => hx.elim (· ▸ hseen) id⟩
    · exact ⟨.inl, fun hx => hx.elim id fun hx => absurd (hx.1 ▸ hseen) hx.2⟩
  · split
    · rename_i hseen
      refine ⟨fun x => ?_, fun x => ?_, fun x => ?_⟩ <;> rw [List.mem_singleton]
      · exact List.mem_cons
      · exact ⟨.inr, fun hx => hx.elim (· ▸ hseen) id⟩
      · exact ⟨.inl, fun hx => hx.elim id fun hx => absurd (hx.1 ▸ hseen) hx.2⟩
    · rename_i hseen
      refine ⟨fun x => ?_, fun x => ?_, fun x => ?_⟩ <;> rw [List.mem_singleton, List.mem_cons]
      exact ⟨fun hx => hx.elim (fun hx => .inr ⟨hx, hx ▸ hseen⟩) .inl,
        fun hx => hx.elim .inr (.inl ·.1)⟩

theorem Notes.cons {s₁ s₂ : FrontierSearch} (h : Notes [y] s s₁) (hs : Notes ys s₁ s₂) :
    Notes (y :: ys) s s₂ := by
  refine ⟨fun x => ?_, fun x => ?_, fun x => ?_⟩
  · rw [hs.found, h.found, List.mem_singleton, List.mem_cons]
    grind
  · rw [hs.seen, h.seen, List.mem_singleton, List.mem_cons]
    grind
  · rw [hs.work, h.work, h.seen, List.mem_singleton, List.mem_cons]
    grind

theorem Notes.isSeen {s' : FrontierSearch} (h : Notes ys s s') (hs : s.Seen) : s'.Seen :=
  fun x hx => (h.seen x).2 (((h.found x).1 hx).imp_right (hs x))

theorem notes (h : s.Seen) (ys : List Label) : Notes ys s (ys.foldl note s) := by
  induction ys generalizing s with
  | nil => exact ⟨fun x => by simp, fun x => by simp, fun x => by simp⟩
  | cons y ys ih =>
    have hy := note_notes h y
    exact hy.cons (ih (hy.isSeen h))

/-- How many blocks may still have to be looked at. -/
def left (order : List Label) (s : FrontierSearch) : Nat :=
  s.work.length + (order.filter (· ∉ s.seen)).length

theorem left_note (hy : y ∈ order) : (s.note y).left order ≤ s.left order := by
  unfold note
  split
  · exact Nat.le_refl _
  · split
    · exact Nat.le_refl _
    · rename_i hseen
      have hsplit : order.filter (· ∉ y :: s.seen) = (order.filter (· ∉ s.seen)).filter
          (· ≠ y) := by
        rw [List.filter_filter]
        exact List.filter_congr fun x _ => by simp
      have hfewer : (order.filter (· ∉ y :: s.seen)).length
          < (order.filter (· ∉ s.seen)).length := by
        rw [hsplit]
        refine List.length_filter_lt_length_iff_exists.2 ⟨y, List.mem_filter.2 ⟨hy, ?_⟩, ?_⟩
        · exact decide_eq_true hseen
        · simp
      simp only [left, List.length_cons]
      omega

theorem left_notes (hys : ∀ y ∈ ys, y ∈ order) (s : FrontierSearch) :
    (ys.foldl note s).left order ≤ s.left order := by
  induction ys generalizing s with
  | nil => exact Nat.le_refl _
  | cons y ys ih =>
    obtain ⟨hy, hys⟩ := List.forall_mem_cons.1 hys
    exact Nat.le_trans (ih hys _) (left_note hy)

end FrontierSearch

namespace Frontiers

open FrontierSearch

variable {df : Frontiers} {start blocks : List Label} {s : FrontierSearch} {P : Label → Prop}
  {fuel : Nat}

/-! ## Steps -/

/-- The search lost nothing: the blocks it started from were seen, and so was what it found; and
of the blocks seen, those that are not left on the work list were looked at. -/
structure Sound (df : Frontiers) (start : List Label) (s : FrontierSearch) : Prop where
  isSeen : s.Seen
  start : ∀ b ∈ start, b ∈ s.seen
  looked : ∀ b ∈ s.seen, b ∈ s.work ∨ ∀ y ∈ df.frontier b, y ∈ s.found

theorem Sound.look {b : Label} {work : List Label} (h : df.Sound start s)
    (hwork : s.work = b :: work) :
    df.Sound start ((df.frontier b).foldl note { s with work := work }) := by
  have hnotes := notes (s := { s with work := work }) h.isSeen (df.frontier b)
  refine ⟨hnotes.isSeen h.isSeen, fun c hc => (hnotes.seen c).2 (.inr (h.start c hc)),
    fun c hc => ?_⟩
  by_cases hold : c ∈ s.seen
  · rcases h.looked c hold with hc | hlooked
    · rw [hwork] at hc
      rcases List.mem_cons.1 hc with rfl | hc
      · exact .inr fun y hy => (hnotes.found y).2 (.inl hy)
      · exact .inl ((hnotes.work c).2 (.inl hc))
    · exact .inr fun y hy => (hnotes.found y).2 (.inr (hlooked y hy))
  · exact .inl ((hnotes.work c).2 (.inr ⟨((hnotes.seen c).1 hc).resolve_right hold, hold⟩))

/-- The search ends with nothing left to look at. -/
theorem Sound.search (inside : ∀ b, ∀ y ∈ df.frontier b, y ∈ df.order) (h : df.Sound start s)
    (enough : s.left df.order ≤ fuel) :
    df.Sound start (df.search fuel s) ∧ (df.search fuel s).work = [] := by
  induction fuel generalizing s with
  | zero =>
    unfold left at enough
    have hnil : s.work = [] := List.length_eq_zero_iff.1 (by omega)
    exact ⟨h, hnil⟩
  | succ fuel ih =>
    unfold Frontiers.search
    split
    · exact ⟨h, ‹_›⟩
    · rename_i b work hwork
      have hleft := left_notes (inside b) { s with work := work }
      refine ih (h.look hwork) (Nat.le_trans hleft ?_)
      unfold left at enough ⊢
      rw [hwork, List.length_cons] at enough
      show work.length + (df.order.filter (· ∉ s.seen)).length ≤ fuel
      omega

/-- What every frontier that is looked at puts into the search has the property `P`. -/
theorem search_found (next : ∀ x, P x → ∀ y ∈ df.frontier x, P y) (hseen : s.Seen)
    (hwork : ∀ x ∈ s.work, ∀ y ∈ df.frontier x, P y) (hfound : ∀ y ∈ s.found, P y) :
    ∀ y ∈ (df.search fuel s).found, P y := by
  induction fuel generalizing s with
  | zero => exact hfound
  | succ fuel ih =>
    unfold Frontiers.search
    split
    · exact hfound
    · rename_i b work hw
      have hb : ∀ y ∈ df.frontier b, P y := hwork b (hw ▸ List.mem_cons_self)
      have hnotes := notes (s := { s with work := work }) hseen (df.frontier b)
      refine ih (hnotes.isSeen hseen) (fun x hx => ?_) fun y hy => ?_
      · rcases (hnotes.work x).1 hx with hx | ⟨hx, _⟩
        · exact hwork x (hw ▸ List.mem_cons_of_mem _ hx)
        · exact next x (hb x hx)
      · exact ((hnotes.found y).1 hy).elim (hb y) (hfound y)

/-! ## The iterated frontier -/

/-- The iterated frontier holds the frontiers of the blocks and of its own. -/
theorem mem_iterated_of_frontier (inside : ∀ b, ∀ y ∈ df.frontier b, y ∈ df.order) {x : Label}
    (hx : x ∈ df.order) (hmem : x ∈ blocks ∨ x ∈ df.iterated blocks) (hy : y ∈ df.frontier x) :
    y ∈ df.iterated blocks := by
  let work := (blocks.filter (· ∈ df.order)).reverse
  have hstart : df.Sound work ⟨work, work, []⟩ :=
    ⟨fun _ h => absurd h List.not_mem_nil, fun _ h => h, fun _ h => .inl h⟩
  have henough : FrontierSearch.left df.order ⟨work, work, []⟩ ≤ work.length + df.order.length :=
    Nat.add_le_add_left (List.length_filter_le _ _) _
  obtain ⟨hsound, hdone⟩ := hstart.search inside henough
  have hseen : x ∈ (df.search (work.length + df.order.length) ⟨work, work, []⟩).seen := by
    rcases hmem with hx' | hx'
    · refine hsound.start x (List.mem_reverse.2 (List.mem_filter.2 ⟨hx', decide_eq_true hx⟩))
    · exact hsound.isSeen x (of_decide_eq_true (List.mem_filter.1 hx').2)
  have hfound := (hsound.looked x hseen).resolve_left (by rw [hdone]; exact List.not_mem_nil) y hy
  exact List.mem_filter.2 ⟨inside x y hy, decide_eq_true hfound⟩

/-- Nothing else is in the iterated frontier: what holds in the frontiers of the blocks and passes
from a block to its frontier holds in all of it. -/
theorem iterated_induction (start : ∀ x ∈ blocks, x ∈ df.order → ∀ y ∈ df.frontier x, P y)
    (next : ∀ x, P x → ∀ y ∈ df.frontier x, P y) : ∀ y ∈ df.iterated blocks, P y := by
  intro y hy
  refine search_found next (fun _ h => absurd h List.not_mem_nil) (fun x hx => ?_)
    (fun _ h => absurd h List.not_mem_nil) y (of_decide_eq_true (List.mem_filter.1 hy).2)
  obtain ⟨hx, horder⟩ := List.mem_filter.1 (List.mem_reverse.1 hx)
  exact start x hx (of_decide_eq_true horder)

end Frontiers

end ThreeAddress
