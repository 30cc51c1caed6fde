import ThreeAddress.Proofs.Closures
import ThreeAddress.Proofs.Dominance
import ThreeAddress.Proofs.Tables

/-!
# Depth-first search

On a graph whose reachable blocks are all there, the search is never cut off by its fuel, and
`reversePostorder` lists exactly the reachable blocks, each once. `Searches` is the search without
its fuel; more is said of the order by an invariant of its steps (`reversePostorder_keeps`), or by
comparing two runs.
-/

namespace ThreeAddress

namespace Graph

variable {P : List (Label × List Label) → List Label → Prop} {stack : List (Label × List Label)}
  {done order ss visited : List Label} {b s : Label}

/-- Every block that can be reached is a block of the graph. -/
def Closed (g : Graph) : Prop := ∀ b, g.Reachable b → b ∈ g.succs

variable {g : Graph}

theorem next_of_get? (h : g.succs.get? b = some ss) : g.next b = ss :=
  Table.getD_of_get? h

/-- What holds between two steps of the search. -/
structure Searching (g : Graph) (visited : List Label) (stack : List (Label × List Label))
    (done : List Label) :
    Prop where
  entry_visited : g.entry ∈ visited
  reachable : ∀ b ∈ visited, g.Reachable b
  /-- A visited block is finished or still on the stack. -/
  visited_iff : ∀ b, b ∈ visited ↔ b ∈ stack.map Prod.fst ∨ b ∈ done
  nodup : (stack.map Prod.fst ++ done).Nodup
  /-- A finished block has no successor left to visit. -/
  finished : ∀ b ∈ done, ∀ s ∈ g.next b, s ∈ visited
  /-- A block on the stack has its successors visited or before it. -/
  pending : ∀ e ∈ stack, (∀ s ∈ g.next e.1, s ∈ visited ∨ s ∈ e.2) ∧ ∀ s ∈ e.2, s ∈ g.next e.1

/-- The steps that blocks not visited so far will take. -/
def unvisitedSteps (visited : List Label) (e : Label × List Label) : Nat :=
  if e.1 ∈ visited then 0 else e.2.length + 1

/-- A bound on the steps left. -/
def stepsLeft (g : Graph) (visited : List Label) (stack : List (Label × List Label)) : Nat :=
  sumOf (unvisitedSteps visited) g.succs.entries + sumOf (fun e => e.2.length + 1) stack

theorem unvisitedSteps_cons_le (visited : List Label) (s : Label) (e : Label × List Label) :
    unvisitedSteps (s :: visited) e ≤ unvisitedSteps visited e := by
  unfold unvisitedSteps
  by_cases h : e.1 ∈ visited
  · simp [h]
  · by_cases hs : e.1 = s
    · simp [hs]
    · simp [h, hs]

/-- Visiting a new block uses up its own steps. -/
theorem sumOf_unvisitedSteps (hs : s ∉ visited) (h : g.succs.get? s = some ss) :
    sumOf (unvisitedSteps (s :: visited)) g.succs.entries + (ss.length + 1)
      ≤ sumOf (unvisitedSteps visited) g.succs.entries :=
  sumOf_add_le (Table.get?_eq_some_iff.1 h) (fun e _ => unvisitedSteps_cons_le visited s e)
    (by simp [unvisitedSteps, hs])

namespace Searching

variable {rest : List Label}

theorem finish (h : Searching g visited ((b, []) :: stack) done) :
    Searching g visited stack (b :: done) where
  entry_visited := h.entry_visited
  reachable := h.reachable
  visited_iff c := by
    rw [h.visited_iff c]
    simp only [List.map_cons, List.mem_cons]
    exact or_assoc.trans or_left_comm
  nodup := by
    have := h.nodup
    rw [List.map_cons, List.cons_append] at this
    exact List.perm_middle.nodup_iff.2 this
  finished c hc s hs := by
    rcases List.mem_cons.1 hc with rfl | hc
    · rcases (h.pending _ (.head _)).1 s hs with hv | hv
      · exact hv
      · cases hv
    · exact h.finished c hc s hs
  pending e he := h.pending e (.tail _ he)

theorem pass (h : Searching g visited ((b, s :: rest) :: stack) done) (hs : s ∈ visited) :
    Searching g visited ((b, rest) :: stack) done where
  entry_visited := h.entry_visited
  reachable := h.reachable
  visited_iff := h.visited_iff
  nodup := h.nodup
  finished := h.finished
  pending e he := by
    rcases List.mem_cons.1 he with rfl | he
    · obtain ⟨h₁, h₂⟩ := h.pending _ (.head _)
      refine ⟨fun c hc => ?_, fun c hc => h₂ c (.tail _ hc)⟩
      rcases h₁ c hc with hv | hv
      · exact .inl hv
      · rcases List.mem_cons.1 hv with rfl | hv
        · exact .inl hs
        · exact .inr hv
    · exact h.pending e (.tail _ he)

theorem reachable_head (h : Searching g visited ((b, s :: rest) :: stack) done) : g.Reachable s :=
  (h.reachable b ((h.visited_iff b).2 (.inl (.head _)))).step
    ((h.pending _ (.head _)).2 _ (.head _))

theorem visit (h : Searching g visited ((b, s :: rest) :: stack) done) (hs : s ∉ visited)
    (hss : g.succs.get? s = some ss) :
    Searching g (s :: visited) ((s, ss) :: (b, rest) :: stack) done where
  entry_visited := .tail _ h.entry_visited
  reachable c hc := by
    rcases List.mem_cons.1 hc with rfl | hc
    · exact h.reachable_head
    · exact h.reachable c hc
  visited_iff c := by
    have := h.visited_iff c
    simp only [List.map_cons, List.mem_cons] at this ⊢
    simp only [this, or_assoc]
  nodup := by
    have hno : s ∉ ((b, s :: rest) :: stack).map Prod.fst ++ done := by
      intro hm
      exact hs ((h.visited_iff s).2 (List.mem_append.1 hm))
    exact List.nodup_cons.2 ⟨hno, h.nodup⟩
  finished c hc d hd := .tail _ (h.finished c hc d hd)
  pending e he := by
    rcases List.mem_cons.1 he with rfl | he
    · rw [next_of_get? hss]
      exact ⟨fun c hc => .inr hc, fun c hc => hc⟩
    rcases List.mem_cons.1 he with rfl | he
    · obtain ⟨h₁, h₂⟩ := h.pending _ (.head _)
      refine ⟨fun c hc => ?_, fun c hc => h₂ c (.tail _ hc)⟩
      rcases h₁ c hc with hv | hv
      · exact .inl (.tail _ hv)
      · rcases List.mem_cons.1 hv with rfl | hv
        · exact .inl (.head _)
        · exact .inr hv
    · obtain ⟨h₁, h₂⟩ := h.pending e (.tail _ he)
      refine ⟨fun c hc => ?_, h₂⟩
      rcases h₁ c hc with hv | hv
      · exact .inl (.tail _ hv)
      · exact .inr hv

/-- When the stack is empty, the finished blocks are the reachable ones. -/
theorem done_iff (h : Searching g visited [] done) (b : Label) : b ∈ done ↔ g.Reachable b := by
  have hiff : ∀ c, c ∈ visited ↔ c ∈ done := fun c => by simpa using h.visited_iff c
  constructor
  · exact fun hb => h.reachable b ((hiff b).2 hb)
  · rintro ⟨xs, hxs⟩
    induction hxs with
    | entry => exact (hiff _).1 h.entry_visited
    | step _ hn ih => exact (hiff _).1 (h.finished _ ih _ hn)

end Searching

/-! ## Runs of the search -/

/-- From here on the search runs to its end, when the blocks are finished in the order `order`. -/
inductive Searches (g : Graph) :
    (visited : List Label) → (stack : List (Label × List Label)) → (done order : List Label) → Prop
  | stop {visited order : List Label} : Searches g visited [] order order
  | finish {visited done order : List Label} {stack : List (Label × List Label)} {b : Label} :
      Searches g visited stack (b :: done) order → Searches g visited ((b, []) :: stack) done order
  | pass {visited done order rest : List Label} {stack : List (Label × List Label)} {b s : Label} :
    s ∈ visited →
      Searches g visited ((b, rest) :: stack) done order →
      Searches g visited ((b, s :: rest) :: stack) done order
  | visit {visited done order rest ss : List Label} {stack : List (Label × List Label)}
    {b s : Label} : s ∉ visited →
      g.succs.get? s = some ss →
      Searches g (s :: visited) ((s, ss) :: (b, rest) :: stack) done order →
      Searches g visited ((b, s :: rest) :: stack) done order

/-- The search is not cut off. -/
theorem search_searches (closed : g.Closed) {fuel : Nat} (h : Searching g visited stack done)
    (enough : g.stepsLeft visited stack ≤ fuel) :
    ∃ order, g.search fuel visited stack done = .ok order ∧
      Searches g visited stack done order := by
  induction fuel generalizing visited stack done with
  | zero =>
    cases stack with
    | nil => exact ⟨done, rfl, .stop⟩
    | cons e stack =>
      rw [stepsLeft, sumOf_cons] at enough
      omega
  | succ fuel ih =>
    cases stack with
    | nil => exact ⟨done, rfl, .stop⟩
    | cons e stack =>
      obtain ⟨b, ss⟩ := e
      simp only [stepsLeft, sumOf_cons] at enough ih
      cases ss with
      | nil =>
        obtain ⟨order, horder, run⟩ := ih h.finish (by simp only [List.length_nil] at enough; omega)
        exact ⟨order, horder, .finish run⟩
      | cons s rest =>
        simp only [List.length_cons] at enough
        by_cases hs : s ∈ visited
        · rw [search, if_pos hs]
          obtain ⟨order, horder, run⟩ := ih (h.pass hs) (by simp only [sumOf_cons]; omega)
          exact ⟨order, horder, .pass hs run⟩
        · obtain ⟨ss, hss⟩ := Table.mem_iff_get?.1 (closed s h.reachable_head)
          have hfall := sumOf_unvisitedSteps hs hss
          rw [search, if_neg hs, hss]
          obtain ⟨order, horder, run⟩ := ih (h.visit hs hss) (by simp only [sumOf_cons]; omega)
          exact ⟨order, horder, .visit hs hss run⟩

/-- There is one order for each place of the search. -/
theorem Searches.unique {order' : List Label} (h : Searches g visited stack done order)
    (h' : Searches g visited stack done order') : order = order' := by
  induction h with
  | stop =>
    cases h'
    rfl
  | finish _ ih =>
    cases h' with
    | finish h' => exact ih h'
  | pass hs _ ih =>
    cases h' with
    | pass _ h' => exact ih h'
    | visit hs' => exact absurd hs hs'
  | visit hs hss _ ih =>
    cases h' with
    | pass hs' => exact absurd hs' hs
    | visit _ hss' h' =>
      cases hss.symm.trans hss'
      exact ih h'

theorem searching_start (h : g.succs.get? g.entry = some ss) :
    Searching g [g.entry] [(g.entry, ss)] [] where
  entry_visited := .head _
  reachable b hb := List.mem_singleton.1 hb ▸ reachable_entry
  visited_iff b := by simp
  nodup := by simp
  finished b hb := nomatch hb
  pending e he := by
    have := List.mem_singleton.1 he
    subst this
    rw [next_of_get? h]
    exact ⟨fun s hs => .inr hs, fun s hs => hs⟩

/-- The reverse postorder is the order in which a search from the entry finishes the blocks. -/
theorem reversePostorder_searches (closed : g.Closed) :
    ∃ ss order, g.succs.get? g.entry = some ss ∧ g.reversePostorder = .ok order ∧
      Searches g [g.entry] [(g.entry, ss)] [] order := by
  obtain ⟨ss, hss⟩ := Table.mem_iff_get?.1 (closed _ reachable_entry)
  have hnot : g.entry ∉ ([] : List Label) := List.not_mem_nil
  have hfall := sumOf_unvisitedSteps hnot hss
  have hall : sumOf (unvisitedSteps []) g.succs.entries = g.searchSteps := rfl
  obtain ⟨order, horder, run⟩ := search_searches closed (searching_start hss)
    (show g.stepsLeft _ _ ≤ g.searchSteps by simp only [stepsLeft, sumOf_cons, sumOf_nil]; omega)
  refine ⟨ss, order, hss, ?_, run⟩
  rw [reversePostorder, hss]
  exact horder

section

variable
  (finish : ∀ {visited b stack done}, Searching g visited ((b, []) :: stack) done →
    P ((b, []) :: stack) done → P stack (b :: done))
  (pass : ∀ {b s rest stack done}, P ((b, s :: rest) :: stack) done → P ((b, rest) :: stack) done)
  (visit : ∀ {visited b s rest stack done ss},
    Searching g visited ((b, s :: rest) :: stack) done → s ∉ visited →
    P ((b, s :: rest) :: stack) done → P ((s, ss) :: (b, rest) :: stack) done)
include finish pass visit

/-- What each step keeps holds at the end. -/
theorem Searches.keeps (run : Searches g visited stack done order)
    (h : Searching g visited stack done) (hP : P stack done) :
    ∃ visited', Searching g visited' [] order ∧ P [] order := by
  induction run with
  | stop => exact ⟨_, h, hP⟩
  | finish _ ih => exact ih h.finish (finish h hP)
  | pass hs _ ih => exact ih (h.pass hs) (pass hP)
  | visit hs hss _ ih => exact ih (h.visit hs hss) (visit h hs hP)

/-- What each step of the search keeps holds of the reverse postorder. -/
theorem reversePostorder_keeps (closed : g.Closed) (start : ∀ ss, P [(g.entry, ss)] []) :
    ∃ visited order, g.reversePostorder = .ok order ∧ Searching g visited [] order ∧
      P [] order := by
  obtain ⟨ss, order, hss, horder, run⟩ := reversePostorder_searches closed
  obtain ⟨visited, h, hP⟩ := Searches.keeps finish pass visit run (searching_start hss) (start ss)
  exact ⟨visited, order, horder, h, hP⟩

end

/-- The search lists exactly the blocks that can be reached, each once. -/
theorem reversePostorder_spec (closed : g.Closed) :
    ∃ order, g.reversePostorder = .ok order ∧ order.Nodup ∧ ∀ b, b ∈ order ↔ g.Reachable b := by
  obtain ⟨visited, order, horder, h, _⟩ :=
    reversePostorder_keeps (P := fun _ _ => True) (fun _ _ => trivial)
    (fun _ => trivial) (fun _ _ _ => trivial) closed fun _ => trivial
  exact ⟨order, horder, by simpa using h.nodup, h.done_iff⟩

end Graph

end ThreeAddress
