import Mathlib.Data.Finset.Max
import ThreeAddress.Proofs.LoopForest

/-!
# Reducible graphs

A graph is reducible if the edges that do not go back to a dominator form no cycle. Loops are looked
for with one particular order of the blocks, the reverse postorder of a depth-first search; an edge
that goes back in it to a block that does not dominate its source is recorded as irreducible. This
module shows that there is such an edge exactly if the graph is not reducible, so that the order
does not matter.

1. `Trail.forward`, `Ordered`: while the search runs, its stack is a trail without repetitions, on
   which no edge goes back to a dominator. A block that is finished has successors that were
   finished before it, or that were on the stack then.
2. `exists_forward_of_retreat`: hence an edge that goes back in the order closes a cycle, with edges
   that do not go back to dominators.
3. `cyclesDominated_of_irreducibleEdges`, `SimpleCyclesDominated.reducible`: if every edge that goes
   back leads to a dominator, the first block of a cycle in the order dominates all of it; and a
   cycle with such a block takes an edge back to it.
-/

namespace ThreeAddress

namespace Graph

variable {a b s x : Label} {p : Nat → Label} {n : Nat}

/-- An edge of the part that can be reached, other than one that goes back to a dominator. -/
def Forward (g : Graph) (a b : Label) : Prop := g.Reachable a ∧ b ∈ g.next a ∧ ¬ g.BackEdge a b

/-- Without the edges that go back to dominators, what can be reached has no cycle. -/
def Reducible (g : Graph) : Prop := ∀ a, ¬ Relation.TransGen g.Forward a a

/-- Every cycle that can be reached has a block that dominates all blocks of the cycle. -/
def CyclesDominated (g : Graph) : Prop :=
  ∀ p n x, 0 < n → g.Reachable x → g.Walk p n x x → ∃ i ≤ n, ∀ j ≤ n, g.Dominates (p i) (p j)

/-- The same of the cycles that pass no block twice. -/
def SimpleCyclesDominated (g : Graph) : Prop :=
  ∀ p n x, 0 < n → g.Reachable x → g.Walk p n x x → (∀ i < n, ∀ j < n, p i = p j → i = j) →
    ∃ i ≤ n, ∀ j ≤ n, g.Dominates (p i) (p j)

variable {g g' : Graph} {d : Dominators}

/-! ## The order of the search -/

/-- On a trail without repetitions no edge goes back to a dominator. -/
theorem Trail.forward {xs : List Label} (h : g.Trail xs b) (nodup : xs.Nodup) (ha : a ∈ xs) :
    Relation.ReflTransGen g.Forward a b := by
  induction h with
  | entry =>
    cases List.mem_singleton.1 ha
    exact .refl
  | @step xs c b h hb ih =>
    obtain ⟨hfresh, nodup⟩ := List.nodup_cons.1 nodup
    rcases List.mem_cons.1 ha with rfl | ha
    · exact .refl
    · exact (ih nodup ha).tail ⟨⟨xs, h⟩, hb, fun hback => hfresh (hback.2.2 xs h)⟩

/-- What the search keeps of the order: the stack is a trail, and from a finished block edges lead
to blocks that were finished before it or, back, to blocks that lead to it. -/
structure Ordered (g : Graph) (stack : List (Label × List Label)) (done : List Label) : Prop where
  trail : ∀ b rest below, stack = (b, rest) :: below → g.Trail (b :: below.map Prod.fst) b
  finished : ∀ later b earlier, done = later ++ b :: earlier → ∀ s ∈ g.next b,
    s ∈ earlier ∨ Relation.ReflTransGen g.Forward s b

namespace Ordered

variable {visited done : List Label} {stack : List (Label × List Label)} {rest : List Label}

theorem start (ss : List Label) : Ordered g [(g.entry, ss)] [] where
  trail b rest below heq := by
    cases heq
    exact .entry
  finished later b earlier heq := by cases later <;> cases heq

theorem pass (h : Ordered g ((b, s :: rest) :: stack) done) :
    Ordered g ((b, rest) :: stack) done where
  trail c rest below heq := by
    cases heq
    exact h.trail b _ _ rfl
  finished := h.finished

theorem visit {ss : List Label} (hs : Searching g visited ((b, s :: rest) :: stack) done)
    (h : Ordered g ((b, s :: rest) :: stack) done) :
    Ordered g ((s, ss) :: (b, rest) :: stack) done where
  trail c rest below heq := by
    cases heq
    exact .step (h.trail b _ _ rfl) ((hs.pending _ (.head _)).2 _ (.head _))
  finished := h.finished

theorem finish (hs : Searching g visited ((b, []) :: stack) done)
    (h : Ordered g ((b, []) :: stack) done) : Ordered g stack (b :: done) where
  trail c rest below heq := by
    subst heq
    have htrail : g.Trail ([b] ++ c :: below.map Prod.fst) b := h.trail b _ _ rfl
    exact htrail.tail_at
  finished later c earlier heq s hsc := by
    cases later with
    | cons c' later =>
      injection heq with _ heq
      exact h.finished later c earlier heq s hsc
    | nil =>
      injection heq with hbc heq
      subst hbc heq
      have hvisited : s ∈ visited :=
        ((hs.pending _ (.head _)).1 s hsc).resolve_right List.not_mem_nil
      rcases (hs.visited_iff s).1 hvisited with hstack | hdone
      · exact .inr ((h.trail b _ _ rfl).forward (List.nodup_append.1 hs.nodup).1 hstack)
      · exact .inl hdone

end Ordered

/-- An edge that goes back in reverse postorder closes a cycle, and the rest of the cycle has no
edge that goes back to a dominator. -/
theorem exists_forward_of_retreat (closed : g.Closed) {order : List Label}
    (horder : g.reversePostorder = .ok order) (hb : g.Reachable b) (hs : s ∈ g.next b)
    (hback : order.idxOf s ≤ order.idxOf b) : Relation.ReflTransGen g.Forward s b := by
  obtain ⟨visited, order', horder', hsearch, hordered⟩ := reversePostorder_keeps (P := Ordered g)
    Ordered.finish Ordered.pass (fun hs _ h => h.visit hs) closed Ordered.start
  cases horder.symm.trans horder'
  have nodup : order.Nodup := by simpa using hsearch.nodup
  obtain ⟨later, earlier, rfl⟩ := List.append_of_mem ((hsearch.done_iff b).2 hb)
  refine (hordered.finished later b earlier rfl s hs).resolve_left fun hmem => ?_
  -- A block that was finished before `b` comes after it.
  exact Nat.not_le.2 (idxOf_lt_of_mem_rest nodup hmem) hback

/-! ## Irreducible edges -/

theorem reversePostorder_of_dominators (h : g.dominators = .ok d) :
    g.reversePostorder = .ok d.order := by
  cases horder : g.reversePostorder with
  | error e =>
    simp only [dominators, horder, bind, Except.bind] at h
    cases h
  | ok order =>
    simp only [dominators, horder, bind, Except.bind] at h
    split at h
    · cases h
    · cases h
      rfl

theorem mem_irreducibleEdges (hd : d.Describes g) :
    (b, s) ∈ g.irreducibleEdges d ↔
      g.Reachable b ∧ s ∈ g.next b ∧ ¬ g.Dominates s b ∧ d.order.idxOf s ≤ d.order.idxOf b := by
  simp only [irreducibleEdges, List.mem_flatMap, List.mem_map, List.mem_filter, Bool.and_eq_true,
    Bool.not_eq_true', decide_eq_true_eq]
  constructor
  · rintro ⟨c, hc, s', ⟨hs, hnot, hle⟩, heq⟩
    cases heq
    have hb := (hd.mem_order b).1 hc
    refine ⟨hb, hs, fun hdom => ?_, hle⟩
    rw [(dominates_iff hd hb).2 hdom] at hnot
    cases hnot
  · rintro ⟨hb, hs, hnot, hle⟩
    refine ⟨b, (hd.mem_order b).2 hb, s, ⟨hs, ?_, hle⟩, rfl⟩
    exact Bool.eq_false_iff.2 fun hdom => hnot ((dominates_iff hd hb).1 hdom)

/-- In a reducible graph all edges that go back in reverse postorder lead to dominators. -/
theorem Reducible.irreducibleEdges_eq_nil (h : g.Reducible) (closed : g.Closed)
    (hdom : g.dominators = .ok d) (hd : d.Describes g) : g.irreducibleEdges d = [] := by
  refine List.eq_nil_iff_forall_not_mem.2 fun e he => ?_
  obtain ⟨b, s⟩ := e
  obtain ⟨hb, hs, hnot, hle⟩ := (mem_irreducibleEdges hd).1 he
  have hpath := exists_forward_of_retreat closed (reversePostorder_of_dominators hdom) hb hs hle
  exact h s (.tail' hpath ⟨hb, hs, fun hback => hnot hback.2.2⟩)

/-! ## Cycles -/

/-- If all edges that go back in the order lead to dominators, the first block of a cycle dominates
the cycle. -/
theorem cyclesDominated_of_irreducibleEdges (hd : d.Describes g) (h : g.irreducibleEdges d = []) :
    g.CyclesDominated := by
  intro p n x _ hx walk
  obtain ⟨i, hi, hfirst⟩ :=
    Finset.exists_min_image (Finset.range (n + 1)) (fun i => d.order.idxOf (p i))
    ⟨0, Finset.mem_range.2 (Nat.succ_pos n)⟩
  have hin := Nat.le_of_lt_succ (Finset.mem_range.1 hi)
  refine ⟨i, hin, ?_⟩
  -- Against the edges, dominance goes on: past the first block too, since an edge to it goes back.
  have hagainst : ∀ k ≤ n, g.Dominates (p i) (p k) → ∀ j ≤ k, g.Dominates (p i) (p j) := by
    intro k
    induction k with
    | zero => exact fun _ hdom j hj => Nat.le_zero.1 hj ▸ hdom
    | succ k ih =>
      intro hk hdom j hj
      rcases Nat.le_or_eq_of_le_succ hj with hj | rfl
      · refine ih (Nat.le_of_succ_le hk) ?_ j hj
        by_cases heq : p i = p (k + 1)
        · have hreach := walk.reachable hx (Nat.le_of_succ_le hk)
          refine Classical.byContradiction fun hnot => ?_
          have hmem := (mem_irreducibleEdges hd).2 ⟨hreach, heq ▸ walk.step k hk, hnot,
            hfirst k (Finset.mem_range.2 (Nat.lt_succ_of_le (Nat.le_of_succ_le hk)))⟩
          rw [h] at hmem
          cases hmem
        · exact dominates_of_edge hdom heq (walk.step k hk)
      · exact hdom
  have hstart := hagainst i hin (.refl _) 0 (Nat.zero_le i)
  rw [walk.start, ← walk.stop] at hstart
  exact hagainst n (Nat.le_refl n) hstart

/-- A path of edges that do not go back to dominators, block by block. -/
structure ForwardWalk (g : Graph) (p : Nat → Label) (n : Nat) (x z : Label) :
    Prop extends g.Walk p n x z where
  forward : ∀ i < n, g.Forward (p i) (p (i + 1))

theorem exists_forwardWalk (h : Relation.TransGen g.Forward a b) :
    ∃ p n, 0 < n ∧ g.ForwardWalk p n a b := by
  induction h using Relation.TransGen.head_induction_on with
  | single hab =>
    refine ⟨consWalk _ fun _ => b, 1, Nat.one_pos, (Walk.single b).cons hab.2.1, fun i hi => ?_⟩
    rw [Nat.lt_one_iff.1 hi]
    exact hab
  | head hac _ ih =>
    obtain ⟨p, n, hn, walk, hall⟩ := ih
    refine ⟨consWalk _ p, n + 1, Nat.succ_pos n, walk.cons hac.2.1, fun i hi => ?_⟩
    cases i with
    | zero =>
      rw [consWalk_succ, walk.start]
      exact hac
    | succ i =>
      rw [consWalk_succ, consWalk_succ]
      exact hall i (Nat.lt_of_succ_lt_succ hi)

theorem ForwardWalk.slice {i j : Nat} {z : Label} (w : g.ForwardWalk p n x z) (hij : i ≤ j)
    (hj : j ≤ n) : g.ForwardWalk (fun k => p (i + k)) (j - i) (p i) (p j) where
  start := rfl
  stop := congrArg p (Nat.add_sub_cancel' hij)
  step k hk := w.step (i + k) (by omega)
  forward k hk := w.forward (i + k) (by omega)

/-- Between two visits of a block there is a shorter cycle. -/
theorem ForwardWalk.exists_simple (hn : 0 < n) (w : g.ForwardWalk p n x x) :
    ∃ p n x, 0 < n ∧ g.ForwardWalk p n x x ∧ ∀ i < n, ∀ j < n, p i = p j → i = j := by
  induction n using Nat.strongRecOn generalizing p x with
  | ind n ih =>
    by_cases hsimple : ∀ i < n, ∀ j < n, p i = p j → i = j
    · exact ⟨p, n, x, hn, w, hsimple⟩
    · obtain ⟨i, j, hij, hj, heq⟩ : ∃ i j, i < j ∧ j < n ∧ p i = p j := by
        simp only [not_forall] at hsimple
        obtain ⟨i, hi, j, hj, heq, hne⟩ := hsimple
        rcases Nat.lt_or_gt_of_ne hne with hlt | hlt
        · exact ⟨i, j, hlt, hj, heq⟩
        · exact ⟨j, i, hlt, hi, heq.symm⟩
      have hshort := w.slice (Nat.le_of_lt hij) (Nat.le_of_lt hj)
      rw [← heq] at hshort
      exact ih (j - i) (by omega) (by omega) hshort

/-- A cycle with a block that dominates it takes an edge that goes back to this block. -/
theorem SimpleCyclesDominated.reducible (h : g.SimpleCyclesDominated) : g.Reducible := by
  intro a hcycle
  obtain ⟨q, m, hm, hq⟩ := exists_forwardWalk hcycle
  obtain ⟨p, n, x, hn, walk, hsimple⟩ := hq.exists_simple hm
  obtain ⟨i, hi, hdom⟩ := h p n x hn (walk.start ▸ (walk.forward 0 hn).1) walk.toWalk hsimple
  -- The start of the cycle is its end as well.
  obtain ⟨k, hk, hdom⟩ : ∃ k < n, ∀ j ≤ n, g.Dominates (p (k + 1)) (p j) := by
    cases i with
    | zero => exact ⟨n - 1, by omega, by rwa [Nat.sub_add_cancel hn, walk.stop, ← walk.start]⟩
    | succ k => exact ⟨k, hi, hdom⟩
  obtain ⟨hreach, hnext, hnot⟩ := walk.forward k hk
  exact hnot ⟨hreach, hnext, hdom k (Nat.le_of_lt hk)⟩

theorem CyclesDominated.simple (h : g.CyclesDominated) : g.SimpleCyclesDominated :=
  fun p n x hn hx walk _ => h p n x hn hx walk

theorem irreducibleEdges_eq_nil_iff (closed : g.Closed) (hdom : g.dominators = .ok d)
    (hd : d.Describes g) : g.irreducibleEdges d = [] ↔ g.Reducible :=
  ⟨fun h => (cyclesDominated_of_irreducibleEdges hd h).simple.reducible,
    fun h => h.irreducibleEdges_eq_nil closed hdom hd⟩

theorem Reducible.cyclesDominated (h : g.Reducible) (closed : g.Closed) : g.CyclesDominated := by
  obtain ⟨d, hdom, hd⟩ := dominators_describes closed
  exact cyclesDominated_of_irreducibleEdges hd (h.irreducibleEdges_eq_nil closed hdom hd)

/-! ## Fewer edges -/

theorem Subgraph.forward (h : Subgraph g' g) (hab : g'.Forward a b) : g.Forward a b := by
  obtain ⟨ha, hnext, hnot⟩ := hab
  refine ⟨h.reachable ha, h.next a b hnext, fun hback => hnot ⟨ha, hnext, fun xs hxs => ?_⟩⟩
  exact hback.2.2 xs (h.trail hxs)

/-- A graph stays reducible when it loses edges. -/
theorem Reducible.of_subgraph (h : Subgraph g' g) (hred : g.Reducible) : g'.Reducible :=
  fun a hcycle => hred a (Relation.TransGen.mono (fun _ _ => h.forward) _ _ hcycle)

end Graph

namespace Func

/-- A function that has its entry and its jump targets has no irreducible edges exactly if its graph
is reducible: if what is left of the part that can be reached has no cycle once the edges to
dominators are deleted; or, which is the same, if every cycle in it has a block that dominates the
cycle, be it any closed path or one that passes no block twice. So a function with the same blocks
and edges, in whatever order it lists them, has irreducible edges if the function does. -/
theorem irreducible_eq_nil_iff_reducible (f : Func) (hentry : f.entry ∈ f.blocks)
    (htargets : ∀ l b, f.block? l = some b → ∀ s ∈ b.successors, s ∈ f.blocks) :
    ∃ d, f.dominators = .ok d ∧ ((f.graph.loops d).irreducible = [] ↔ f.graph.Reducible) ∧
      (f.graph.Reducible ↔ f.graph.CyclesDominated) ∧
      (f.graph.Reducible ↔ f.graph.SimpleCyclesDominated) ∧
      ∀ f' : Func, f'.entry = f.entry → (∀ l, l ∈ f'.blocks ↔ l ∈ f.blocks) →
        (∀ l s, s ∈ f'.graph.next l ↔ s ∈ f.graph.next l) →
        ∃ d', f'.dominators = .ok d' ∧
        ((f'.graph.loops d').irreducible = [] ↔ (f.graph.loops d).irreducible = []) := by
  have whole := whole_graph hentry htargets
  obtain ⟨d, hdom, hd⟩ := Graph.dominators_describes whole.closed
  have hnil := Graph.irreducibleEdges_eq_nil_iff whole.closed hdom hd
  have hcycles : f.graph.Reducible → f.graph.CyclesDominated :=
    fun h => h.cyclesDominated whole.closed
  refine ⟨d, dominators_of_graph hdom, hnil, ⟨hcycles, fun h => h.simple.reducible⟩,
    ⟨fun h => (hcycles h).simple, fun h => h.reducible⟩, fun f' hentry' hblocks hnext => ?_⟩
  have whole' : f'.graph.Whole := by
    refine ⟨mem_graph.2 ((hblocks _).2 ?_), fun l s hs => mem_graph.2 ((hblocks s).2 ?_)⟩
    · show f'.entry ∈ f.blocks
      rwa [hentry']
    · exact mem_graph.1 (whole.target_mem l s ((hnext l s).1 hs))
  obtain ⟨d', hdom', hd'⟩ := Graph.dominators_describes whole'.closed
  have hsub : Graph.Subgraph f'.graph f.graph := ⟨hentry', fun l s => (hnext l s).1⟩
  have hsup : Graph.Subgraph f.graph f'.graph := ⟨hentry'.symm, fun l s => (hnext l s).2⟩
  refine ⟨d', dominators_of_graph hdom', ?_⟩
  exact (Graph.irreducibleEdges_eq_nil_iff whole'.closed hdom' hd').trans
    (Iff.trans ⟨.of_subgraph hsup, .of_subgraph hsub⟩ hnil.symm)

theorem irreducible_eq_nil_iff_reducible_tangle :
    ∃ d, tangle.dominators = .ok d ∧
      ((tangle.graph.loops d).irreducible = [] ↔ tangle.graph.Reducible) ∧
      (tangle.graph.Reducible ↔ tangle.graph.CyclesDominated) ∧
      (tangle.graph.Reducible ↔ tangle.graph.SimpleCyclesDominated) ∧
      ∀ f' : Func, f'.entry = tangle.entry → (∀ l, l ∈ f'.blocks ↔ l ∈ tangle.blocks) →
        (∀ l s, s ∈ f'.graph.next l ↔ s ∈ tangle.graph.next l) →
        ∃ d', f'.dominators = .ok d' ∧
          ((f'.graph.loops d').irreducible = [] ↔ (tangle.graph.loops d).irreducible = []) :=
  irreducible_eq_nil_iff_reducible tangle (by decide) (forall_targets (by decide))

end Func

end ThreeAddress
