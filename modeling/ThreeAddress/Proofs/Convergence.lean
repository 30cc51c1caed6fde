import ThreeAddress.Proofs.DominatorsByDeletion

/-!
# How many sweeps the dominators take

The dominator sets are swept in reverse postorder until a sweep changes nothing. A sweep carries
what it learns along a trail for as long as the trail goes forward in the order, and stops where it
goes back. So after `n` sweeps no set holds a block that some trail avoids which goes back fewer
than `n` times (`sweeps_settledFor_returns`), and only trails without repetitions matter.

`Func.dominators_converge`: the sweeps end with the first one that changes nothing. There are no
more of them than blocks, and at most two more than the times that a trail without repetitions goes
back.
-/

namespace ThreeAddress

namespace Graph

variable {g : Graph} {order : List Label} {n : Nat}

/-- How often a trail, the latest block first, goes back in the order. -/
def returns (order : List Label) : List Label → Nat
  | [] => 0
  | b :: xs =>
    match xs.head? with
    | none => 0
    | some a => returns order xs + if order.idxOf b ≤ order.idxOf a then 1 else 0

/-- A sweep settles the sets for trails that go back once more. -/
theorem sweep_settlesFor_returns (lists : Lists g order) {doms : Table Label (List Label)}
    (h : Descending g order doms)
    (hn : ∀ b ∈ order, SettledFor g (fun xs => returns order xs < n) doms b) :
    Descending g order (g.sweep order doms) ∧
      ∀ b ∈ order, SettledFor g (fun xs => returns order xs < n + 1) (g.sweep order doms) b := by
  refine sweep_settlesFor lists (fun _ hlt => Nat.lt_succ_of_lt hlt) (fun b p ys hys hlt => ?_) h hn
  simp only [returns, hys.head?] at hlt
  by_cases hback : order.idxOf b ≤ order.idxOf p
  · rw [if_pos hback] at hlt
    exact .inl (Nat.lt_of_succ_lt_succ hlt)
  · rw [if_neg hback] at hlt
    exact .inr ⟨hlt, Nat.lt_of_not_le hback⟩

theorem sweeps_settledFor_returns (lists : Lists g order) (n : Nat) :
    Descending g order (g.sweeps order n) ∧
      ∀ b ∈ order, SettledFor g (fun xs => returns order xs < n) (g.sweeps order n) b := by
  induction n with
  | zero =>
    exact ⟨startSets_descending lists, fun b _ a _ xs _ hlt => absurd hlt (Nat.not_lt_zero _)⟩
  | succ n ih =>
    rw [sweeps_succ]
    exact sweep_settlesFor_returns lists ih.1 ih.2

/-- Once there are more sweeps than times that a trail without repetitions goes back, a sweep
changes nothing. -/
theorem sweep_sweeps (lists : Lists g order)
    (hreturns : ∀ xs b, g.Trail xs b → xs.Nodup → returns order xs < n) :
    g.sweep order (g.sweeps order n) = g.sweeps order n := by
  obtain ⟨h, hn⟩ := sweeps_settledFor_returns lists n
  refine sweep_exact lists ⟨h, fun b hb a => ⟨fun ha xs hxs => ?_, h.above b hb a⟩⟩
  obtain ⟨ys, hys, nodup, sub⟩ := hxs.simple
  exact sub a (hn b hb a ha ys hys (hreturns ys b hys nodup))

end Graph

namespace Func

/-- The dominator sets of a function that has its entry and its jump targets are swept until a sweep
changes nothing. The first such sweep is the last, and its sets are the result. However the graph is
nested, there are no more sweeps than blocks that can be reached, so that the limit of two more is
not met; and at most two more than a trail without repetitions goes back in reverse postorder. -/
theorem dominators_converge (f : Func) (hentry : f.entry ∈ f.blocks)
    (htargets : ∀ l b, f.block? l = some b → ∀ s ∈ b.successors, s ∈ f.blocks) :
    ∃ order d k, f.reversePostorder = .ok order ∧ f.dominators = .ok d ∧ d.order = order ∧
      d.passes = k + 1 ∧ d.doms = f.graph.sweeps order k ∧
      f.graph.sweep order (f.graph.sweeps order k) = f.graph.sweeps order k ∧
      (∀ j < k, f.graph.sweep order (f.graph.sweeps order j) ≠ f.graph.sweeps order j) ∧
      d.passes ≤ order.length ∧
      ∀ r, (∀ xs b, f.graph.Trail xs b → xs.Nodup → Graph.returns order xs ≤ r) →
        d.passes ≤ r + 2 := by
  obtain ⟨order, k, horder, lists, hk, ⟨hfix, hfirst⟩, _, hdom⟩ :=
    Graph.dominators_eq (whole_graph hentry htargets).closed
  refine ⟨order, _, k, by rw [reversePostorder, horder]; rfl, dominators_of_graph hdom, rfl, rfl,
    rfl, hfix, hfirst, hk, fun r hr => Nat.succ_le_succ (Nat.le_of_not_lt fun hlt => ?_)⟩
  exact hfirst _ hlt (Graph.sweep_sweeps lists fun xs b hxs nodup =>
    Nat.lt_succ_of_le (hr xs b hxs nodup))

theorem dominators_converge_tangle :
    ∃ order d k, tangle.reversePostorder = .ok order ∧ tangle.dominators = .ok d ∧ d.order = order ∧
      d.passes = k + 1 ∧ d.doms = tangle.graph.sweeps order k ∧
      tangle.graph.sweep order (tangle.graph.sweeps order k) = tangle.graph.sweeps order k ∧
      (∀ j < k, tangle.graph.sweep order (tangle.graph.sweeps order j)
        ≠ tangle.graph.sweeps order j) ∧
      d.passes ≤ order.length ∧
      ∀ r, (∀ xs b, tangle.graph.Trail xs b → xs.Nodup → Graph.returns order xs ≤ r) →
        d.passes ≤ r + 2 :=
  dominators_converge tangle (by decide) (forall_targets (by decide))

end Func

end ThreeAddress
