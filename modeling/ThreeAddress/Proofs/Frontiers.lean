import Mathlib.Order.Bounds.Basic
import ThreeAddress.Proofs.DominatorsByDeletion

/-!
# Frontiers are where dominance ends

The walk up the dominator tree from the predecessors of a block, short of its immediate dominator,
meets the blocks that have it in their frontier: those that dominate a predecessor and do not
strictly dominate the block itself (`mem_frontier_iff`). The iterated frontier of some blocks is the
least solution of the equation that it is the union of the frontiers of the blocks and of its own
(`iterated_isLeast_solution`). Neither asks anything of the shape of the graph.
-/

namespace ThreeAddress

namespace Graph

variable {blocks : List Label} {b c p x : Label}

/-- The dominance of `x` ends at `b`: it dominates a predecessor, and does not strictly dominate
`b`. -/
def InFrontier (g : Graph) (x b : Label) : Prop :=
  ¬ g.StrictlyDominates x b ∧ ∃ p, g.Reachable p ∧ b ∈ g.next p ∧ g.Dominates x p

variable {g : Graph} {d : Dominators}

/-! ## The computed frontiers -/

/-- The climb finds the dominators of a block that do not dominate the block where it stops. -/
theorem mem_climb (hd : d.Describes g) {stop : Option Label} {fuel : Nat} (hp : g.Reachable p)
    (enough : depth d p ≤ fuel) (above : ∀ e, stop = some e → g.Dominates e p) :
    c ∈ d.climb stop fuel p ↔ g.Dominates c p ∧ ∀ e, stop = some e → ¬ g.Dominates c e := by
  induction fuel generalizing p with
  | zero =>
    have := depth_pos hd hp
    omega
  | succ fuel ih =>
    rw [Dominators.climb]
    by_cases hstop : stop = some p
    · rw [if_pos hstop]
      simp only [List.not_mem_nil, false_iff]
      exact fun h => h.2 p hstop h.1
    · rw [if_neg hstop]
      have hself : ∀ e, stop = some e → ¬ g.Dominates p e := by
        intro e he hpe
        exact hstop (he.trans (congrArg some (Dominates.antisymm hp hpe (above e he)).symm))
      by_cases hentry : p = g.entry
      · rw [hentry, idom?_entry hd, List.mem_singleton]
        constructor
        · rintro rfl
          exact ⟨.refl _, hentry ▸ hself⟩
        · exact fun h => eq_entry_of_dominates h.1
      · obtain ⟨a, ha, hclosest⟩ := exists_idom? hd hp hentry
        have habove : ∀ e, stop = some e → g.Dominates e a := by
          intro e he
          exact hclosest.2 e ⟨fun heq => hstop (heq ▸ he), above e he⟩
        have hfuel := depth_idom hd ha
        rw [ha, List.mem_cons, ih (hclosest.1.2.reachable hp) (by omega) habove,
          hclosest.dominates_iff hp]
        constructor
        · rintro (rfl | ⟨hc, hnot⟩)
          · exact ⟨.inl rfl, hself⟩
          · exact ⟨.inr hc, hnot⟩
        · rintro ⟨rfl | hc, hnot⟩
          · exact .inl rfl
          · exact .inr ⟨hc, hnot⟩

/-- Between a predecessor of `b` and the immediate dominator of `b` lie the blocks that dominate the
predecessor and do not strictly dominate `b`. -/
theorem mem_chain (hd : d.Describes g) (hp : g.Reachable p) (hb : b ∈ g.next p) :
    c ∈ d.chain (d.idom? b) p ↔ g.Dominates c p ∧ ¬ g.StrictlyDominates c b := by
  have hbreach := hp.step hb
  have hclosest : ∀ e, d.idom? b = some e → g.IsClosest e b :=
    fun e he => ((hd.idom?_eq b e).1 he).2
  rw [Dominators.chain, mem_climb hd hp (depth_le d p) fun e he =>
    dominates_of_edge (hclosest e he).1.2 (hclosest e he).1.1 hb]
  refine and_congr_right fun _ => ⟨fun h hstrict => ?_, fun h e he hce => ?_⟩
  · obtain ⟨e, he, hclosest⟩ := exists_idom? hd hbreach hstrict.ne_entry
    exact h e he (hclosest.2 c hstrict)
  · exact h (hce.trans_strictly hbreach (hclosest e he).1)

theorem mem_frontier_iff (hd : d.Describes g) (hx : g.Reachable x) :
    b ∈ (g.frontiers d).frontier x ↔ g.InFrontier x b := by
  rw [mem_frontier hd.nodup ((hd.mem_order x).2 hx), hd.mem_order, runners, List.mem_flatMap]
  constructor
  · rintro ⟨_, p, hp, hxp⟩
    obtain ⟨hp, hb⟩ := mem_predsWithin.1 hp
    have hreach := (hd.mem_order p).1 hp
    obtain ⟨hdom, hnot⟩ := (mem_chain hd hreach hb).1 hxp
    exact ⟨hnot, p, hreach, hb, hdom⟩
  · rintro ⟨hnot, p, hreach, hb, hdom⟩
    refine ⟨hreach.step hb, p, mem_predsWithin.2 ⟨(hd.mem_order p).2 hreach, hb⟩, ?_⟩
    exact (mem_chain hd hreach hb).2 ⟨hdom, hnot⟩

/-- Nothing is in the iterated frontier but what the frontiers put there. -/
theorem iterated_least (hd : d.Describes g) {P : Label → Prop}
    (h : ∀ x, g.Reachable x → x ∈ blocks ∨ P x → ∀ b, g.InFrontier x b → P b) :
    ∀ b ∈ (g.frontiers d).iterated blocks, P b := by
  have hfrontier : ∀ x, g.Reachable x → x ∈ blocks ∨ P x →
      ∀ b ∈ (g.frontiers d).frontier x, g.Reachable b ∧ P b := fun x hx hmem b hb =>
    ⟨(hd.mem_order b).1 (frontier_subset hd.nodup b hb),
      h x hx hmem b ((mem_frontier_iff hd hx).1 hb)⟩
  intro b hb
  refine (Frontiers.iterated_induction (P := fun b => g.Reachable b ∧ P b) (fun x hx horder => ?_)
    (fun x hx => ?_) b hb).2
  · exact hfrontier x ((hd.mem_order x).1 horder) (.inl hx)
  · exact hfrontier x hx.1 (.inr hx.2)

/-! ## Iterated frontiers as solutions -/

/-- The union of the frontiers of those among `blocks` and `X` that can be reached. -/
def frontierUnion (g : Graph) (d : Dominators) (blocks : List Label) (X : Set Label) : Set Label :=
  {y | ∃ b, g.Reachable b ∧ (b ∈ blocks ∨ b ∈ X) ∧ y ∈ (g.frontiers d).frontier b}

/-- What the frontiers of the blocks and of the iterated frontier hold is in the iterated
frontier. -/
theorem mem_iterated_of_mem_frontierUnion (hd : d.Describes g) {y : Label}
    (hy : y ∈ g.frontierUnion d blocks {b | b ∈ (g.frontiers d).iterated blocks}) :
    y ∈ (g.frontiers d).iterated blocks := by
  obtain ⟨b, hb, hmem, hyb⟩ := hy
  exact mem_iterated hd.nodup ((hd.mem_order b).2 hb) hmem hyb

/-- The iterated frontier is the least set that is the union of the frontiers of the blocks and of
its own. -/
theorem iterated_isLeast_solution (hd : d.Describes g) (blocks : List Label) :
    IsLeast {X | X = g.frontierUnion d blocks X} {y | y ∈ (g.frontiers d).iterated blocks} := by
  constructor
  · refine Set.Subset.antisymm ?_ fun y hy => mem_iterated_of_mem_frontierUnion hd hy
    -- A block that some frontier holds is in the iterated frontier already, so its own frontier
    -- counts too.
    refine iterated_least hd fun x hx hmem y hy => ⟨x, hx, ?_, (mem_frontier_iff hd hx).2 hy⟩
    exact hmem.imp_right (mem_iterated_of_mem_frontierUnion hd)
  · intro X hX
    refine iterated_least hd fun x hx hmem y hy => ?_
    rw [hX]
    exact ⟨x, hx, hmem, (mem_frontier_iff hd hx).2 hy⟩

theorem mem_frontiers_sets : x ∈ (g.frontiers d).sets ↔ x ∈ d.order := by
  rw [frontiers, Table.mem_ofList]
  simp

end Graph

namespace Func

/-- Of a function that has its entry and its jump targets the frontiers are found. There is one for
each block that can be reached, and it holds the blocks with a predecessor that the block dominates
and that it does not strictly dominate. The iterated frontier of any blocks is the least set that is
the union of the frontiers of the blocks and of its own. -/
theorem frontiers_as_defined (f : Func) (hentry : f.entry ∈ f.blocks)
    (htargets : ∀ l b, f.block? l = some b → ∀ s ∈ b.successors, s ∈ f.blocks) :
    ∃ d, f.dominators = .ok d ∧ (∀ x, x ∈ (f.graph.frontiers d).sets ↔ f.graph.Reachable x) ∧
      (∀ x, f.graph.Reachable x → ∀ y, y ∈ (f.graph.frontiers d).frontier x ↔
        (∃ p, f.graph.Reachable p ∧ y ∈ f.graph.next p ∧ f.graph.Dominates x p) ∧
        ¬ f.graph.StrictlyDominates x y) ∧
      ∀ blocks, IsLeast {X | X = f.graph.frontierUnion d blocks X}
        {y | y ∈ (f.graph.frontiers d).iterated blocks} := by
  obtain ⟨d, hdom, hd⟩ := Graph.dominators_describes (whole_graph hentry htargets).closed
  refine ⟨d, dominators_of_graph hdom, fun x => Graph.mem_frontiers_sets.trans (hd.mem_order x),
    fun x hx y => ?_, Graph.iterated_isLeast_solution hd⟩
  rw [Graph.mem_frontier_iff hd hx]
  exact and_comm

theorem frontiers_as_defined_tangle :
    ∃ d, tangle.dominators = .ok d ∧
      (∀ x, x ∈ (tangle.graph.frontiers d).sets ↔ tangle.graph.Reachable x) ∧
      (∀ x, tangle.graph.Reachable x → ∀ y, y ∈ (tangle.graph.frontiers d).frontier x ↔
        (∃ p, tangle.graph.Reachable p ∧ y ∈ tangle.graph.next p ∧ tangle.graph.Dominates x p) ∧
          ¬ tangle.graph.StrictlyDominates x y) ∧
      ∀ blocks, IsLeast {X | X = tangle.graph.frontierUnion d blocks X}
        {y | y ∈ (tangle.graph.frontiers d).iterated blocks} :=
  frontiers_as_defined tangle (by decide) (forall_targets (by decide))

end Func

end ThreeAddress
