import ThreeAddress.Proofs.DominatorTree
import ThreeAddress.Proofs.WellFormed

/-!
# Three ways to say what dominates

Dominators are defined by paths (`Graph.Dominates`), computed by sweeps (`Graph.dominators`) and
found by deleting each block in turn (`Graph.dominatorsByDeletion`). On any graph that has its entry
and the targets of its edges the three agree: `Func.dominators_agree`. Nothing is asked of its
shape: there may be several ways into a loop, edges to the entry and blocks that cannot be reached.
-/

namespace ThreeAddress

namespace Graph

variable {g : Graph} {b : Label}

/-- The entry and the targets of all edges are blocks. -/
structure Whole (g : Graph) : Prop where
  entry_mem : g.entry ∈ g.succs
  target_mem : ∀ l s, s ∈ g.next l → s ∈ g.succs

theorem Whole.closed (h : g.Whole) : g.Closed := by
  rintro b ⟨xs, hxs⟩
  cases hxs with
  | entry => exact h.entry_mem
  | step _ hb => exact h.target_mem _ _ hb

/-! ## Deleting a block -/

/-- What is reached without a block is what some trail leads to that does not pass through it. -/
theorem Whole.mem_reachableWithout (h : g.Whole) {removed : Option Label} :
    b ∈ g.reachableWithout removed ↔ ∃ xs, g.Trail xs b ∧ ∀ a ∈ xs, some a ≠ removed := by
  unfold reachableWithout
  split
  · rename_i hremoved
    constructor
    · intro hb
      cases hb
    · rintro ⟨xs, hxs, havoids⟩
      exact absurd hremoved (havoids _ hxs.entry_mem)
  · rename_i hentry
    have hstart : ∀ a ∈ [g.entry], a ∈ g.labels := by
      intro a ha
      rw [List.mem_singleton.1 ha]
      exact h.entry_mem
    have hinside : ∀ a ∈ g.labels, ∀ s ∈ (g.next a).filter fun s => some s ≠ removed,
        s ∈ g.labels :=
      fun a _ s hs => h.target_mem a s (List.mem_of_mem_filter hs)
    obtain ⟨hin, hclosed⟩ := closure_closed hstart hinside
    constructor
    · intro hb
      refine closure_least (P := fun b => ∃ xs, g.Trail xs b ∧ ∀ a ∈ xs,
        some a ≠ removed) ?_ ?_ b hb
      · intro a ha
        rw [List.mem_singleton.1 ha]
        exact ⟨_, .entry, fun c hc => List.mem_singleton.1 hc ▸ hentry⟩
      · rintro a ⟨xs, hxs, havoids⟩ s hs
        obtain ⟨hs, hkept⟩ := List.mem_filter.1 hs
        refine ⟨s :: xs, .step hxs hs, fun c hc => ?_⟩
        rcases List.mem_cons.1 hc with rfl | hc
        · exact of_decide_eq_true hkept
        · exact havoids c hc
    · rintro ⟨xs, hxs, havoids⟩
      induction hxs with
      | entry => exact hin _ (.head _)
      | @step xs a b _ hb ih =>
        have ha := ih fun c hc => havoids c (.tail _ hc)
        refine hclosed a ha b (List.mem_filter.2 ⟨hb, ?_⟩)
        simpa using havoids b (.head _)

theorem Whole.mem_live (h : g.Whole) : b ∈ g.reachableWithout none ↔ g.Reachable b := by
  rw [h.mem_reachableWithout]
  exact exists_congr fun xs => ⟨fun hb => hb.1, fun hb => ⟨hb, fun a _ => Option.some_ne_none a⟩⟩

theorem Whole.not_mem_reachableWithout (h : g.Whole) {a : Label} :
    b ∉ g.reachableWithout (some a) ↔ g.Dominates a b := by
  rw [h.mem_reachableWithout]
  constructor
  · intro hnone xs hxs
    by_contra ha
    exact hnone ⟨xs, hxs, fun c hc heq => ha (Option.some.inj heq ▸ hc)⟩
  · rintro hdom ⟨xs, hxs, havoids⟩
    exact havoids a (hdom xs hxs) rfl

/-- The table by deletion has an entry for each reachable block, with its dominators. -/
theorem Whole.dominatorsByDeletion_spec (h : g.Whole) :
    (∀ b, b ∈ g.dominatorsByDeletion ↔ g.Reachable b) ∧
      ∀ b, g.Reachable b → ∀ a, a ∈ g.dominatorsByDeletion.getD b [] ↔ g.Dominates a b := by
  have hkeys : ∀ b, b ∈ g.dominatorsByDeletion ↔ g.Reachable b := by
    intro b
    rw [← h.mem_live, dominatorsByDeletion, Table.mem_ofList]
    simp
  refine ⟨hkeys, fun b hb a => ?_⟩
  have hwithout : ∀ c, g.Reachable c →
      (Table.ofList
        ((g.reachableWithout none).map fun a => (a, g.reachableWithout (some a)))).getD c []
        = g.reachableWithout (some c) := fun c hc => Table.getD_ofList_map (h.mem_live.2 hc) _ _
  rw [dominatorsByDeletion, Table.getD_ofList_map (h.mem_live.2 hb), List.mem_filter, h.mem_live,
    Bool.or_eq_true, decide_eq_true_eq, decide_eq_true_eq]
  constructor
  · rintro ⟨_, rfl | hnot⟩
    · exact .refl a
    · rw [hwithout a (by assumption)] at hnot
      exact h.not_mem_reachableWithout.1 hnot
  · intro hdom
    have ha := hdom.reachable hb
    exact ⟨ha, .inr (hwithout a ha ▸ h.not_mem_reachableWithout.2 hdom)⟩

end Graph

namespace Func

variable {f : Func}

theorem whole_graph (hentry : f.entry ∈ f.blocks)
    (htargets : ∀ l b, f.block? l = some b → ∀ s ∈ b.successors, s ∈ f.blocks) : f.graph.Whole where
  entry_mem := mem_graph.2 hentry
  target_mem l s hs := by
    obtain ⟨b, hb, hs⟩ := block_of_mem_next hs
    exact mem_graph.2 (htargets l b hb s hs)

theorem dominators_of_graph {d : Dominators} (h : f.graph.dominators = .ok d) :
    f.dominators = .ok d := by
  rw [dominators, h]
  rfl

theorem forall_targets (h : ∀ b ∈ f.blocks.values, ∀ s ∈ b.successors, s ∈ f.blocks) :
    ∀ l b, f.block? l = some b → ∀ s ∈ b.successors, s ∈ f.blocks :=
  fun l b hb => h b (Table.mem_values.2 ⟨l, hb⟩)

/-- The dominators of a function that has its entry and its jump targets are found: there is a set
for each block that can be reached and for no other, it holds the blocks that all paths from the
entry pass through, and it is the one found by deletion. The immediate dominator is the strict
dominator that all strict dominators dominate; the entry has none. -/
theorem dominators_agree (f : Func) (hentry : f.entry ∈ f.blocks)
    (htargets : ∀ l b, f.block? l = some b → ∀ s ∈ b.successors, s ∈ f.blocks) :
    ∃ d, f.dominators = .ok d ∧ (∀ b, b ∈ d.doms ↔ f.graph.Reachable b) ∧
      (∀ b, f.graph.Reachable b → ∀ a, a ∈ d.doms.getD b [] ↔ ∀ xs, f.graph.Trail xs b → a ∈ xs) ∧
      (∀ b, b ∈ f.graph.dominatorsByDeletion ↔ b ∈ d.doms) ∧
      (∀ b a, a ∈ f.graph.dominatorsByDeletion.getD b [] ↔ a ∈ d.doms.getD b []) ∧
      (∀ b, f.graph.Reachable b → b ≠ f.entry → ∃ a, d.idom? b = some a ∧
        f.graph.StrictlyDominates a b ∧
        ∀ c, f.graph.StrictlyDominates c b → f.graph.Dominates c a) ∧
      d.idom? f.entry = none := by
  have whole := whole_graph hentry htargets
  obtain ⟨d, hdom, hd⟩ := Graph.dominators_describes whole.closed
  obtain ⟨hkeys, hsets⟩ := whole.dominatorsByDeletion_spec
  have hsame : ∀ b, b ∈ f.graph.dominatorsByDeletion ↔ b ∈ d.doms :=
    fun b => (hkeys b).trans (hd.mem_doms b).symm
  refine ⟨d, by rw [dominators, hdom]; rfl, hd.mem_doms, hd.mem_getD, hsame, fun b a => ?_,
    fun b hb hne => ?_, Graph.idom?_entry hd⟩
  · by_cases hb : f.graph.Reachable b
    · exact (hsets b hb a).trans (hd.mem_getD b hb a).symm
    · rw [Table.getD_of_not_mem fun h => hb ((hkeys b).1 h), Table.getD_of_not_mem fun h =>
        hb ((hd.mem_doms b).1 h)]
  · obtain ⟨a, ha, hclosest⟩ := Graph.exists_idom? hd hb hne
    exact ⟨a, ha, hclosest⟩

/-- A loop with two ways in, one of its blocks an edge to itself, an edge to the entry, and a block
that nothing jumps to. -/
def tangle : Func where
  name := "main"
  params := ["c"]
  blocks := Table.ofList [
    ("entry", { name := "entry", term := some (.branch (.var ⟨"c", none⟩) "left" "right") }),
    ("left", { name := "left", term := some (.branch (.var ⟨"c", none⟩) "right" "entry") }),
    ("right", { name := "right", term := some (.branch (.var ⟨"c", none⟩) "left" "right") }),
    ("lost", { name := "lost", term := some (.jump "left") })]

theorem dominators_agree_tangle :
    ∃ d, tangle.dominators = .ok d ∧ (∀ b, b ∈ d.doms ↔ tangle.graph.Reachable b) ∧
      (∀ b, tangle.graph.Reachable b →
        ∀ a, a ∈ d.doms.getD b [] ↔ ∀ xs, tangle.graph.Trail xs b → a ∈ xs) ∧
      (∀ b, b ∈ tangle.graph.dominatorsByDeletion ↔ b ∈ d.doms) ∧
      (∀ b a, a ∈ tangle.graph.dominatorsByDeletion.getD b [] ↔ a ∈ d.doms.getD b []) ∧
      (∀ b, tangle.graph.Reachable b → b ≠ "entry" → ∃ a, d.idom? b = some a ∧
        tangle.graph.StrictlyDominates a b ∧
        ∀ c, tangle.graph.StrictlyDominates c b → tangle.graph.Dominates c a) ∧
      d.idom? "entry" = none := by
  have htargets : ∀ b ∈ tangle.blocks.values, ∀ s ∈ b.successors, s ∈ tangle.blocks := by decide
  exact dominators_agree tangle (by decide) fun l b hb => htargets b (Table.mem_values.2 ⟨l, hb⟩)

end Func

end ThreeAddress
