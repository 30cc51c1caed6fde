import ThreeAddress.Proofs.Detours

/-!
# Natural loops

`Graph.Natural` says what a loop is in terms of edges and dominance: control enters it at the header
only. The loops that are found are natural (`natural_of_mem_loops`), on any graph, reducible or not.

1. `Natural.dominates_header`: what dominates a block of the loop from outside dominates the header.
2. `Graph.Preheads` says when a block is a preheader. It then dominates the loop
   (`Preheads.strictlyDominates`), and what dominates a block of the loop from outside dominates it
   (`Preheads.dominates`).
3. A block on all edges that enter is a preheader, and makes no new loops (`Detours.preheads`,
   `Detours.isHeader`).
-/

namespace ThreeAddress

namespace Graph

/-- The blocks `body` form a loop with header `h`: control enters it at the header only. -/
structure Natural (g : Graph) (h : Label) (body : List Label) : Prop where
  header_mem : h ∈ body
  reachable : ∀ l ∈ body, g.Reachable l
  dominates : ∀ l ∈ body, g.Dominates h l
  closed : ∀ p l, g.Reachable p → l ∈ g.next p → l ∈ body → l ≠ h → p ∈ body

section Natural

variable {g : Graph} {h a l : Label} {body : List Label}

/-- From the header a block of the loop can be reached within the loop. -/
theorem Natural.exists_within (nat : g.Natural h body) (hl : l ∈ body) :
    ∃ later, (∀ x ∈ later, x ∈ body) ∧ ∀ ys, g.Trail ys h → g.Trail (later ++ ys) l := by
  obtain ⟨xs, hxs⟩ := nat.reachable l hl
  induction hxs with
  | entry =>
    have he := eq_entry_of_dominates (nat.dominates _ hl)
    exact ⟨[], fun x hx => (by cases hx), fun ys hys => he ▸ hys⟩
  | @step xs p l hxs hnext ih =>
    by_cases hh : l = h
    · subst hh
      exact ⟨[], fun x hx => (by cases hx), fun ys hys => hys⟩
    · have hp := nat.closed p l ⟨xs, hxs⟩ hnext hl hh
      obtain ⟨later, hlater, htrail⟩ := ih hp
      refine ⟨l :: later, fun x hx => ?_, fun ys hys => .step (htrail ys hys) hnext⟩
      rcases List.mem_cons.1 hx with rfl | hx
      · exact hl
      · exact hlater x hx

/-- What dominates a block of the loop from outside dominates the header. -/
theorem Natural.dominates_header (nat : g.Natural h body) (hl : l ∈ body) (ha : g.Dominates a l)
    (hout : a ∉ body) : g.Dominates a h := by
  obtain ⟨later, hlater, htrail⟩ := nat.exists_within hl
  intro ys hys
  rcases List.mem_append.1 (ha _ (htrail ys hys)) with hmem | hmem
  · exact absurd (hlater a hmem) hout
  · exact hmem

/-- Control comes to a header that is not the entry from outside. -/
theorem Natural.exists_outside (nat : g.Natural h body) (hne : h ≠ g.entry) :
    ∃ p, g.Reachable p ∧ h ∈ g.next p ∧ p ∉ body := by
  obtain ⟨xs, hxs⟩ := nat.reachable h nat.header_mem
  obtain ⟨ys, hys, nodup, -⟩ := hxs.simple
  cases hys with
  | entry => exact absurd rfl hne
  | @step zs p _ hzs hnext =>
    refine ⟨p, ⟨zs, hzs⟩, hnext, fun hp => ?_⟩
    -- On a trail without repetition the header does not come before itself.
    exact (List.nodup_cons.1 nodup).1 (nat.dominates p hp zs hzs)

end Natural

/-! ## The loops that are found -/

section Loops

variable {g : Graph} {d : Dominators} {h p : Label} {loop : Loop}

theorem mem_latches (hd : d.Describes g) :
    p ∈ g.latches d h ↔ g.Reachable p ∧ h ∈ g.next p ∧ g.Dominates h p := by
  rw [latches, List.mem_filter, hd.mem_order, Bool.and_eq_true, decide_eq_true_eq]
  exact and_congr_right fun hp => and_congr_right fun _ => dominates_iff hd hp

theorem mem_loops (hmem : loop ∈ (g.loops d).loops) :
    loop.header ∈ d.order ∧ g.latches d loop.header ≠ [] ∧
      loop.blocks = g.loopBlocks d loop.header (g.latches d loop.header) := by
  obtain ⟨h, horder, hloop⟩ := List.mem_filterMap.1 hmem
  cases hlatches : g.latches d h with
  | nil =>
    rw [hlatches] at hloop
    cases hloop
  | cons p more =>
    rw [hlatches] at hloop
    cases hloop
    exact ⟨horder, hlatches ▸ List.cons_ne_nil p more, hlatches ▸ rfl⟩

theorem natural_loopBlocks (hd : d.Describes g) (hh : g.Reachable h) :
    g.Natural h (g.loopBlocks d h (g.latches d h)) ∧ ∀ p ∈ g.latches d h,
      p ∈ g.loopBlocks d h (g.latches d h) := by
  have hstart : ∀ a ∈ h :: g.latches d h, a ∈ d.order := by
    intro a ha
    rcases List.mem_cons.1 ha with rfl | ha
    · exact (hd.mem_order a).2 hh
    · exact (hd.mem_order a).2 ((mem_latches hd).1 ha).1
  have hinside : ∀ a ∈ d.order, ∀ b ∈ (if a = h then [] else g.predsWithin d.order a),
      b ∈ d.order := by
    intro a _ b hb
    split at hb
    · cases hb
    · exact (mem_predsWithin.1 hb).1
  obtain ⟨hin, hclosed⟩ := closure_closed hstart hinside
  have hmem : ∀ l, l ∈ g.loopBlocks d h (g.latches d h) ↔
      g.Reachable l ∧ l ∈ closure d.order (fun b => if b = h then [] else g.predsWithin d.order b)
        (h :: g.latches d h) := by
    intro l
    rw [loopBlocks, List.mem_filter, decide_eq_true_eq, hd.mem_order]
  -- Going back along edges, the header goes on to dominate.
  have hleast : ∀ l ∈ closure d.order (fun b => if b = h then [] else g.predsWithin d.order b) (h
      :: g.latches d h), g.Dominates h l := by
    refine closure_least (fun a ha => ?_) fun a ha b hb => ?_
    · rcases List.mem_cons.1 ha with rfl | ha
      · exact .refl a
      · exact ((mem_latches hd).1 ha).2.2
    · split at hb
      · cases hb
      · rename_i hne
        exact dominates_of_edge ha (Ne.symm hne) (mem_predsWithin.1 hb).2
  refine ⟨⟨(hmem h).2 ⟨hh, hin h (.head _)⟩, fun l hl => ((hmem l).1 hl).1,
    fun l hl => hleast l ((hmem l).1 hl).2, fun p l hp hnext hl hne => ?_⟩, fun p hlatch => ?_⟩
  · refine (hmem p).2 ⟨hp, hclosed l ((hmem l).1 hl).2 p ?_⟩
    show p ∈ if l = h then [] else g.predsWithin d.order l
    rw [if_neg hne]
    exact mem_predsWithin.2 ⟨(hd.mem_order p).2 hp, hnext⟩
  · exact (hmem p).2 ⟨((mem_latches hd).1 hlatch).1, hin p (.tail _ hlatch)⟩

/-- The loops that are found are natural. -/
theorem natural_of_mem_loops (hd : d.Describes g) (hmem : loop ∈ (g.loops d).loops) :
    g.Natural loop.header loop.blocks := by
  obtain ⟨horder, _, heq⟩ := mem_loops hmem
  rw [heq]
  exact (natural_loopBlocks hd ((hd.mem_order _).1 horder)).1

/-- Some edge goes back to the block from one that it dominates. -/
def IsHeader (g : Graph) (h : Label) : Prop := ∃ p, g.Reachable p ∧ h ∈ g.next p ∧ g.Dominates h p

/-- The sources of edges that go back to the header belong to the loop. -/
theorem mem_blocks_of_latch (hd : d.Describes g) (hmem : loop ∈ (g.loops d).loops)
    (hp : g.Reachable p) (hnext : loop.header ∈ g.next p) (hdom : g.Dominates loop.header p) :
    p ∈ loop.blocks := by
  obtain ⟨horder, _, heq⟩ := mem_loops hmem
  rw [heq]
  exact (natural_loopBlocks hd ((hd.mem_order _).1 horder)).2 p ((mem_latches hd).2 ⟨hp, hnext,
    hdom⟩)

theorem isHeader_of_mem_loops (hd : d.Describes g) (hmem : loop ∈ (g.loops d).loops) :
    g.IsHeader loop.header := by
  obtain ⟨_, hlatches, _⟩ := mem_loops hmem
  obtain ⟨p, hp⟩ := List.exists_mem_of_ne_nil _ hlatches
  exact ⟨p, (mem_latches hd).1 hp⟩

theorem nodup_headers (hd : d.Describes g) : ((g.loops d).loops.map (·.header)).Nodup := by
  refine (map_filterMap_sublist _ fun h loop hloop => ?_).nodup hd.nodup
  split at hloop
  · cases hloop
  · cases hloop
    rfl

/-- Every header has a loop. -/
theorem exists_loop (hd : d.Describes g) (hh : g.IsHeader h) :
    ∃ loop ∈ (g.loops d).loops, loop.header = h := by
  obtain ⟨p, hp, hnext, hdom⟩ := hh
  have hlatch : p ∈ g.latches d h := (mem_latches hd).2 ⟨hp, hnext, hdom⟩
  refine ⟨⟨h, g.loopBlocks d h (g.latches d h), g.latches d h⟩, List.mem_filterMap.2 ⟨h, ?_, ?_⟩,
    rfl⟩
  · exact (hd.mem_order h).2 (hp.step hnext)
  · cases hlatches : g.latches d h with
    | nil =>
      rw [hlatches] at hlatch
      cases hlatch
    | cons q more => rfl

theorem mem_innermostFirst {forest : LoopForest} :
    loop ∈ forest.innermostFirst ↔ loop ∈ forest.loops := by
  simp [LoopForest.innermostFirst]

end Loops

/-! ## Preheaders -/

/-- Control enters the loop through `p` alone, which leads nowhere else. -/
structure Preheads (g : Graph) (p h : Label) (body : List Label) :
    Prop extends g.Natural h body where
  not_mem : p ∉ body
  header_ne : h ≠ g.entry
  next_eq : g.next p = [h]
  only : ∀ q, h ∈ g.next q → q ∉ body → q = p

section Preheads

variable {g : Graph} {p h a l : Label} {body : List Label}

section

variable (pre : g.Preheads p h body)
include pre

theorem Preheads.header_mem_next : h ∈ g.next p := by
  rw [pre.next_eq]
  exact .head _

theorem Preheads.preheader_reachable : g.Reachable p := by
  obtain ⟨q, hq, hnext, hout⟩ := pre.exists_outside pre.header_ne
  exact pre.only q hnext hout ▸ hq

/-- A preheader dominates the loop. -/
theorem Preheads.strictlyDominates (hl : l ∈ body) : g.StrictlyDominates p l := by
  refine ⟨fun he => pre.not_mem (he ▸ hl), fun xs hxs => ?_⟩
  induction hxs with
  | entry => exact absurd (eq_entry_of_dominates (pre.dominates _ hl)) pre.header_ne
  | @step xs q l hxs hnext ih =>
    by_cases hq : q ∈ body
    · exact .tail _ (ih hq)
    · have hh : l = h := Decidable.byContradiction fun hne =>
        hq (pre.closed q l ⟨xs, hxs⟩ hnext hl hne)
      have hqp := pre.only q (hh ▸ hnext) hq
      exact .tail _ (hqp ▸ hxs.self_mem)

/-- What dominates a block of the loop from outside dominates the preheader. -/
theorem Preheads.dominates_preheader (hl : l ∈ body) (ha : g.Dominates a l) (hout : a ∉ body) :
    g.Dominates a p :=
  dominates_of_edge (pre.dominates_header hl ha hout) (fun he => hout (he ▸ pre.header_mem))
    pre.header_mem_next

/-- No block of the loop dominates its preheader. -/
theorem Preheads.not_dominates (hl : l ∈ body) : ¬ g.Dominates l p := by
  intro hdom
  have hp := pre.strictlyDominates hl
  exact hp.1 (Dominates.antisymm pre.preheader_reachable hp.2 hdom)

/-- An edge that enters the loop comes from the preheader. -/
theorem Preheads.enters {q : Label} (hq : g.Reachable q) (hnext : l ∈ g.next q) (hl : l ∈ body)
    (hout : q ∉ body) : q = p ∧ l = h := by
  have hh : l = h := Decidable.byContradiction fun hne => hout (pre.closed q l hq hnext hl hne)
  exact ⟨pre.only q (hh ▸ hnext) hout, hh⟩

end

end Preheads

namespace Detours

variable {g g' : Graph} {sources : List Label} {m h : Label} {body : List Label}

/-- A new block on all edges that enter a loop is a preheader. -/
theorem preheads (det : Detours g g' sources m h) (nat : g.Natural h body) (hne : h ≠ g.entry)
    (hsources : ∀ p, p ∈ sources ↔ h ∈ g.next p ∧ p ∉ body) : g'.Preheads m h body := by
  have hbody : ∀ {l}, l ∈ body → l ≠ m := fun hl => det.ne_of_reachable (nat.reachable _ hl)
  refine ⟨⟨nat.header_mem, fun l hl => det.reachable_of_reachable (nat.reachable l hl),
    fun l hl => det.dominates (hbody hl) (nat.dominates l hl), fun p l hp hnext hl hne => ?_⟩,
    fun hm => hbody hm rfl, ?_, det.next_new, fun q hnext hout => ?_⟩
  · by_cases hpm : p = m
    · subst hpm
      rw [det.next_new, List.mem_singleton] at hnext
      exact absurd hnext hne
    · exact nat.closed p l (det.reachable hpm hp) (det.of_next hpm (hbody hl) hnext) hl hne
  · rw [det.entry_eq]
    exact hne
  · refine Decidable.byContradiction fun hqm => ?_
    rcases (det.mem_next q h hqm).1 hnext with hq | hq
    · exact hq.2 ⟨(hsources q).2 ⟨hq.1, hout⟩, rfl⟩
    · exact det.target_ne hq.1

/-- A new block on edges that enter the loop of `h` makes no block a header that was none. -/
theorem isHeader (det : Detours g g' sources m h) (hh : g.IsHeader h)
    (hsources : ∀ p ∈ sources, g.Reachable p → ¬ g.Dominates h p) {x : Label} (hx : g'.IsHeader x) :
    g.IsHeader x := by
  obtain ⟨p, hp, hnext, hdom⟩ := hx
  by_cases hpm : p = m
  · rw [hpm, det.next_new, List.mem_singleton] at hnext
    exact hnext ▸ hh
  · have hpr := det.reachable hpm hp
    by_cases hxm : x = m
    · -- Then the target would dominate a source.
      subst hxm
      have hs : p ∈ sources :=
        (((det.mem_next p x hpm).1 hnext).resolve_left fun hold => det.fresh p hold.1).2
      exact absurd (det.dominates_of_new hdom) (hsources p hs hpr)
    · exact ⟨p, hpr, det.of_next hpm hxm hnext, det.dominates_of hxm hdom⟩

end Detours

end Graph

end ThreeAddress
