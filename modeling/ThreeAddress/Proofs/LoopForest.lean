import ThreeAddress.Proofs.DominatorsByDeletion
import ThreeAddress.Proofs.LoopNesting

/-!
# The forest of loops

`LoopForest.Describes` says in terms of paths what the loops of a graph are and how they are nested;
the loops that are found are these, on any graph (`Graph.loops_describes`).

1. `inLoop_iff_walk`: the blocks of a loop are its header and what reaches one of its latches around
   the header.
2. `within_of_common`, `within_iff_strictlyIn`: loops that are not disjoint are nested, and the test
   for nesting compares their blocks.
3. `parent_some_iff`, `within_iff_chain`: the parent is the smallest loop around a loop, and parents
   lead to all of them.
-/

namespace ThreeAddress

/-! ## What a forest of loops is -/

/-- An edge that goes back: it leaves a block that can be reached for a dominator of it. -/
def Graph.BackEdge (g : Graph) (t h : Label) : Prop := g.Reachable t ∧ h ∈ g.next t ∧
    g.Dominates h t

/-- A path leads from `b` to the source of an edge back to `h`, and `h` is not on it. -/
def Graph.ReachesLatch (g : Graph) (h b : Label) : Prop :=
  ∃ p n t, g.Walk p n b t ∧ (∀ i ≤ n, p i ≠ h) ∧ g.BackEdge t h

/-- The blocks of `l` all belong to `m`, which has more. -/
def Loop.StrictlyIn (l m : Loop) : Prop := (∀ b ∈ l.blocks, b ∈ m.blocks) ∧ ∃ b ∈ m.blocks,
    b ∉ l.blocks

/-- The loops of the forest, their nesting included, are those of the graph. -/
structure LoopForest.Describes (forest : LoopForest) (g : Graph) : Prop where
  /-- There is one loop for each target of edges that go back. -/
  nodup_headers : (forest.loops.map (·.header)).Nodup
  isHeader_iff : ∀ h, (∃ l ∈ forest.loops, l.header = h) ↔ ∃ t, g.BackEdge t h
  mem_latches : ∀ l ∈ forest.loops, l.latches.Nodup ∧ ∀ t, t ∈ l.latches ↔ g.BackEdge t l.header
  mem_blocks : ∀ l ∈ forest.loops, ∀ b, b ∈ l.blocks ↔ b = l.header ∨ g.Reachable b ∧
    g.ReachesLatch l.header b
  header_dominates : ∀ l ∈ forest.loops, ∀ b ∈ l.blocks, g.Dominates l.header b
  /-- Control enters a loop at the header only. -/
  entered : ∀ l ∈ forest.loops, ∀ b ∈ l.blocks, b ≠ l.header → ∀ p, g.Reachable p → b ∈ g.next p →
    p ∈ l.blocks
  nested : ∀ l ∈ forest.loops, ∀ m ∈ forest.loops, l ≠ m →
    (∀ b ∈ l.blocks, b ∉ m.blocks) ∨ l.StrictlyIn m ∨ m.StrictlyIn l
  /-- The parent is the smallest loop around a loop. -/
  parent_eq_some : ∀ l ∈ forest.loops, ∀ m, forest.parent? l = some m ↔
    m ∈ forest.loops ∧ l.StrictlyIn m ∧ ∀ k ∈ forest.loops, l.StrictlyIn k → ∀ b ∈ m.blocks,
    b ∈ k.blocks
  parent_eq_none : ∀ l ∈ forest.loops, forest.parent? l = none ↔ ∀ k ∈ forest.loops,
    ¬ l.StrictlyIn k
  /-- The loops that a block belongs to are the innermost one and those that its parents lead to. -/
  mem_iff_chain : ∀ b l, l ∈ forest.loops ∧ b ∈ l.blocks ↔ ∃ m, forest.innermostOf? b = some m ∧
    Relation.ReflTransGen (fun inner outer => forest.parent? inner = some outer) m l

namespace Graph

variable {g : Graph} {d : Dominators} {h b : Label}

/-! ## Blocks and latches -/

theorem InLoop.reachesLatch (hb : g.InLoop h b) (hne : b ≠ h) : g.ReachesLatch h b := by
  induction hb with
  | header => exact absurd rfl hne
  | @latch p hp hnext hdom => exact ⟨fun _ => p, 0, p, .single p, fun _ _ => hne, hp, hnext, hdom⟩
  | @back p l _ hl _ hnext ih =>
    obtain ⟨q, n, t, walk, avoids, hback⟩ := ih hl
    refine ⟨consWalk p q, n + 1, t, walk.cons hnext, fun i hi => ?_, hback⟩
    cases i with
    | zero => exact hne
    | succ i =>
      rw [consWalk_succ]
      exact avoids i (Nat.le_of_succ_le_succ hi)

theorem ReachesLatch.inLoop (hb : g.Reachable b) (hreaches : g.ReachesLatch h b) :
    g.InLoop h b := by
  obtain ⟨p, n, t, walk, avoids, ht, hnext, hdom⟩ := hreaches
  -- Backwards along the path, from the latch.
  have hall : ∀ k, k ≤ n → g.InLoop h (p (n - k)) := by
    intro k
    induction k with
    | zero => exact fun _ => walk.stop.symm ▸ .latch ht hnext hdom
    | succ k ih =>
      intro hk
      have hstep := walk.step (n - (k + 1)) (by omega)
      rw [show n - (k + 1) + 1 = n - k by omega] at hstep
      exact .back (ih (by omega)) (avoids _ (by omega)) (walk.reachable hb (by omega)) hstep
  have hstart := hall n (Nat.le_refl n)
  rwa [Nat.sub_self, walk.start] at hstart

/-- The blocks of a loop are the header and the blocks from which a path leads around the header to
one of its latches. -/
theorem inLoop_iff_walk (hh : g.Reachable h) :
    g.InLoop h b ↔ b = h ∨ g.Reachable b ∧ g.ReachesLatch h b := by
  constructor
  · intro hb
    by_cases hne : b = h
    · exact .inl hne
    · exact .inr ⟨hb.reachable hh, hb.reachesLatch hne⟩
  · rintro (rfl | ⟨hb, hreaches⟩)
    · exact .header
    · exact hreaches.inLoop hb

section Nesting

variable {l m : Loop}

theorem latches_of_mem_loops (hl : l ∈ (g.loops d).loops) : l.latches = g.latches d l.header := by
  obtain ⟨h, _, hloop⟩ := List.mem_filterMap.1 hl
  split at hloop
  · cases hloop
  · cases hloop
    rfl

theorem eq_of_header_eq (hd : d.Describes g) (hl : l ∈ (g.loops d).loops)
    (hm : m ∈ (g.loops d).loops) (heq : l.header = m.header) : l = m :=
  List.inj_on_of_nodup_map (nodup_headers hd) hl hm heq

/-! ## Nesting by sets of blocks -/

/-- One loop lies within another if the other has all of its blocks, and more. -/
theorem within_iff_strictlyIn (hd : d.Describes g) (hl : l ∈ (g.loops d).loops)
    (hm : m ∈ (g.loops d).loops) : l.within m = true ↔ l.StrictlyIn m := by
  rw [within_iff hd hl hm]
  have hmreach := (isHeader_of_mem_loops hd hm).reachable
  constructor
  · rintro ⟨hne, hin⟩
    refine ⟨fun b hb => ?_, m.header, (mem_blocks_iff hd hm).2 .header, fun hback => ?_⟩
    · exact (mem_blocks_iff hd hm).2 (hin.trans hmreach ((mem_blocks_iff hd hl).1 hb))
    · exact hne (hin.antisymm hmreach ((mem_blocks_iff hd hl).1 hback))
  · rintro ⟨hsub, b, hbm, hbl⟩
    refine ⟨fun heq => hbl ?_, (mem_blocks_iff hd hm).1 (hsub _ ((mem_blocks_iff hd hl).2 .header))⟩
    rw [eq_of_header_eq hd hl hm heq.symm]
    exact hbm

/-- Of two loops with a block in common one lies within the other. -/
theorem within_of_common (hd : d.Describes g) (hl : l ∈ (g.loops d).loops)
    (hm : m ∈ (g.loops d).loops) (hne : l ≠ m) (hbl : b ∈ l.blocks) (hbm : b ∈ m.blocks) :
    l.within m = true ∨ m.within l = true := by
  have hheaders : l.header ≠ m.header := fun heq => hne (eq_of_header_eq hd hl hm heq)
  have hnested := InLoop.nested hd (isHeader_of_mem_loops hd hm).reachable
    (isHeader_of_mem_loops hd hl).reachable
    ((mem_blocks_iff hd hm).1 hbm) ((mem_blocks_iff hd hl).1 hbl)
  rw [within_iff hd hl hm, within_iff hd hm hl]
  exact hnested.imp (fun hin => ⟨hheaders.symm, hin⟩) fun hin => ⟨hheaders, hin⟩

theorem length_lt_of_within (hd : d.Describes g) (hl : l ∈ (g.loops d).loops)
    (hm : m ∈ (g.loops d).loops) (h : l.within m = true) : l.blocks.length < m.blocks.length := by
  obtain ⟨-, b, hbm, hbl⟩ := (within_iff_strictlyIn hd hl hm).1 h
  rw [Loop.within, Bool.and_eq_true, List.isSublist_iff_sublist] at h
  refine Nat.lt_of_le_of_ne h.2.length_le fun heq => hbl ?_
  rw [h.2.eq_of_length heq]
  exact hbm

/-! ## Parents -/

theorem mem_of_parent (h : (g.loops d).parent? l = some m) :
    m ∈ (g.loops d).loops ∧ l.within m = true :=
  List.mem_filter.1 (smallest_spec.2 m h).1

theorem parent_none_iff (hd : d.Describes g) (hl : l ∈ (g.loops d).loops) :
    (g.loops d).parent? l = none ↔ ∀ k ∈ (g.loops d).loops, ¬ l.StrictlyIn k := by
  constructor
  · intro hnone k hk hin
    have hmem : k ∈ (g.loops d).loops.filter l.within :=
      List.mem_filter.2 ⟨hk, (within_iff_strictlyIn hd hl hk).2 hin⟩
    rw [smallest_spec.1 hnone] at hmem
    cases hmem
  · intro hall
    cases hparent : (g.loops d).parent? l with
    | none => rfl
    | some m =>
      obtain ⟨hm, hin⟩ := mem_of_parent hparent
      exact absurd ((within_iff_strictlyIn hd hl hm).1 hin) (hall m hm)

/-- The parent lies in all loops around the loop. -/
theorem subset_of_parent (hd : d.Describes g) (hl : l ∈ (g.loops d).loops)
    (h : (g.loops d).parent? l = some m) {k : Loop} (hk : k ∈ (g.loops d).loops)
    (hin : l.StrictlyIn k) : ∀ b ∈ m.blocks, b ∈ k.blocks := by
  rcases (within_iff_parent hd hl h hk).1 ((within_iff_strictlyIn hd hl hk).2 hin) with rfl | hmk
  · exact fun _ hb => hb
  · exact ((within_iff_strictlyIn hd (mem_of_parent h).1 hk).1 hmk).1

theorem parent_some_iff (hd : d.Describes g) (hl : l ∈ (g.loops d).loops) :
    (g.loops d).parent? l = some m ↔ m ∈ (g.loops d).loops ∧ l.StrictlyIn m ∧
      ∀ k ∈ (g.loops d).loops, l.StrictlyIn k → ∀ b ∈ m.blocks, b ∈ k.blocks := by
  constructor
  · intro h
    obtain ⟨hm, hin⟩ := mem_of_parent h
    exact ⟨hm, (within_iff_strictlyIn hd hl hm).1 hin,
      fun k hk hk' => subset_of_parent hd hl h hk hk'⟩
  · rintro ⟨hm, hin, hleast⟩
    cases hparent : (g.loops d).parent? l with
    | none => exact absurd hin ((parent_none_iff hd hl).1 hparent m hm)
    | some k =>
      -- Each of the two lies in the other, so neither lies strictly in it.
      obtain ⟨hk, hlk⟩ := mem_of_parent hparent
      have hsub := subset_of_parent hd hl hparent hm hin
      have hsub' := hleast k hk ((within_iff_strictlyIn hd hl hk).1 hlk)
      refine congrArg some (Classical.byContradiction fun hne => ?_)
      have hheader : k.header ∈ k.blocks := (mem_blocks_iff hd hk).2 .header
      rcases within_of_common hd hk hm hne hheader (hsub _ hheader) with hw | hw
      · obtain ⟨-, b, hb, hnot⟩ := (within_iff_strictlyIn hd hk hm).1 hw
        exact hnot (hsub' b hb)
      · obtain ⟨-, b, hb, hnot⟩ := (within_iff_strictlyIn hd hm hk).1 hw
        exact hnot (hsub b hb)

/-- A loop and the loops around it are those that its parents lead to. -/
theorem within_iff_chain (hd : d.Describes g) (hl : l ∈ (g.loops d).loops) :
    m ∈ (g.loops d).loops ∧ (m = l ∨ l.within m = true) ↔
      Relation.ReflTransGen (fun inner outer => (g.loops d).parent? inner = some outer) l m := by
  constructor
  · rintro ⟨hm, rfl | hin⟩
    · exact .refl
    -- Parents are less deep.
    generalize hn : (g.loops d).depth l = n
    induction n using Nat.strongRecOn generalizing l with
    | ind n ih =>
      cases hparent : (g.loops d).parent? l with
      | none =>
        exact absurd ((within_iff_strictlyIn hd hl hm).1 hin)
          ((parent_none_iff hd hl).1 hparent m hm)
      | some k =>
        obtain ⟨hk, hlk⟩ := mem_of_parent hparent
        rcases (within_iff_parent hd hl hparent hm).1 hin with rfl | hkm
        · exact .single hparent
        · exact .head hparent (ih _ (hn ▸ depth_lt hd hl hk hlk) hk hkm rfl)
  · intro hchain
    induction hchain with
    | refl => exact ⟨hl, .inl rfl⟩
    | tail _ hparent ih =>
      obtain ⟨hk, hin⟩ := ih
      obtain ⟨hm, hkm⟩ := mem_of_parent hparent
      refine ⟨hm, .inr ?_⟩
      rcases hin with rfl | hin
      · exact hkm
      · exact within_trans hd hl hk hm hin hkm

/-! ## The innermost loop -/

theorem mem_of_innermost (h : (g.loops d).innermostOf? b = some m) :
    m ∈ (g.loops d).loops ∧ b ∈ m.blocks ∧ ∀ l ∈ (g.loops d).loops, b ∈ l.blocks →
      m.blocks.length ≤ l.blocks.length := by
  obtain ⟨hmem, hleast⟩ := smallest_spec.2 m h
  obtain ⟨hm, hb⟩ := List.mem_filter.1 hmem
  exact ⟨hm, of_decide_eq_true hb,
    fun l hl hbl => hleast l (List.mem_filter.2 ⟨hl, decide_eq_true hbl⟩)⟩

theorem exists_innermost (hl : l ∈ (g.loops d).loops) (hb : b ∈ l.blocks) :
    ∃ m, (g.loops d).innermostOf? b = some m := by
  cases hin : (g.loops d).innermostOf? b with
  | some m => exact ⟨m, rfl⟩
  | none =>
    have hmem : l ∈ (g.loops d).loops.filter (·.contains b) :=
      List.mem_filter.2 ⟨hl, decide_eq_true hb⟩
    rw [smallest_spec.1 hin] at hmem
    cases hmem

/-- The loops that a block belongs to are the innermost one and those that its parents lead to. -/
theorem mem_blocks_iff_chain (hd : d.Describes g) :
    l ∈ (g.loops d).loops ∧ b ∈ l.blocks ↔ ∃ m, (g.loops d).innermostOf? b = some m ∧
      Relation.ReflTransGen (fun inner outer => (g.loops d).parent? inner = some outer) m l := by
  constructor
  · rintro ⟨hl, hb⟩
    obtain ⟨m, hin⟩ := exists_innermost hl hb
    obtain ⟨hm, hbm, hleast⟩ := mem_of_innermost hin
    refine ⟨m, hin, (within_iff_chain hd hm).1 ⟨hl, ?_⟩⟩
    by_cases heq : l = m
    · exact .inl heq
    · refine .inr ((within_of_common hd hl hm heq hb hbm).resolve_left fun hlm => ?_)
      have hlt := length_lt_of_within hd hl hm hlm
      have hle := hleast l hl hb
      omega
  · rintro ⟨m, hin, hchain⟩
    obtain ⟨hm, hbm, _⟩ := mem_of_innermost hin
    obtain ⟨hl, heq | hml⟩ := (within_iff_chain hd hm).2 hchain
    · exact ⟨hl, heq ▸ hbm⟩
    · exact ⟨hl, ((within_iff_strictlyIn hd hm hl).1 hml).1 b hbm⟩

end Nesting

/-- The loops that are found, and their nesting, are those of the graph. -/
theorem loops_describes (hd : d.Describes g) : (g.loops d).Describes g where
  nodup_headers := nodup_headers hd
  isHeader_iff h := by
    constructor
    · rintro ⟨l, hl, rfl⟩
      exact isHeader_of_mem_loops hd hl
    · exact exists_loop hd
  mem_latches l hl := by
    rw [latches_of_mem_loops hl]
    exact ⟨hd.nodup.filter _, fun t => mem_latches hd⟩
  mem_blocks l hl b :=
    (mem_blocks_iff hd hl).trans (inLoop_iff_walk (isHeader_of_mem_loops hd hl).reachable)
  header_dominates l hl b hb := ((mem_blocks_iff hd hl).1 hb).dominates
  entered l hl b hb hne p hp hnext := (natural_of_mem_loops hd hl).closed p b hp hnext hb hne
  nested l hl m hm hne := by
    by_cases hcommon : ∃ b ∈ l.blocks, b ∈ m.blocks
    · obtain ⟨b, hbl, hbm⟩ := hcommon
      rw [← within_iff_strictlyIn hd hl hm, ← within_iff_strictlyIn hd hm hl]
      exact .inr (within_of_common hd hl hm hne hbl hbm)
    · exact .inl fun b hbl hbm => hcommon ⟨b, hbl, hbm⟩
  parent_eq_some l hl m := parent_some_iff hd hl
  parent_eq_none l hl := parent_none_iff hd hl
  mem_iff_chain b l := mem_blocks_iff_chain hd

end Graph

namespace Func

/-- The loops of a function that has its entry and its jump targets are found, with their nesting,
whatever the shape of its graph. -/
theorem loops_form_forest (f : Func) (hentry : f.entry ∈ f.blocks)
    (htargets : ∀ l b, f.block? l = some b → ∀ s ∈ b.successors, s ∈ f.blocks) :
    ∃ d, f.dominators = .ok d ∧ (f.graph.loops d).Describes f.graph := by
  obtain ⟨d, hdom, hd⟩ := Graph.dominators_describes (whole_graph hentry htargets).closed
  exact ⟨d, dominators_of_graph hdom, Graph.loops_describes hd⟩

/-- A block that loops on itself in a larger loop, beside a cycle that control enters at two
blocks. -/
def knot : Func where
  name := "main"
  params := ["c"]
  blocks := Table.ofList [
    ("entry", { name := "entry", term := some (.jump "outer") }),
    ("outer", { name := "outer", term := some (.branch (.var ⟨"c", none⟩) "left" "right") }),
    ("left", { name := "left", term := some (.branch (.var ⟨"c", none⟩) "right" "inner") }),
    ("right", { name := "right", term := some (.branch (.var ⟨"c", none⟩) "left" "inner") }),
    ("inner", { name := "inner", term := some (.branch (.var ⟨"c", none⟩) "inner" "latch") }),
    ("latch", { name := "latch", term := some (.branch (.var ⟨"c", none⟩) "outer" "done") }),
    ("lost", { name := "lost", term := some (.jump "inner") }),
    ("done", { name := "done", term := some (.ret none) })]

theorem loops_form_forest_knot :
    ∃ d, knot.dominators = .ok d ∧ (knot.graph.loops d).Describes knot.graph :=
  loops_form_forest knot (by decide) (forall_targets (by decide))

end Func

end ThreeAddress
