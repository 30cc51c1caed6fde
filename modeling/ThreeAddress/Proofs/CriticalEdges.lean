import ThreeAddress.Proofs.EdgeEdits

/-!
# Splitting critical edges

The critical edges are listed once, and then split one after the other while the function changes.
That this is enough rests on one fact about a single split (`critical_edgeDetour_iff`): blocks keep
the numbers of their successors and of their predecessors, also if the edge is a loop or both arms
of a branch are split, so just the edge that is split is no longer critical. By induction over the
list, all others stay critical until it is their turn, and in the end there are none
(`splitCritical_complete`).
-/

namespace ThreeAddress

namespace Func

variable {a b l : Label}

/-! ## One edge -/

section OneEdge

variable {f : Func} {src dst : Label} {c : Block}

theorem WellFormed.length_next_edgeDetour (wf : f.WellFormed) (hc : f.block? dst = some c)
    (hedge : dst ∈ f.graph.next src) (hl : l ∈ f.blocks) :
    (((f.edgeDetour src dst none c).apply f).graph.next l).length = (f.graph.next l).length := by
  have fits := wf.edgeDetour_fits hc hedge none
  obtain ⟨b, hb⟩ := exists_block.1 hl
  obtain ⟨t, ht⟩ := Option.ne_none_iff_exists'.1 (wf.closed hb)
  have hnext : f.graph.next l = t.targets := by rw [next_graph hb, Block.successors, ht]
  have fresh : (f.edgeDetour src dst none c).label ∉ t.targets := fun hmem =>
    fits.fresh (wf.mem_of_next (hnext ▸ hmem))
  rw [next_graph (Detour.block?_of_block? fits.fresh hb), Block.successors,
    (fits.block_spec wf hb).2.2.2.1, ht, hnext]
  split_ifs
  · simp only [Option.map_some, Terminator.targets_retarget fresh, List.length_map]
  · rfl

theorem WellFormed.length_sourcesOf_edgeDetour (wf : f.WellFormed) (hc : f.block? dst = some c)
    (hedge : dst ∈ f.graph.next src) (hl : l ∈ f.blocks) :
    (((f.edgeDetour src dst none c).apply f).sourcesOf l).length = (f.sourcesOf l).length := by
  have fits := wf.edgeDetour_fits hc hedge none
  obtain ⟨b, hb⟩ := exists_block.1 hl
  rw [← ((fits.wellFormed wf).preds (Detour.block?_of_block? fits.fresh hb)).length_eq,
    ← (wf.preds hb).length_eq, Detour.preds_block]
  split
  · rename_i hdst
    obtain rfl : l = dst := hdst
    cases hc.symm.trans hb
    exact List.length_map _
  · rfl

/-- Splitting an edge takes that edge from the critical ones, and no other. -/
theorem WellFormed.critical_edgeDetour_iff (wf : f.WellFormed) (hc : f.block? dst = some c)
    (hedge : dst ∈ f.graph.next src) :
    ((f.edgeDetour src dst none c).apply f).Critical a b ↔ f.Critical a b ∧
      (a, b) ≠ (src, dst) := by
  have fits := wf.edgeDetour_fits hc hedge none
  have det := fits.detours wf
  constructor
  · rintro ⟨hab, hbranches, hjoins⟩
    -- The new block has one successor and one predecessor.
    have ha : a ≠ (f.edgeDetour src dst none c).label := by
      rintro rfl
      rw [det.next_new] at hbranches
      exact absurd hbranches (Nat.lt_irrefl 1)
    have hb : b ≠ (f.edgeDetour src dst none c).label := by
      rintro rfl
      rw [← ((fits.wellFormed wf).preds (Detour.block?_label fits.fresh)).length_eq] at hjoins
      exact absurd hjoins (Nat.lt_irrefl 1)
    obtain ⟨hab, hne⟩ := ((det.mem_next a b ha).1 hab).resolve_right fun hnew => hb hnew.1
    obtain ⟨_, hblock, _⟩ := block_of_mem_next hab
    rw [wf.length_next_edgeDetour hc hedge (mem_blocks hblock)] at hbranches
    rw [wf.length_sourcesOf_edgeDetour hc hedge (wf.mem_of_next hab)] at hjoins
    refine ⟨⟨hab, hbranches, hjoins⟩, ?_⟩
    rintro ⟨⟩
    exact hne ⟨.head _, rfl⟩
  · rintro ⟨⟨hab, hbranches, hjoins⟩, hne⟩
    obtain ⟨_, hblock, _⟩ := block_of_mem_next hab
    refine ⟨wf.mem_next_edgeDetour hc hedge hab hne, ?_, ?_⟩
    · rwa [wf.length_next_edgeDetour hc hedge (mem_blocks hblock)]
    · rwa [wf.length_sourcesOf_edgeDetour hc hedge (wf.mem_of_next hab)]

/-- Blocks that are no end of the edge stay as they are. -/
theorem block?_edgeDetour_of_ne {b : Block} (hb : f.block? l = some b) (hsrc : l ≠ src)
    (hdst : l ≠ dst) : ((f.edgeDetour src dst none c).apply f).block? l = some b := by
  rw [Detour.block?_of_block? (freshLabel_not_mem f _) hb, Detour.block_eq]
  simp [edgeDetour, hsrc, hdst]

theorem edgeDetour_newIn (f : Func) (src dst : Label) (c : Block) :
    (f.edgeDetour src dst none c).NewIn f :=
  ⟨List.forall_mem_nil _, List.forall_mem_nil _, List.forall_mem_nil _⟩

end OneEdge

/-! ## One edge after the other -/

/-- The block that splits an edge. -/
def splitter (e : Label × Label) (l : Label) : Block :=
    { name := l, term := some (.jump e.2), preds := [e.1] }

namespace SplitsEdges

variable {f f' : Func} {edges : List (Label × Label)} {labels : List Label}

section

variable (h : SplitsEdges f edges labels f')
include h

theorem critical_iff (wf : f.WellFormed) : f'.Critical a b ↔ f.Critical a b ∧ (a, b) ∉ edges := by
  induction h with
  | nil f => exact (and_iff_left List.not_mem_nil).symm
  | cons hc hedge _ ih =>
    rw [ih ((wf.edgeDetour_fits hc hedge none).wellFormed wf), wf.critical_edgeDetour_iff hc hedge,
      List.mem_cons, not_or, and_assoc]

theorem block?_of_ne {b : Block} (hb : f.block? l = some b)
    (hends : ∀ e ∈ edges, l ≠ e.1 ∧ l ≠ e.2) : f'.block? l = some b := by
  induction h with
  | nil f => exact hb
  | cons hc hedge _ ih =>
    obtain ⟨⟨hsrc, hdst⟩, hends⟩ := List.forall_mem_cons.1 hends
    exact ih (block?_edgeDetour_of_ne hb hsrc hdst) hends

/-- There is one new block for each edge, and no other. -/
theorem created (hends : ∀ e ∈ edges, e.1 ∈ f.blocks ∧ e.2 ∈ f.blocks) :
    labels.Nodup ∧ (∀ l ∈ labels, l ∉ f.blocks) ∧ (∀ l, l ∈ f'.blocks ↔ l ∈ f.blocks ∨ l ∈ labels) ∧
      List.Forall₂ (fun e l => f'.block? l = some (splitter e l)) edges labels := by
  induction h with
  | nil f =>
    exact ⟨List.nodup_nil, List.forall_mem_nil _, fun l => (or_iff_left List.not_mem_nil).symm,
      .nil⟩
  | @cons f f' src dst c edges labels hc hedge h ih =>
    have fresh : (f.edgeDetour src dst none c).label ∉ f.blocks := freshLabel_not_mem f _
    have hold : ∀ l ∈ f.blocks, l ∈ ((f.edgeDetour src dst none c).apply f).blocks :=
      fun l => Detour.mem_blocks_apply
    obtain ⟨_, hends⟩ := List.forall_mem_cons.1 hends
    obtain ⟨nodup, hnew, hall, hblocks⟩ :=
      ih fun e he => ⟨hold _ (hends e he).1, hold _ (hends e he).2⟩
    refine ⟨List.nodup_cons.2 ⟨fun hl => hnew _ hl (Detour.mem_blocks_apply_iff.2 (.inl rfl)),
      nodup⟩, List.forall_mem_cons.2 ⟨fresh, fun l hl hmem => hnew l hl (hold l hmem)⟩, fun l => ?_,
      .cons ?_ hblocks⟩
    · rw [hall, Detour.mem_blocks_apply_iff, List.mem_cons, or_assoc, or_left_comm]
    · refine h.block?_of_ne (Detour.block?_label fresh) fun e he => ⟨?_, ?_⟩
      · exact fun heq => fresh (heq ▸ (hends e he).1)
      · exact fun heq => fresh (heq ▸ (hends e he).2)

theorem isSsa (hf : f.IsSsa) : f'.IsSsa := by
  induction h with
  | nil f => exact hf
  | cons hc hedge _ ih =>
    exact ih ((hf.wf.edgeDetour_fits hc hedge none).isSsa hf (edgeDetour_newIn ..))

theorem interchangeable (wf : f.WellFormed) : f.Interchangeable f' := by
  induction h with
  | nil f => exact wf.delays_self.interchangeable
  | cons hc hedge _ ih =>
    have fits := wf.edgeDetour_fits hc hedge none
    have hfirst := (fits.simulation wf (List.forall_mem_nil _)).interchangeable pace_any
    exact hfirst.trans (ih (fits.wellFormed wf))

end

end SplitsEdges

/-! ## All critical edges -/

theorem WellFormed.criticalEdges_eq_nil {f : Func} (wf : f.WellFormed)
    (h : ∀ src dst, ¬ f.Critical src dst) : f.criticalEdges = .ok [] := by
  obtain ⟨edges, hedges, _, hmem⟩ := wf.criticalEdges
  have hnil : edges = [] := List.eq_nil_iff_forall_not_mem.2 fun e he =>
    h e.1 e.2 ((hmem e.1 e.2).1 he)
  rw [hedges, hnil]

/-- Whatever well-formed function they are split in, no critical edge is left. There is one new
block for each edge that was critical, and it lies on that edge only. SSA form stays, and so does
what the function does in any program, but for the number of steps. -/
theorem splitCritical_complete (f : Func) (hcfg : f.checkCfg = .ok ()) :
    ∃ edges labels f', f.criticalEdges = .ok edges ∧ edges.Nodup ∧
      (∀ src dst, (src, dst) ∈ edges ↔ f.Critical src dst) ∧
      (Edit.splitCritical false).Yields f labels f' ∧ f'.checkCfg = .ok () ∧
      f'.criticalEdges = .ok [] ∧
      labels.Nodup ∧ (∀ l ∈ labels, l ∉ f.blocks) ∧
      (∀ l, l ∈ f'.blocks ↔ l ∈ f.blocks ∨ l ∈ labels) ∧
      List.Forall₂
        (fun e l => f'.block? l = some (splitter e l) ∧ f'.sourcesOf l = [e.1] ∧
          f'.graph.next l = [e.2]) edges labels ∧
      (f.checkSsa = .ok () → f'.checkSsa = .ok ()) ∧
      ∀ p p' key, Replaces p p' key f f' → ∀ spec, (p.run spec).Finished →
        p'.Settles spec (p.run spec).ending := by
  have wf := checkCfg_eq_ok.1 hcfg
  obtain ⟨edges, hedges, nodup, hmem⟩ := wf.criticalEdges
  have hthere : ∀ src dst, (src, dst) ∈ edges → dst ∈ f.graph.next src :=
    fun src dst he => ((hmem src dst).1 he).edge
  obtain ⟨split, labels, f', hyields, hsplits, hall⟩ := wf.splitEdges_yields false nodup hthere
  cases hall rfl
  have wf' := hsplits.wellFormed wf
  have hnone : ∀ src dst, ¬ f'.Critical src dst := by
    intro src dst hcritical
    obtain ⟨hcritical, hnot⟩ := (hsplits.critical_iff wf).1 hcritical
    exact hnot ((hmem src dst).2 hcritical)
  obtain ⟨labels_nodup, hnew, hblocks, hcreated⟩ := hsplits.created fun e he => by
    have hedge := hthere e.1 e.2 he
    obtain ⟨_, hb, _⟩ := block_of_mem_next hedge
    exact ⟨mem_blocks hb, wf.mem_of_next hedge⟩
  refine ⟨edges, labels, f', hedges, nodup, hmem, (Edit.yields_ask hedges).bind hyields,
    checkCfg_eq_ok.2 wf', wf'.criticalEdges_eq_nil hnone, labels_nodup, hnew, hblocks,
    hcreated.imp ?_, ?_, ?_⟩
  · intro e l hl
    exact ⟨hl, List.perm_singleton.1 (wf'.preds hl).symm, next_graph hl⟩
  · intro hssa
    exact isSsa_iff.1 (hsplits.isSsa (isSsa_iff.2 hssa))
  · intro p p' key rep spec hfin
    exact (hsplits.interchangeable wf p p' key rep).settles hfin

/-- All of its edges are critical, and one of them is a loop. -/
def crossed : Func where
  name := "main"
  params := ["n"]
  ssa := true
  blocks := Table.ofList [
    ("entry", { name := "entry", term := some (.branch (.var ⟨"n", some 0⟩) "loop" "done") }),
    ("loop",
      { name := "loop", preds := ["entry", "loop"],
        term := some (.branch (.var ⟨"n", some 2⟩) "loop" "done"),
               instrs := [.phi ⟨⟨"n", some 1⟩,
                 [⟨"entry", .var ⟨"n", some 0⟩⟩, ⟨"loop", .var ⟨"n", some 2⟩⟩]⟩,
                          .binary ⟨"n", some 2⟩ "sub" (.var ⟨"n", some 1⟩) (.const 1)] }),
    ("done",
      { name := "done", preds := ["entry", "loop"], term := some (.ret (some (.var ⟨"n", some 3⟩))),
               instrs := [.phi ⟨⟨"n", some 3⟩,
                 [⟨"entry", .const 7⟩, ⟨"loop", .var ⟨"n", some 1⟩⟩]⟩] })]

theorem splitCritical_complete_crossed :
    crossed.checkCfg = .ok () ∧ crossed.checkSsa = .ok () ∧ ∃ labels f',
      (Edit.splitCritical false).Yields crossed labels f' ∧ labels.length = 4 ∧
      f'.criticalEdges = .ok [] ∧
        f'.checkSsa = .ok () := by
  have hcfg : crossed.checkCfg = .ok () := by decide
  have hssa : crossed.checkSsa = .ok () := by decide
  have hcritical : crossed.criticalEdges =
      .ok [("entry", "loop"), ("entry", "done"), ("loop", "loop"), ("loop", "done")] := by decide
  obtain ⟨edges, labels, f', hedges, _, _, hyields, _, hnone, _, _, _, hcreated, hkept, _⟩ :=
    splitCritical_complete crossed hcfg
  cases hcritical.symm.trans hedges
  exact ⟨hcfg, hssa, labels, f', hyields, hcreated.length_eq.symm, hnone, hkept hssa⟩

end Func

end ThreeAddress
