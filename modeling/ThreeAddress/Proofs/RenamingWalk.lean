import ThreeAddress.Proofs.Refusals

/-!
# The walk over the dominator tree

What renaming makes of a whole function. Where the walk stood at the start of each block is enough
to say what each block becomes: `Func.renamedOn` is the function once some blocks were renamed, and
each block that is renamed leads from one such function to the next (`renameBlock_yields`). What is
known of the starts, once the walk is over, is `Walked`. A policy that refuses uses refuses the walk
if some block has a use that no definition reaches (`LacksDef`).

The stacks always hold the definitions of the blocks that were entered and not left (`OnPath`). So a
block that is entered finds on top what reaches the end of its immediate dominator.
-/

namespace ThreeAddress

/-- Where renaming stands at the start of a block. -/
structure RenamePoint where
  versions : Table String Int
  defs : Reaching

namespace Func

variable {l : Label} {b : Block} {defs : Reaching} {g : Phi → Phi}

/-- The instructions of a block. -/
def instrsAt (f : Func) (l : Label) : List Instr := ((f.block? l).map (·.instrs)).getD []

/-- What renaming makes of a block. -/
def renamedAt (f : Func) (starts : Label → RenamePoint) (l : Label) : Renamed :=
  renameInstrs .sentinel (f.instrsAt l) (starts l).versions (starts l).defs

/-- The definitions that reach the end of a block. -/
def endDefs (f : Func) (starts : Label → RenamePoint) (l : Label) : Reaching :=
    (f.renamedAt starts l).defs

/-- A block once the blocks in `done` were renamed, with `fill` applied to its phis. -/
def renamedBlock (f : Func) (starts : Label → RenamePoint) (fill : Phi → Phi) (done : List Label)
    (l : Label)
    (b : Block) : Block :=
  if l ∈ done then
    { b with
      instrs := mapLeadingPhis fill (f.renamedAt starts l).instrs
      term := b.term.map (·.mapUses (f.endDefs starts l).resolve) }
  else { b with instrs := mapLeadingPhis fill b.instrs }

/-- The function with other version counters. -/
def setVersions (f : Func) (versions : Table String Int) : Func := { f with versions }

theorem block?_setVersions (f : Func) (versions : Table String Int) (l : Label) :
    (f.setVersions versions).block? l = f.block? l := rfl

/-- Apart from the blocks, it does not matter how they were rewritten. -/
theorem withBlocks_rewrite (f : Func) (g g' : Label → Block → Block) (versions : Table String Int)
    (blocks : Table Label Block) :
    ({ (f.rewrite g).setVersions versions with blocks } : Func)
      = { (f.rewrite g').setVersions versions with blocks } :=
  rfl

/-- The function once the blocks in `done` were renamed. -/
def renamedOn (f : Func) (starts : Label → RenamePoint) (done : List Label)
    (versions : Table String Int) : Func :=
  (f.rewrite (f.renamedBlock starts (Phi.fill (f.endDefs starts) done) done)).setVersions versions

variable {f : Func} {starts starts' : Label → RenamePoint} {done : List Label}
    {versions : Table String Int}

theorem instrsAt_of_block (h : f.block? l = some b) : f.instrsAt l = b.instrs := by
  rw [instrsAt, h]
  rfl

theorem renamedAt_congr (h : starts' l = starts l) :
    f.renamedAt starts' l = f.renamedAt starts l := by
  rw [renamedAt, renamedAt, h]

theorem endDefs_congr (h : starts' l = starts l) : f.endDefs starts' l = f.endDefs starts l := by
  rw [endDefs, endDefs, renamedAt_congr h]

theorem block?_renamedOn (h : f.block? l = some b) :
    (f.renamedOn starts done versions).block? l
      = some (f.renamedBlock starts (Phi.fill (f.endDefs starts) done) done l b) :=
  block?_rewrite_of_some _ h

theorem renamedBlock_of_mem (h : l ∈ done) (fill : Phi → Phi) (b : Block) :
    f.renamedBlock starts fill done l b
      = { b with
          instrs := mapLeadingPhis fill (f.renamedAt starts l).instrs
          term := b.term.map (·.mapUses (f.endDefs starts l).resolve) } :=
  if_pos h

theorem renamedBlock_of_not_mem (h : l ∉ done) (fill : Phi → Phi) (b : Block) :
    f.renamedBlock starts fill done l b = { b with instrs := mapLeadingPhis fill b.instrs } :=
  if_neg h

theorem destsOf_mapLeadingPhis (hg : ∀ φ, (g φ).dest = φ.dest) (instrs : List Instr) :
    destsOf (mapLeadingPhis g instrs) = destsOf instrs := by
  induction instrs with
  | nil => rfl
  | cons i rest ih =>
    cases i with
    | phi φ => rw [mapLeadingPhis, destsOf_cons, destsOf_cons, ih, Instr.dest?, Instr.dest?, hg]
    | _ => rfl

theorem leadingPhis_mapLeadingPhis (g : Phi → Phi) (instrs : List Instr) :
    leadingPhis (mapLeadingPhis g instrs) = (leadingPhis instrs).map g := by
  induction instrs with
  | nil => rfl
  | cons i rest ih =>
    cases i with
    | phi φ => simp only [mapLeadingPhis, leadingPhis, List.map_cons, ih]
    | _ => rfl

theorem modifyBlock_congr (hb : f.block? l = some b) {g g' : Block → Block} (h : g b = g' b) :
    f.modifyBlock l g = f.modifyBlock l g' := by
  refine eq_of_blocks rfl ?_ fun x => ?_
  · exact (Table.keys_modify _ _ _).trans (Table.keys_modify _ _ _).symm
  · rw [block?_modifyBlock, block?_modifyBlock]
    split
    · rename_i hx
      rw [hx, hb, Option.map_some, Option.map_some, h]
    · rfl

/-- The operands for a predecessor are set in each of its successors. -/
theorem fillSuccessors_yields (ends : Label → Reaching) {succs : List Label} (nodup : succs.Nodup)
    (h : ∀ s ∈ succs, ∃ b, f.block? s = some b ∧ ∀ φ ∈ b.phis, l ∈ φ.labels ∧ φ.labels.Nodup) :
    ∃ missing, (Edit.fillSuccessors l (ends l) succs).Yields f missing
      (succs.foldl (fun f s => f.modifyBlock s (·.mapPhis (Phi.fill ends [l]))) f) := by
  induction succs generalizing f with
  | nil => exact ⟨_, Edit.yields_pure _ f⟩
  | cons s succs ih =>
    obtain ⟨hs, nodup⟩ := List.nodup_cons.1 nodup
    obtain ⟨b, hb, hphis⟩ := h s (.head _)
    obtain ⟨missing, hfill⟩ := fillPhis_eq ends hphis
    have hstep : f.modifyBlock s (fun b' =>
        { b' with instrs := (fillPhis l (ends l) b.instrs).instrs })
        = f.modifyBlock s (·.mapPhis (Phi.fill ends [l])) := by
      refine modifyBlock_congr hb ?_
      rw [hfill]
      rfl
    obtain ⟨missing', hrest⟩ := ih nodup (f := f.modifyBlock s (·.mapPhis (Phi.fill ends [l])))
      fun s' hs' => by
      obtain ⟨b', hb', hphis'⟩ := h s' (.tail _ hs')
      have hne : s' ≠ s := fun e => hs (e ▸ hs')
      refine ⟨b', ?_, hphis'⟩
      rw [block?_modifyBlock, if_neg hne, hb']
    refine ⟨missing ++ missing', ?_⟩
    unfold Edit.fillSuccessors
    refine (Edit.yields_ask (a := b) ?_).bind ((Edit.yields_modify _ f).bind ?_)
    · unfold getBlock
      rw [hb]
    · rw [hstep, hfill]
      exact hrest.bind (Edit.yields_pure _ _)

/-- The labels are those of the predecessors of a block, in any order. -/
def Covers (f : Func) (l : Label) (labels : List Label) : Prop :=
  labels.Nodup ∧ ∀ p, p ∈ labels ↔ l ∈ f.graph.next p

/-- What the walk asks for: phis lead their blocks and have an operand for each predecessor. -/
structure Walkable (f : Func) : Prop where
  entry_mem : f.entry ∈ f.blocks
  closed : ∀ {l b}, f.block? l = some b → b.term ≠ none
  targets : ∀ {l b}, f.block? l = some b → ∀ s ∈ b.successors, s ∈ f.blocks
  lead : ∀ {l b}, f.block? l = some b → b.instrs = b.phis.map .phi ++ b.body
  covers : ∀ {l b}, f.block? l = some b → ∀ φ ∈ b.phis, f.Covers l φ.labels

theorem WellFormed.covers (wf : f.WellFormed) (hb : f.block? l = some b) : f.Covers l b.preds :=
  ⟨wf.nodup_preds hb, fun _ => wf.mem_preds hb⟩

theorem WellFormed.walkable (wf : f.WellFormed) : f.Walkable where
  entry_mem := wf.entry_mem
  closed := wf.closed
  targets := wf.targets
  lead hb := (wf.tidy hb).instrs_eq
  covers hb φ hφ := (wf.tidy hb).labels_eq φ hφ ▸ wf.covers hb

theorem Walkable.mem_of_reachable (h : f.Walkable) (hl : f.graph.Reachable l) : l ∈ f.blocks := by
  obtain ⟨xs, hxs⟩ := hl
  cases hxs with
  | entry => exact h.entry_mem
  | step _ hl =>
    obtain ⟨c, hc, hs⟩ := block_of_mem_next hl
    exact h.targets hc _ hs

theorem Walkable.covers_renamedAt (h : f.Walkable) (hb : f.block? l = some b) :
    ∀ φ ∈ leadingPhis (f.renamedAt starts l).instrs, f.Covers l φ.labels := by
  intro φ hφ
  rw [renamedAt, instrsAt_of_block hb] at hφ
  obtain ⟨ψ, hψ, hsame, _⟩ := exists_of_forall₂ (sameName_renameInstrs b.instrs _ _).flip hφ
  rw [Phi.labels, hsame]
  exact h.covers hb ψ hψ

/-- The steps of renaming a block, when no use is refused. -/
theorem renameBlock_yields_of_fill {r : Renamed} {filled : List String} {f' : Func}
    (hb : f.block? l = some b) (hr : renameInstrs .sentinel b.instrs f.versions defs = r)
    (hrefused : r.refused = none)
    (hfill : (Edit.fillSuccessors l r.defs b.successors).Yields
      (Func.modifyBlock { f.modifyBlock l fun b => { b with instrs := r.instrs } with versions :=
      r.versions } l fun b => { b with term := b.term.map (·.mapUses r.defs.resolve) }) filled f') :
    ∃ missing, (Edit.renameBlock .sentinel l defs).Yields f (r.defs, missing) f' := by
  have hask : f.getBlock l = .ok b := by rw [getBlock, hb]
  subst hr
  apply Exists.intro
  refine (Edit.yields_ask hask).bind ((Edit.yields_get f).bind ((Edit.yields_modify _ f).bind ?_))
  simp only [hrefused]
  exact (Edit.yields_modify _ _).bind (hfill.bind (Edit.yields_pure _ _))

/-- The code of one more block is renamed. -/
theorem modifyBlock_renamed (hdone : l ∉ done) (hstarts : ∀ p ∈ done, starts' p = starts p)
    (fill : Phi → Phi) (versions' : Table String Int) :
    ((((f.rewrite (f.renamedBlock starts fill done)).setVersions versions).modifyBlock l
        fun b =>
          { b with instrs := mapLeadingPhis fill (f.renamedAt starts' l).instrs }).setVersions
          versions').modifyBlock l
            (fun b => { b with term := b.term.map (·.mapUses (f.endDefs starts' l).resolve) })
      = (f.rewrite (f.renamedBlock starts' fill (done ++ [l]))).setVersions versions' := by
  refine eq_of_blocks rfl ?_ fun x => ?_
  · exact (Table.keys_modify _ _ _).trans ((Table.keys_modify _ _ _).trans
      ((Table.keys_mapValues _ _).trans (Table.keys_mapValues _ _).symm))
  · rw [block?_modifyBlock, block?_setVersions, block?_modifyBlock, block?_setVersions,
      block?_setVersions, block?_rewrite, block?_rewrite]
    cases f.block? x with
    | none => simp
    | some b =>
      by_cases hx : x = l
      · subst hx
        rw [if_pos rfl, if_pos rfl, Option.map_some, Option.map_some, Option.map_some,
          Option.map_some, renamedBlock_of_not_mem hdone,
          renamedBlock_of_mem (List.mem_append_right done (.head _))]
      · rw [if_neg hx, if_neg hx, Option.map_some, Option.map_some]
        by_cases hmem : x ∈ done
        · rw [renamedBlock_of_mem hmem, renamedBlock_of_mem (List.mem_append_left [l] hmem),
            endDefs_congr (hstarts x hmem), renamedAt_congr (hstarts x hmem)]
        · have hnot : x ∉ done ++ [l] := by simp [hmem, hx]
          rw [renamedBlock_of_not_mem hmem, renamedBlock_of_not_mem hnot]

theorem mapPhis_renamedBlock (g fill : Phi → Phi) (l : Label) (b : Block) :
    (f.renamedBlock starts fill done l b).mapPhis g
      = f.renamedBlock starts (fun φ => g (fill φ)) done l b := by
  unfold renamedBlock
  split <;> simp only [Block.mapPhis, mapLeadingPhis_mapLeadingPhis]

theorem Walkable.renamedBlock_congr (h : f.Walkable) (hb : f.block? l = some b) {g' : Phi → Phi}
    (hg : ∀ φ : Phi, f.Covers l φ.labels → g φ = g' φ) :
    f.renamedBlock starts g done l b = f.renamedBlock starts g' done l b := by
  unfold renamedBlock
  split
  · rw [mapLeadingPhis_congr fun φ hφ => hg φ (h.covers_renamedAt hb φ hφ)]
  · rw [mapLeadingPhis_congr fun φ hφ => hg φ (h.covers hb φ hφ)]

theorem Walkable.covers_renamedBlock (h : f.Walkable) (hb : f.block? l = some b)
    (hg : ∀ φ, (g φ).labels = φ.labels) :
    ∀ φ ∈ (f.renamedBlock starts g done l b).phis, f.Covers l φ.labels := by
  intro φ hφ
  unfold renamedBlock at hφ
  split at hφ
  · rw [Block.phis, leadingPhis_mapLeadingPhis] at hφ
    obtain ⟨ψ, hψ, rfl⟩ := List.mem_map.1 hφ
    rw [hg]
    exact h.covers_renamedAt hb ψ hψ
  · rw [Block.phis, leadingPhis_mapLeadingPhis] at hφ
    obtain ⟨ψ, hψ, rfl⟩ := List.mem_map.1 hφ
    rw [hg]
    exact h.covers hb ψ hψ

/-- The operands for one more predecessor are set. -/
theorem Walkable.fillSuccessors_renamed (h : f.Walkable) (hb : f.block? l = some b)
    {ends ends' : Label → Reaching} (hends : ∀ p ∈ done, ends' p = ends p)
    (starts : Label → RenamePoint) (renamed : List Label) :
    ∃ missing, (Edit.fillSuccessors l (ends' l) b.successors).Yields
      ((f.rewrite (f.renamedBlock starts (Phi.fill ends done) renamed)).setVersions versions) missing
      ((f.rewrite (f.renamedBlock starts (Phi.fill ends' (done ++ [l])) renamed)).setVersions
        versions) := by
  obtain ⟨missing, hfill⟩ := fillSuccessors_yields ends' (l := l) (nodup_successors b)
    (f := (f.rewrite (f.renamedBlock starts (Phi.fill ends done) renamed)).setVersions versions)
      fun s hs => by
      obtain ⟨c, hc⟩ := exists_block.1 (h.targets hb s hs)
      refine ⟨_, block?_rewrite_of_some _ hc, fun φ hφ => ?_⟩
      obtain ⟨nodup, mem_labels⟩ := h.covers_renamedBlock hc Phi.labels_fill φ hφ
      exact ⟨(mem_labels l).2 (next_graph hb ▸ hs), nodup⟩
  refine ⟨missing, ?_⟩
  convert hfill using 1
  obtain ⟨heq, hkeys⟩ := foldl_modifyBlock_eq b.successors
    ((f.rewrite (f.renamedBlock starts (Phi.fill ends done) renamed)).setVersions versions)
    (·.mapPhis (Phi.fill ends' [l]))
  symm
  refine eq_of_blocks ?_ ?_ fun x => ?_
  · exact heq.trans (withBlocks_rewrite f _ _ versions _)
  · rw [hkeys]
    exact (Table.keys_mapValues _ _).trans (Table.keys_mapValues _ _).symm
  · rw [block?_foldl_modifyBlock (nodup_successors b), block?_setVersions, block?_setVersions,
      block?_rewrite, block?_rewrite]
    cases hx : f.block? x with
    | none => simp
    | some c =>
      rw [Option.map_some, Option.map_some, Option.map_some, mapPhis_renamedBlock]
      split
      · congr 1
        exact h.renamedBlock_congr hx fun φ _ => Phi.fill_fill hends l φ
      · rename_i hs
        congr 1
        refine h.renamedBlock_congr hx fun φ hφ => (Phi.fill_congr (fun p hp => ?_) hends).symm
        have hne : p ≠ l := by
          rintro rfl
          exact hs (next_graph hb ▸ (hφ.2 p).1 hp)
        simp [hne]

/-- A block that was not renamed yet. -/
theorem block?_renamedOn_of_not_mem (hb : f.block? l = some b) (hdone : l ∉ done) :
    (f.renamedOn starts done versions).block? l
      = some { b with instrs := mapLeadingPhis (Phi.fill (f.endDefs starts) done) b.instrs } := by
  rw [block?_renamedOn hb, renamedBlock_of_not_mem hdone]

theorem renameInstrs_filled (hb : f.block? l = some b) (hstart : starts' l = ⟨versions, defs⟩)
    (ends : Label → Reaching) (done : List Label) :
    renameInstrs .sentinel (mapLeadingPhis (Phi.fill ends done) b.instrs) versions defs
      = { f.renamedAt starts' l with
          instrs := mapLeadingPhis (Phi.fill ends done) (f.renamedAt starts' l).instrs } := by
  rw [renameInstrs_mapLeadingPhis, renamedAt, instrsAt_of_block hb, hstart]

/-- Renaming one more block. -/
theorem Walkable.renameBlock_yields (h : f.Walkable) (hl : l ∈ f.blocks) (hdone : l ∉ done)
    (hstart : starts' l = ⟨versions, defs⟩) (hstarts : ∀ p ∈ done, starts' p = starts p) :
    ∃ missing, (Edit.renameBlock .sentinel l defs).Yields (f.renamedOn starts done versions)
      (f.endDefs starts' l,
        missing) (f.renamedOn starts' (done ++ [l]) (f.renamedAt starts' l).versions) := by
  obtain ⟨b, hb⟩ := exists_block.1 hl
  have hends : ∀ p ∈ done, f.endDefs starts' p = f.endDefs starts p :=
    fun p hp => endDefs_congr (hstarts p hp)
  obtain ⟨filled, hfilled⟩ := h.fillSuccessors_renamed hb hends starts' (done ++ [l])
  rw [← modifyBlock_renamed hdone hstarts] at hfilled
  have := renameBlock_yields_of_fill (block?_renamedOn_of_not_mem hb hdone)
    (renameInstrs_filled hb hstart _ done)
    (renames _ _ _).refused hfilled
  exact this

/-- A use in the block, of the terminator or of an instruction that is no phi, has no definition
that reaches it. -/
def LacksDef (f : Func) (starts : Label → RenamePoint) (l : Label) : Prop :=
  (f.renamedAt starts l).missing ≠ [] ∨
    ∃ b t, f.block? l = some b ∧ b.term = some t ∧ (f.endDefs starts l).unresolved t.uses ≠ []

theorem lacksDef_congr (h : starts' l = starts l) : f.LacksDef starts' l ↔ f.LacksDef starts l := by
  rw [LacksDef, LacksDef, renamedAt_congr h, endDefs_congr h]

theorem Walkable.renameBlock_refusesIf (h : f.Walkable) (hl : l ∈ f.blocks) (hdone : l ∉ done)
    (hstart : starts' l = ⟨versions, defs⟩) :
    Edit.RefusesIf (f.LacksDef starts' l) (Edit.renameBlock .refuse l defs)
      (Edit.renameBlock .sentinel l defs)
      (f.renamedOn starts done versions) := by
  obtain ⟨b, hb⟩ := exists_block.1 hl
  obtain ⟨t, ht⟩ := Option.ne_none_iff_exists'.1 (h.closed hb)
  refine (Edit.renameBlock_refusesIf (block?_renamedOn_of_not_mem hb hdone) ht defs).congr ?_
  have hversions : (f.renamedOn starts done versions).versions = versions := rfl
  rw [hversions, renameInstrs_filled hb hstart]
  refine or_congr_right ⟨fun h => ⟨b, t, hb, ht, h⟩, ?_⟩
  rintro ⟨b', t', hb', ht', h⟩
  cases hb.symm.trans hb'
  cases ht.symm.trans ht'
  exact h

/-- The definitions that reach the end of a block; without a block, those at the entry. -/
def defsAfter (f : Func) (atEntry : Reaching) (starts : Label → RenamePoint) :
    Option Label → Reaching
  | none => atEntry
  | some a => f.endDefs starts a

/-- What is known of where renaming stood at the start of each block in `done`, when the counters
stand at `versions`. -/
structure Walked (f : Func) (d : Dominators) (atEntry : Reaching) (starts : Label →
    RenamePoint) (done : List Label)
    (versions : Table String Int) : Prop where
  parents : ∀ l ∈ done, ∀ a, d.idom? l = some a → a ∈ done
  /-- What reaches the end of the immediate dominator reaches the start. -/
  defs_same : ∀ l ∈ done, (starts l).defs.Same (f.defsAfter atEntry starts (d.idom? l))
  /-- Each block starts at the counters that an earlier one left, or above. -/
  inOrder : done.Pairwise fun a b => ∀ x, (f.renamedAt starts a).versions.getD x 0
    ≤ (starts b).versions.getD x 0
  nonneg : ∀ l ∈ done, ∀ x, 0 ≤ (starts l).versions.getD x 0
  bound : ∀ l ∈ done, ∀ x, (f.renamedAt starts l).versions.getD x 0 ≤ versions.getD x 0
  bound_nonneg : ∀ x, 0 ≤ versions.getD x 0

variable {d : Dominators} {atEntry : Reaching}

theorem defsAfter_congr {a : Option Label} (h : ∀ p, a = some p → starts' p = starts p) :
    f.defsAfter atEntry starts' a = f.defsAfter atEntry starts a := by
  cases a with
  | none => rfl
  | some p => exact endDefs_congr (h p rfl)

theorem Walked.snoc (h : Walked f d atEntry starts done versions)
    (hparent : ∀ a, d.idom? l = some a → a ∈ done) (hstart : starts' l = ⟨versions, defs⟩)
    (hstarts : ∀ p ∈ done, starts' p = starts p)
    (hdefs : defs.Same (f.defsAfter atEntry starts (d.idom? l))) :
    Walked f d atEntry starts' (done ++ [l]) (f.renamedAt starts' l).versions := by
  have hversions : (starts' l).versions = versions := by rw [hstart]
  have hmono : ∀ x, versions.getD x 0 ≤ (f.renamedAt starts' l).versions.getD x 0 := by
    intro x
    rw [← hversions]
    exact (renames _ _ _).mono x
  have hmem : ∀ c ∈ done ++ [l], c ∈ done ∨ c = l := fun c hc => by simpa using hc
  refine ⟨fun c hc a ha => ?_, fun c hc => ?_, ?_, fun c hc x => ?_, fun c hc x => ?_, fun x => ?_⟩
  · rcases hmem c hc with hc | rfl
    · exact List.mem_append_left _ (h.parents c hc a ha)
    · exact List.mem_append_left _ (hparent a ha)
  · rcases hmem c hc with hc | rfl
    · rw [hstarts c hc, defsAfter_congr fun a ha => hstarts a (h.parents c hc a ha)]
      exact h.defs_same c hc
    · rw [hstart, defsAfter_congr fun a ha => hstarts a (hparent a ha)]
      exact hdefs
  · rw [List.pairwise_append]
    refine ⟨h.inOrder.imp_of_mem fun {a b} ha hb hab x => ?_, List.pairwise_singleton _ _,
      fun a ha b hb x => ?_⟩
    · rw [renamedAt_congr (hstarts a ha), hstarts b hb]
      exact hab x
    · rw [List.mem_singleton.1 hb, renamedAt_congr (hstarts a ha), hversions]
      exact h.bound a ha x
  · rcases hmem c hc with hc | rfl
    · rw [hstarts c hc]
      exact h.nonneg c hc x
    · rw [hversions]
      exact h.bound_nonneg x
  · rcases hmem c hc with hc | rfl
    · rw [renamedAt_congr (hstarts c hc)]
      exact Int.le_trans (h.bound c hc x) (hmono x)
    · exact Int.le_refl _
  · exact Int.le_trans (h.bound_nonneg x) (hmono x)

/-! ## The stacks -/

theorem assignedIn_eq (f : Func) (l : Label) :
    f.assignedIn l = (destsOf (f.instrsAt l)).map (·.name) := by
  rw [assignedIn, instrsAt]
  cases f.block? l with
  | none => rfl
  | some b => exact (List.map_filterMap ..).symm

theorem assignedIn_renamedOn (hdone : l ∉ done) :
    (f.renamedOn starts done versions).assignedIn l = f.assignedIn l := by
  have hdests := destsOf_mapLeadingPhis (g := Phi.fill (f.endDefs starts) done) fun _ => rfl
  rw [assignedIn_eq, assignedIn_eq]
  cases hb : f.block? l with
  | none =>
    have hnone : (f.renamedOn starts done versions).block? l = none := by
      show (f.rewrite _).block? l = none
      rw [block?_rewrite, hb]
      rfl
    rw [instrsAt, instrsAt, hb, hnone]
  | some b =>
    rw [instrsAt_of_block (block?_renamedOn_of_not_mem hb hdone), instrsAt_of_block hb, hdests]

/-- What a block pushes is what it assigns. -/
theorem pops_endDefs (f : Func) (starts : Label → RenamePoint) (l : Label) :
    ((f.assignedIn l).foldl .pop (f.endDefs starts l)).Same (starts l).defs := by
  intro x
  rw [Reaching.stack_pops, assignedIn_eq, List.count, List.countP_map]
  exact (renames _ _ _).stacked x

/-- The stacks hold what the blocks of `path` have defined, the latest first. -/
def StacksOn (f : Func) (atEntry : Reaching) (starts : Label → RenamePoint) :
    (path : List Label) → Reaching → Prop
  | [], defs => defs.Same atEntry
  | b :: path, defs => defs.Same (f.endDefs starts b) ∧
      f.StacksOn atEntry starts path ((f.assignedIn b).foldl .pop defs)

/-- Where the walk stands: on `path` are the blocks that were entered and not left. -/
structure OnPath (f : Func) (atEntry : Reaching) (starts : Label →
    RenamePoint) (done path : List Label)
    (defs : Reaching) (pushed : Table Label (List String)) : Prop where
  entered : ∀ p ∈ path, p ∈ done
  nodup : path.Nodup
  pushed : ∀ p ∈ path, pushed.getD p [] = f.assignedIn p
  stacked : f.StacksOn atEntry starts path defs

section OnPath

variable {path : List Label} {defs' : Reaching} {pushed : Table Label (List String)}

theorem StacksOn.top (h : f.StacksOn atEntry starts path defs) :
    defs.Same (f.defsAfter atEntry starts path.head?) := by
  cases path with
  | nil => exact h
  | cons b path => exact h.1

theorem StacksOn.congr (h : f.StacksOn atEntry starts path defs) (hsame : defs'.Same defs)
    (hstarts : ∀ p ∈ path, starts' p = starts p) : f.StacksOn atEntry starts' path defs' := by
  induction path generalizing defs defs' with
  | nil => exact fun x => (hsame x).trans (h x)
  | cons b path ih =>
    obtain ⟨hb, hpath⟩ := List.forall_mem_cons.1 hstarts
    refine ⟨fun x => ?_, ih h.2 (hsame.pops _) hpath⟩
    rw [endDefs_congr hb]
    exact (hsame x).trans (h.1 x)

theorem OnPath.leave (h : OnPath f atEntry starts done (l :: path) defs pushed) :
    OnPath f atEntry starts done path ((pushed.getD l []).foldl .pop defs) (pushed.erase l) := by
  obtain ⟨hl, nodup⟩ := List.nodup_cons.1 h.nodup
  refine ⟨fun p hp => h.entered p (.tail _ hp), nodup, fun p hp => ?_, ?_⟩
  · have hne : p ≠ l := fun e => hl (e ▸ hp)
    rw [Table.getD, Table.get?_erase, if_neg hne]
    exact h.pushed p (.tail _ hp)
  · rw [h.pushed l (.head _)]
    exact h.stacked.2

theorem OnPath.enter (h : OnPath f atEntry starts done path defs pushed) (hdone : l ∉ done)
    (hstart : starts' l = ⟨versions, defs⟩) (hstarts : ∀ p ∈ done, starts' p = starts p) :
    OnPath f atEntry starts' (done ++ [l]) (l :: path) (f.endDefs starts' l)
      (pushed.insert l (f.assignedIn l)) := by
  refine ⟨fun p hp => ?_, List.nodup_cons.2 ⟨fun hl => hdone (h.entered l hl), h.nodup⟩,
    fun p hp => ?_, fun x => rfl, ?_⟩
  · rcases List.mem_cons.1 hp with rfl | hp
    · exact List.mem_append_right done (.head _)
    · exact List.mem_append_left [l] (h.entered p hp)
  · rw [Table.getD_insert]
    split
    · rename_i hpl
      rw [hpl]
    · rename_i hpl
      exact h.pushed p ((List.mem_cons.1 hp).resolve_left hpl)
  · have hpops := f.pops_endDefs starts' l
    rw [hstart] at hpops
    exact h.stacked.congr hpops fun p hp => hstarts p (h.entered p hp)

/-- Renaming along what is left of a walk. -/
theorem Walkable.renameAlong_yields (hf : f.Walkable) {tour : List TreeStep}
    (nested : Graph.Nested d path tour) (nodup : (done ++ TreeStep.entered tour).Nodup)
    (hblocks : ∀ l ∈ TreeStep.entered tour, l ∈ f.blocks)
    (hpath : OnPath f atEntry starts done path defs pushed)
    (h : Walked f d atEntry starts done versions) :
    ∃ uses starts' versions', (Edit.renameAlong .sentinel tour defs pushed).Yields
        (f.renamedOn starts done versions) uses
        (f.renamedOn starts' (done ++ TreeStep.entered tour) versions') ∧
      Walked f d atEntry starts' (done ++ TreeStep.entered tour) versions' ∧
      (∀ p ∈ done, starts' p = starts p) ∧
      Edit.RefusesIf (∃ l ∈ TreeStep.entered tour, f.LacksDef starts' l)
        (Edit.renameAlong .refuse tour defs pushed) (Edit.renameAlong .sentinel tour defs pushed)
        (f.renamedOn starts done versions) := by
  induction tour generalizing done starts versions path defs pushed with
  | nil =>
    rw [show TreeStep.entered [] = [] from rfl, List.append_nil]
    refine ⟨_, starts, versions, Edit.yields_pure _ _, h, fun _ _ => rfl, ?_⟩
    exact (Edit.RefusesIf.refl _ _).congr (by simp)
  | cons step tour ih =>
    cases step with
    | leave l =>
      obtain ⟨rest, rfl, nested⟩ := nested
      exact ih nested nodup hblocks hpath.leave h
    | enter l =>
      obtain ⟨hidom, nested⟩ := nested
      have hentered : TreeStep.entered (.enter l :: tour) = l :: TreeStep.entered tour := rfl
      rw [hentered] at nodup hblocks ⊢
      have hdone : l ∉ done := fun hl => (List.nodup_append.1 nodup).2.2 l hl l (.head _) rfl
      have hparent : ∀ a, d.idom? l = some a → a ∈ done := fun a ha =>
        hpath.entered a (List.mem_of_head? (hidom.symm.trans ha))
      obtain ⟨starts', hstart, hstarts⟩ : ∃ starts' : Label → RenamePoint,
          starts' l = ⟨versions, defs⟩ ∧ ∀ p ∈ done, starts' p = starts p := by
        refine ⟨fun p => if p = l then ⟨versions, defs⟩ else starts p, if_pos rfl,
          fun p hp => if_neg ?_⟩
        rintro rfl
        exact hdone hp
      obtain ⟨missing, hblock⟩ := hf.renameBlock_yields (hblocks l (.head _)) hdone hstart hstarts
      have hrefuse : Edit.RefusesIf (f.LacksDef starts' l) _ _ (f.renamedOn starts done versions) :=
        hf.renameBlock_refusesIf (hblocks l (.head _)) hdone hstart
      have hwalked := h.snoc hparent hstart hstarts (hidom ▸ hpath.stacked.top)
      rw [List.append_cons] at nodup
      obtain ⟨uses, starts'', versions', hrest, hwalked', hlater, hrefuse'⟩ := ih nested nodup
        (fun c hc => hblocks c (.tail _ hc)) (hpath.enter hdone hstart hstarts) hwalked
      have hnames : (f.renamedOn starts done versions).assignedIn l = f.assignedIn l :=
        assignedIn_renamedOn hdone
      rw [List.append_cons]
      refine ⟨missing.map (fun x => (l, x)) ++ uses, starts'', versions', ?_, hwalked',
        fun p hp => ?_, ?_⟩
      · rw [← hnames] at hrest
        exact (Edit.yields_get _).bind (hblock.bind (hrest.bind (Edit.yields_pure _ _)))
      · rw [hlater p (List.mem_append_left [l] hp), hstarts p hp]
      · rw [← lacksDef_congr (hlater l (List.mem_append_right done (.head _)))] at hrefuse
        rw [← hnames] at hrest hrefuse'
        refine .bind_right (Edit.yields_get _) ?_
        exact (hrefuse.bind hblock (hrefuse'.bind_left hrest)).congr (by simp)

end OnPath

end Func

end ThreeAddress
