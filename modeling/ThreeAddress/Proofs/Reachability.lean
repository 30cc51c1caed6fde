import ThreeAddress.Func.Shape
import ThreeAddress.Proofs.AtomicEdits
import ThreeAddress.Proofs.Frames

/-!
# Keeping the reachable part

Deleting blocks one after the other leaves the function `Func.keepBlocks`, in which the remaining
blocks forget the edges that came from the deleted ones. If control never leaves what is kept, the
function stays well-formed and runs as before, step for step (`keepBlocks_lockstep`).
-/

namespace ThreeAddress

variable {instrs : List Instr} {l p : Label} {b : Block} {φ : Phi}

/-! ## Graphs that agree where control goes -/

namespace Graph

variable {g g' : Graph}

theorem trail_iff_of_next (hentry : g'.entry = g.entry)
    (h : ∀ l, g.Reachable l → g'.next l = g.next l) {xs : List Label} :
    g'.Trail xs l ↔ g.Trail xs l := by
  constructor
  · intro ht
    induction ht with
    | entry =>
      rw [hentry]
      exact .entry
    | @step xs a b _ hb ih =>
      rw [h a ⟨xs, ih⟩] at hb
      exact .step ih hb
  · intro ht
    induction ht with
    | entry =>
      rw [← hentry]
      exact .entry
    | @step xs a b ht hb ih =>
      rw [← h a ⟨xs, ht⟩] at hb
      exact .step ih hb

end Graph

/-! ## Changing leading phis -/

theorem mapLeadingPhis_of_phiFree (g : Phi → Phi) {rest : List Instr}
    (h : ∀ i ∈ rest, i.isPhi = false) : mapLeadingPhis g rest = rest := by
  cases rest with
  | nil => rfl
  | cons i _ =>
    have hi := h i (.head _)
    cases i with
    | phi φ => cases hi
    | _ => rfl

theorem mapLeadingPhis_append (g : Phi → Phi) {φs : List Phi} {rest : List Instr}
    (h : ∀ i ∈ rest, i.isPhi = false) :
    mapLeadingPhis g (φs.map .phi ++ rest) = (φs.map g).map .phi ++ rest := by
  induction φs with
  | nil => exact mapLeadingPhis_of_phiFree g h
  | cons φ φs ih => simp only [List.map_cons, List.cons_append, mapLeadingPhis, ih]

theorem mapLeadingPhis_mapLeadingPhis (g h : Phi → Phi) (instrs : List Instr) :
    mapLeadingPhis g (mapLeadingPhis h instrs) = mapLeadingPhis (fun φ => g (h φ)) instrs := by
  induction instrs with
  | nil => rfl
  | cons i rest ih =>
    cases i with
    | phi φ => simp only [mapLeadingPhis, ih]
    | _ => rfl

/-- Changing the phis of a block so that they list given predecessors leaves it tidy. -/
theorem Block.Tidy.mapPhis (h : b.Tidy) (g : Phi → Phi) (preds : List Label)
    (hlabels : ∀ φ ∈ b.phis, (g φ).labels = preds) : let b' := { b with preds }.mapPhis g
    b'.phis = b.phis.map g ∧ b'.body = b.body ∧ b'.Tidy := by
  have hrest : ∀ i ∈ b.body, i.isPhi = false := fun i hi => b.isPhi_of_mem_body hi
  refine Block.tidy_of_eq ?_ hrest ?_
  · show mapLeadingPhis g b.instrs = _
    conv => lhs; rw [h.instrs_eq]
    exact mapLeadingPhis_append g hrest
  · intro φ hφ
    obtain ⟨ψ, hψ, rfl⟩ := List.mem_map.1 hφ
    exact hlabels ψ hψ

theorem mapLeadingPhis_congr {g h : Phi → Phi} (heq : ∀ φ ∈ leadingPhis instrs, g φ = h φ) :
    mapLeadingPhis g instrs = mapLeadingPhis h instrs := by
  induction instrs with
  | nil => rfl
  | cons i rest ih =>
    cases i with
    | phi φ =>
      simp only [leadingPhis, List.mem_cons, forall_eq_or_imp] at heq
      simp only [mapLeadingPhis, heq.1, ih heq.2]
    | _ => rfl

theorem phi_mem_of_leading (h : φ ∈ leadingPhis instrs) : .phi φ ∈ instrs := by
  induction instrs with
  | nil => cases h
  | cons j instrs ih =>
    cases j with
    | phi ψ =>
      rcases List.mem_cons.1 h with rfl | h
      · exact .head _
      · exact .tail _ (ih h)
    | _ => cases h

theorem mem_mapLeadingPhis {g : Phi → Phi} {i : Instr} (h : i ∈ mapLeadingPhis g instrs) :
    i ∈ instrs ∨ ∃ φ ∈ leadingPhis instrs, i = .phi (g φ) := by
  induction instrs with
  | nil => exact .inl h
  | cons j instrs ih =>
    cases j with
    | phi φ =>
      rcases List.mem_cons.1 h with rfl | h
      · exact .inr ⟨φ, .head _, rfl⟩
      · rcases ih h with h | ⟨ψ, hψ, rfl⟩
        · exact .inl (.tail _ h)
        · exact .inr ⟨ψ, .tail _ hψ, rfl⟩
    | _ => exact .inl h

theorem mapLeadingPhis_id (instrs : List Instr) : mapLeadingPhis id instrs = instrs := by
  induction instrs with
  | nil => rfl
  | cons i rest ih =>
    cases i with
    | phi φ => simp only [mapLeadingPhis, ih, id]
    | _ => rfl

/-! ## Keeping blocks -/

/-- The phi with the operands for the predecessors that are kept. -/
def Phi.keep (keep : Label → Bool) (φ : Phi) : Phi :=
    { φ with incoming := φ.incoming.filter fun a => keep a.block }

/-- The block with the edges from the predecessors that are kept. -/
def Block.keepPreds (keep : Label → Bool) (b : Block) : Block :=
  { b with preds := b.preds.filter keep }.mapPhis (Phi.keep keep)

/-- The function with the blocks that are kept. -/
def Func.keepBlocks (f : Func) (keep : Label → Bool) : Func :=
  { f with blocks := (f.blocks.filter fun l _ => keep l).mapValues fun _ b => b.keepPreds keep }

theorem Phi.labels_keep (keep : Label → Bool) (φ : Phi) :
    (φ.keep keep).labels = φ.labels.filter keep := by
  simp [Phi.keep, Phi.labels, List.filter_map, Function.comp_def]

theorem Phi.valueFrom?_keep {keep : Label → Bool} (h : keep p = true) (φ : Phi) :
    (φ.keep keep).valueFrom? p = φ.valueFrom? p := by
  have hsame : (fun a : PhiArg => decide (keep a.block = true ∧ decide (a.block = p) = true))
      = fun a => decide (a.block = p) := by
    funext a
    by_cases ha : a.block = p
    · simp [ha, h]
    · simp [ha]
  simp only [Phi.valueFrom?, Phi.keep, List.find?_filter, hsame]

theorem Phi.keep_eq_self {keep : Label → Bool} (h : ∀ p ∈ φ.labels, keep p = true) :
    φ.keep keep = φ := by
  have : φ.incoming.filter (fun a => keep a.block) = φ.incoming := by
    rw [List.filter_eq_self]
    exact fun a ha => h a.block (List.mem_map_of_mem ha)
  cases φ
  simp only [Phi.keep, this]

theorem Phi.keep_keep (k k' : Label → Bool) (φ : Phi) :
    (φ.keep k).keep k' = φ.keep fun l => k l && k' l := by
  simp [Phi.keep, List.filter_filter, Bool.and_comm]

theorem Block.Tidy.keepPreds (h : b.Tidy) (keep : Label → Bool) :
    (b.keepPreds keep).phis = b.phis.map (Phi.keep keep) ∧ (b.keepPreds keep).body = b.body ∧
      (b.keepPreds keep).Tidy :=
  h.mapPhis (Phi.keep keep) (b.preds.filter keep) fun φ hφ => by rw [Phi.labels_keep,
    h.labels_eq φ hφ]

theorem Block.keepPreds_eq_self (h : b.Tidy) {keep : Label → Bool}
    (hkeep : ∀ p ∈ b.preds, keep p = true) : b.keepPreds keep = b := by
  have hpreds : b.preds.filter keep = b.preds := List.filter_eq_self.2 hkeep
  have hinstrs : mapLeadingPhis (Phi.keep keep) b.instrs = b.instrs := by
    rw [mapLeadingPhis_congr (h := id), mapLeadingPhis_id]
    intro φ hφ
    exact Phi.keep_eq_self fun p hp => hkeep p (h.labels_eq φ hφ ▸ hp)
  cases b
  simp only [Block.keepPreds, Block.mapPhis] at *
  rw [hpreds, hinstrs]

theorem Block.keepPreds_keepPreds (k k' : Label → Bool) (b : Block) :
    (b.keepPreds k).keepPreds k' = b.keepPreds fun l => k l && k' l := by
  simp [Block.keepPreds, Block.mapPhis, mapLeadingPhis_mapLeadingPhis, Phi.keep_keep,
    List.filter_filter, Bool.and_comm]

theorem Block.dropPred_eq (d : Label) (b : Block) :
    b.dropPred d = b.keepPreds fun l => decide (l ≠ d) := rfl

@[simp] theorem Block.successors_keepPreds (keep : Label → Bool) (b : Block) :
    (b.keepPreds keep).successors = b.successors := rfl

namespace Func

variable {f : Func} {keep : Label → Bool} {g : Block → Block} {d : Label}

theorem block?_keepBlocks (f : Func) (keep : Label → Bool) (l : Label) :
    (f.keepBlocks keep).block? l = if keep l then (f.block? l).map
      (·.keepPreds keep) else none := by
  show ((f.blocks.filter fun l _ => keep l).mapValues fun _ b => b.keepPreds keep).get? l = _
  rw [Table.get?_mapValues, Table.get?_filter]
  show Option.map _ (Option.filter _ (f.block? l)) = _
  cases hk : keep l <;> cases f.block? l <;> simp [Option.filter]

theorem keys_keepBlocks (f : Func) (keep : Label → Bool) :
    (f.keepBlocks keep).blocks.keys = f.blocks.keys.filter keep := by
  show ((f.blocks.filter fun l _ => keep l).mapValues fun _ b => b.keepPreds keep).keys = _
  rw [Table.keys_mapValues, Table.keys_filter]

/-- Functions are equal if their blocks are, one by one and in order. -/
theorem eq_of_blocks {f' : Func} (h : f' = { f with blocks := f'.blocks })
    (hkeys : f'.blocks.keys = f.blocks.keys) (hblocks : ∀ l, f'.block? l = f.block? l) :
    f' = f := by
  have : f'.blocks = f.blocks := Table.ext_of_keys hkeys fun l _ => hblocks l
  rw [h, this]

theorem mapBlocks_congr {g' : Block → Block} (h : ∀ l b, f.block? l = some b → g b = g' b) :
    f.mapBlocks g = f.mapBlocks g' := by
  refine eq_of_blocks rfl ((Table.keys_mapValues _ _).trans (Table.keys_mapValues _ _).symm)
    fun l => ?_
  show (f.blocks.mapValues fun _ b => g b).get? l = (f.blocks.mapValues fun _ b => g' b).get? l
  rw [Table.get?_mapValues, Table.get?_mapValues]
  cases hb : f.blocks.get? l with
  | none => rfl
  | some b => exact congrArg some (h l b hb)

theorem mapBlocks_of_eq (h : ∀ l b, f.block? l = some b → g b = b) : f.mapBlocks g = f := by
  refine (@mapBlocks_congr f g id h).trans (eq_of_blocks rfl (Table.keys_mapValues _ _) fun l => ?_)
  exact (Table.get?_mapValues _ _ _).trans (Option.map_id_apply ..)

theorem keepBlocks_keepBlocks (f : Func) (k k' : Label → Bool) :
    (f.keepBlocks k).keepBlocks k' = f.keepBlocks fun l => k l && k' l := by
  refine eq_of_blocks rfl ?_ fun l => ?_
  · rw [keys_keepBlocks, keys_keepBlocks, keys_keepBlocks, List.filter_filter]
    simp [Bool.and_comm]
  · rw [block?_keepBlocks, block?_keepBlocks, block?_keepBlocks]
    cases k l <;> cases k' l <;> simp [Function.comp_def, Block.keepPreds_keepPreds]

theorem keepBlocks_eq_self (htidy : ∀ {l b}, f.block? l = some b → b.Tidy)
    (hkeep : ∀ l, keep l = true) : f.keepBlocks keep = f := by
  refine eq_of_blocks rfl ?_ fun l => ?_
  · rw [keys_keepBlocks, List.filter_eq_self]
    exact fun l _ => hkeep l
  · rw [block?_keepBlocks, if_pos (hkeep l)]
    cases hb : f.block? l with
    | none => rfl
    | some b =>
      rw [Option.map_some, Block.keepPreds_eq_self (htidy hb) fun p _ => hkeep p]

theorem next_keepBlocks (f : Func) (keep : Label → Bool) (l : Label) :
    (f.keepBlocks keep).graph.next l = if keep l then f.graph.next l else [] := by
  have hkb := block?_keepBlocks f keep l
  cases hb : f.block? l with
  | none =>
    rw [hb, Option.map_none, ite_self] at hkb
    rw [next_graph_of_none hkb, next_graph_of_none hb, ite_self]
  | some b =>
    rw [hb, Option.map_some] at hkb
    split
    · rename_i hk
      rw [if_pos hk] at hkb
      rw [next_graph hkb, next_graph hb, Block.successors_keepPreds]
    · rename_i hk
      rw [if_neg hk] at hkb
      exact next_graph_of_none hkb

/-! ## Deleting one block after the other -/

/-- Predecessor lists and phis name only blocks that have the edge. -/
structure Linked (f : Func) : Prop where
  tidy : ∀ {l b}, f.block? l = some b → b.Tidy
  edge : ∀ {l b}, f.block? l = some b → ∀ p ∈ b.preds, l ∈ f.graph.next p

theorem WellFormed.linked (wf : f.WellFormed) : f.Linked :=
  ⟨wf.tidy, fun hb _ hp => (wf.mem_preds hb).1 hp⟩

theorem Linked.keepBlocks (h : f.Linked) (keep : Label → Bool) : (f.keepBlocks keep).Linked := by
  have hkept : ∀ {l b'}, (f.keepBlocks keep).block? l = some b' →
      ∃ b, f.block? l = some b ∧ b' = b.keepPreds keep := by
    intro l b' hb'
    rw [block?_keepBlocks] at hb'
    split at hb'
    · obtain ⟨b, hb, rfl⟩ := Option.map_eq_some_iff.1 hb'
      exact ⟨b, hb, rfl⟩
    · cases hb'
  refine ⟨fun hb' => ?_, fun hb' p hp => ?_⟩
  · obtain ⟨b, hb, rfl⟩ := hkept hb'
    exact ((h.tidy hb).keepPreds keep).2.2
  · obtain ⟨b, hb, rfl⟩ := hkept hb'
    obtain ⟨hp, hk⟩ := List.mem_filter.1 (show p ∈ b.preds.filter keep from hp)
    rw [next_keepBlocks, if_pos hk]
    exact h.edge hb p hp

theorem block?_modifyBlock (f : Func) (l x : Label) (g : Block → Block) :
    (f.modifyBlock l g).block? x = if x = l then (f.block? x).map g else f.block? x :=
  Table.get?_modify f.blocks l x g

theorem keys_modifyBlock (f : Func) (l : Label) (g : Block → Block) :
    (f.modifyBlock l g).blocks.keys = f.blocks.keys := Table.keys_modify _ _ _

theorem rewrite_congr {g g' : Label → Block → Block}
    (h : ∀ l b, f.block? l = some b → g l b = g' l b) : f.rewrite g = f.rewrite g' := by
  refine eq_of_blocks rfl ?_ fun l => ?_
  · exact (Table.keys_mapValues _ _).trans (Table.keys_mapValues _ _).symm
  · rw [block?_rewrite, block?_rewrite]
    exact Option.map_congr fun b hb => h l b hb

/-- Changing one of the rewritten blocks is a rewriting. -/
theorem modifyBlock_rewrite (f : Func) (g : Label → Block → Block) (l : Label)
    (g' : Block → Block) :
    (f.rewrite g).modifyBlock l g' = f.rewrite fun x b => if x = l then g' (g x b) else g x b := by
  refine eq_of_blocks rfl ?_ fun x => ?_
  · rw [keys_modifyBlock]
    exact (Table.keys_mapValues _ _).trans (Table.keys_mapValues _ _).symm
  · rw [block?_modifyBlock, block?_rewrite, block?_rewrite]
    split
    · rw [Option.map_map]
      rfl
    · rfl

theorem block?_foldl_modifyBlock {ss : List Label} (nodup : ss.Nodup) (f : Func) (g : Block → Block)
    (x : Label) :
    (ss.foldl (fun f s => f.modifyBlock s g) f).block? x
      = if x ∈ ss then (f.block? x).map g else f.block? x := by
  induction ss generalizing f with
  | nil => rfl
  | cons s ss ih =>
    obtain ⟨hs, nodup⟩ := List.nodup_cons.1 nodup
    rw [List.foldl_cons, ih nodup, block?_modifyBlock]
    by_cases hx : x = s
    · subst hx
      simp [hs]
    · simp [hx]

theorem foldl_modifyBlock_eq (ss : List Label) (f : Func) (g : Block → Block) :
    let f' := ss.foldl (fun f s => f.modifyBlock s g) f
    f' = { f with blocks := f'.blocks } ∧ f'.blocks.keys = f.blocks.keys := by
  induction ss generalizing f with
  | nil => exact ⟨rfl, rfl⟩
  | cons s ss ih =>
    obtain ⟨h, hkeys⟩ := ih (f.modifyBlock s g)
    refine ⟨h, hkeys.trans ?_⟩
    exact Table.keys_modify _ _ _

theorem nodup_targets (t : Terminator) : t.targets.Nodup := by
  cases t with
  | jump t => simp [Terminator.targets]
  | branch c t e => by_cases h : t = e <;> simp [Terminator.targets, h]
  | ret v => simp [Terminator.targets]

theorem nodup_successors (b : Block) : b.successors.Nodup := by
  unfold Block.successors
  cases b.term with
  | none => exact List.nodup_nil
  | some t => exact nodup_targets t

/-- Only blocks that are there count among those that are kept. -/
theorem Linked.keepBlocks_congr (h : f.Linked) {k k' : Label → Bool}
    (hk : ∀ l ∈ f.blocks, k l = k' l) : f.keepBlocks k = f.keepBlocks k' := by
  refine eq_of_blocks rfl ?_ fun l => ?_
  · rw [keys_keepBlocks, keys_keepBlocks]
    exact List.filter_congr hk
  · rw [block?_keepBlocks, block?_keepBlocks]
    cases hb : f.block? l with
    | none => rw [Option.map_none, ite_self, Option.map_none, ite_self]
    | some b =>
      have hpreds : ∀ p ∈ b.preds, k p = k' p := by
        intro p hp
        obtain ⟨c, hc, _⟩ := block_of_mem_next (h.edge hb p hp)
        exact hk p (mem_blocks hc)
      have hkeep : b.keepPreds k = b.keepPreds k' := by
        unfold Block.keepPreds Block.mapPhis
        rw [List.filter_congr hpreds]
        have hphis : ∀ φ ∈ leadingPhis b.instrs, φ.keep k = φ.keep k' := by
          intro φ hφ
          unfold Phi.keep
          rw [List.filter_congr]
          intro a ha
          exact hpreds a.block ((h.tidy hb).labels_eq φ hφ ▸ List.mem_map_of_mem ha)
        simp only [mapLeadingPhis_congr hphis]
      rw [hk l (mem_blocks hb), Option.map_some, Option.map_some, hkeep]

/-- Deleting a block is keeping the others. -/
theorem Linked.deleteBlock (h : f.Linked) (hd : d ∈ f.blocks) :
    f.deleteBlock d = .ok (f.keepBlocks fun l => decide (l ≠ d)) := by
  obtain ⟨b, hb⟩ := exists_block.1 hd
  have hnodup : (b.successors.filter (· ≠ d)).Nodup :=
    (nodup_successors b).sublist List.filter_sublist
  obtain ⟨heq, hkeys⟩ := foldl_modifyBlock_eq (b.successors.filter (· ≠ d)) f (·.dropPred d)
  have hfold := block?_foldl_modifyBlock hnodup f (·.dropPred d)
  unfold Func.deleteBlock getBlock
  rw [hb]
  show Except.ok _ = Except.ok _
  congr 1
  generalize (b.successors.filter (· ≠ d)).foldl (fun f s => f.modifyBlock s (·.dropPred d)) f
    = f' at *
  refine eq_of_blocks ?_ ?_ fun l => ?_
  · rw [heq]
    rfl
  · rw [keys_keepBlocks]
    show (Table.erase _ d).keys = _
    rw [Table.keys_erase, hkeys]
  · show (Table.erase _ d).get? l = _
    rw [Table.get?_erase, block?_keepBlocks]
    by_cases hl : l = d
    · simp [hl]
    · rw [if_neg hl, if_pos (by simpa using hl)]
      show Func.block? _ l = _
      rw [hfold]
      split
      · rfl
      · rename_i hnot
        -- No edge from the deleted block, so there is nothing to forget.
        cases hl' : f.block? l with
        | none => rfl
        | some c =>
          rw [Option.map_some, Block.keepPreds_eq_self (h.tidy hl')]
          intro p hp
          rw [decide_eq_true_eq]
          rintro rfl
          have := h.edge hl' p hp
          rw [next_graph hb] at this
          exact hnot (List.mem_filter.2 ⟨this, by simpa using hl⟩)

theorem Linked.deleteBlock_yields (h : f.Linked) (hd : d ∈ f.blocks) :
    (Edit.deleteBlock d).Yields f () (f.keepBlocks fun l => decide (l ≠ d)) := by
  rw [Edit.deleteBlock_eq_apply]
  exact Edit.yields_apply (h.deleteBlock hd)

theorem Linked.deleteBlocks (h : f.Linked) {dead : List Label} (nodup : dead.Nodup)
    (hdead : ∀ d ∈ dead, d ∈ f.blocks) :
    (dead.forM Edit.deleteBlock).Yields f ⟨⟩ (f.keepBlocks fun l => decide (l ∉ dead)) := by
  induction dead generalizing f with
  | nil =>
    rw [keepBlocks_eq_self h.tidy (by simp)]
    exact Edit.yields_pure _ f
  | cons d dead ih =>
    obtain ⟨hd, nodup⟩ := List.nodup_cons.1 nodup
    have hkept := h.keepBlocks fun l => decide (l ≠ d)
    have hrest := ih hkept nodup fun c hc => by
      have hcd : c ≠ d := fun e => hd (e ▸ hc)
      rw [Table.mem_iff, keys_keepBlocks, List.mem_filter]
      exact ⟨hdead c (.tail _ hc), by simpa using hcd⟩
    rw [keepBlocks_keepBlocks] at hrest
    have hsame : (fun l => decide (l ∉ d :: dead)) = fun l => decide (l ≠ d)
        && decide (l ∉ dead) := by
      funext l
      simp
    rw [hsame]
    exact (h.deleteBlock_yields (hdead d (.head _))).bind hrest

/-! ## What is kept is well-formed and runs as before -/

theorem block?_keepBlocks_of_keep (hk : keep l = true) (hb : f.block? l = some b) :
    (f.keepBlocks keep).block? l = some (b.keepPreds keep) := by
  rw [block?_keepBlocks, if_pos hk, hb]
  rfl

theorem of_block?_keepBlocks {b' : Block} (h : (f.keepBlocks keep).block? l = some b') :
    keep l = true ∧ ∃ b, f.block? l = some b ∧ b' = b.keepPreds keep := by
  rw [block?_keepBlocks] at h
  split at h
  · rename_i hk
    obtain ⟨b, hb, rfl⟩ := Option.map_eq_some_iff.1 h
    exact ⟨hk, b, hb, rfl⟩
  · cases h

theorem mem_keepBlocks : l ∈ (f.keepBlocks keep).blocks ↔ l ∈ f.blocks ∧ keep l = true := by
  rw [Table.mem_iff, keys_keepBlocks, List.mem_filter]
  rfl

theorem WellFormed.keepBlocks (wf : f.WellFormed) (hentry : keep f.entry = true)
    (hnext : ∀ l s, keep l = true → s ∈ f.graph.next l → keep s = true) :
    (f.keepBlocks keep).WellFormed := by
  apply wellFormed_of_mem_preds
  · exact mem_keepBlocks.2 ⟨wf.entry_mem, hentry⟩
  · intro l b' hb'
    obtain ⟨_, b, hb, rfl⟩ := of_block?_keepBlocks hb'
    show b.name = l
    exact wf.name_eq hb
  · intro l b' hb'
    obtain ⟨_, b, hb, rfl⟩ := of_block?_keepBlocks hb'
    show b.term ≠ none
    exact wf.closed hb
  · intro l b' hb' s hs
    obtain ⟨hk, b, hb, rfl⟩ := of_block?_keepBlocks hb'
    exact mem_keepBlocks.2 ⟨wf.targets hb s hs, hnext l s hk (next_graph hb ▸ hs)⟩
  · intro l b' hb'
    obtain ⟨_, b, hb, rfl⟩ := of_block?_keepBlocks hb'
    exact (wf.nodup_preds hb).sublist List.filter_sublist
  · intro l b' hb' p
    obtain ⟨_, b, hb, rfl⟩ := of_block?_keepBlocks hb'
    show p ∈ b.preds.filter keep ↔ _
    rw [List.mem_filter, wf.mem_preds hb, next_keepBlocks]
    by_cases hk : keep p = true
    · simp [hk]
    · simp [hk]
  · intro l b' hb'
    obtain ⟨_, b, hb, rfl⟩ := of_block?_keepBlocks hb'
    exact ((wf.tidy hb).keepPreds keep).2.2

/-- Terminators may lose edges, if the blocks at their ends forget them. -/
theorem WellFormed.dropEdges (wf : f.WellFormed) {term : Label → Block → Option Terminator}
    {keep : Label → Label → Bool} (hclosed : ∀ {l b}, f.block? l = some b → term l b ≠ none)
    (hkept : ∀ {l b}, f.block? l = some b → ∀ x,
      x ∈ Block.successors { b with term := term l b } ↔ x ∈ b.successors ∧ keep l x = true) :
    (f.rewrite fun l b => { b with term := term l b }.keepPreds fun p => keep p l).WellFormed := by
  apply wellFormed_of_mem_preds
  · exact mem_rewrite.2 wf.entry_mem
  · intro l b' hb'
    obtain ⟨b, hb, rfl⟩ := of_block?_rewrite hb'
    show b.name = l
    exact wf.name_eq hb
  · intro l b' hb'
    obtain ⟨b, hb, rfl⟩ := of_block?_rewrite hb'
    exact (hclosed hb : term l b ≠ none)
  · intro l b' hb' x hx
    obtain ⟨b, hb, rfl⟩ := of_block?_rewrite hb'
    exact mem_rewrite.2 (wf.targets hb x ((hkept hb x).1 hx).1)
  · intro l b' hb'
    obtain ⟨b, hb, rfl⟩ := of_block?_rewrite hb'
    exact (wf.nodup_preds hb).sublist List.filter_sublist
  · intro l b' hb' p
    obtain ⟨b, hb, rfl⟩ := of_block?_rewrite hb'
    show p ∈ b.preds.filter _ ↔ _
    rw [List.mem_filter, wf.mem_preds hb]
    cases hc : f.block? p with
    | none =>
      rw [next_graph_of_none hc, next_graph_of_none (by rw [block?_rewrite, hc, Option.map_none])]
      simp
    | some c =>
      rw [next_graph hc, next_graph (block?_rewrite_of_some _ hc)]
      exact (hkept hc l).symm
  · intro l b' hb'
    obtain ⟨b, hb, rfl⟩ := of_block?_rewrite hb'
    have htidy : Block.Tidy { b with term := term l b } :=
      ⟨(wf.tidy hb).instrs_eq, (wf.tidy hb).labels_eq⟩
    exact (htidy.keepPreds _).2.2

theorem phiValues_keep (hk : keep p = true) (env : Env) (φs : List Phi) :
    phiValues env p (φs.map (Phi.keep keep)) = phiValues env p φs := by
  induction φs with
  | nil => rfl
  | cons φ φs ih =>
    rw [List.map_cons, phiValues, phiValues, Phi.valueFrom?_keep hk, ih]
    rfl

/-- If control stays within what is kept, the function runs as before. -/
theorem WellFormed.keepBlocks_lockstep (wf : f.WellFormed)
    (hkeep : ∀ l, f.graph.Reachable l → keep l = true) :
    Lockstep f (f.keepBlocks keep) 0 (SamePlace f (f.keepBlocks keep)) where
  start args := by
    obtain ⟨b, hb⟩ := exists_block.1 wf.entry_mem
    have hb' : (f.keepBlocks keep).block? (f.keepBlocks keep).entry = some (b.keepPreds keep) :=
      block?_keepBlocks_of_keep (hkeep _ Graph.reachable_entry) hb
    refine ⟨_, _, _, start_eq hb args, start_eq hb' args, fun _ => .refl, ?_⟩
    rw [((wf.tidy hb).keepPreds keep).2.1]
    exact .mk Graph.reachable_entry hb (List.Subset.refl _) fun _ _ => rfl
  step fr fr' w hr := by
    refine samePlace_step wf (show (f.keepBlocks keep).name = f.name from rfl)
      (fun {l b} hl hb => ?_) w hr
    obtain ⟨hphis, hbody, _⟩ := (wf.tidy hb).keepPreds keep
    refine ⟨_, block?_keepBlocks_of_keep (hkeep l hl) hb, hbody, rfl, fun p hp _ env => ?_⟩
    rw [hphis, phiValues_keep (hkeep p hp)]

/-! ## The reachable part -/

theorem WellFormed.reversePostorder (wf : f.WellFormed) :
    ∃ order, f.reversePostorder = .ok order ∧ order.Nodup ∧ ∀ l, l ∈ order ↔
      f.graph.Reachable l := by
  obtain ⟨order, horder, h⟩ := Graph.reversePostorder_spec wf.graph_closed
  refine ⟨order, ?_, h⟩
  unfold Func.reversePostorder
  rw [horder]
  rfl

/-- Deleting what cannot be reached keeps the rest. -/
theorem WellFormed.removeUnreachable (wf : f.WellFormed) :
    ∃ (dead live : List Label), (∀ l, l ∈ live ↔ f.graph.Reachable l) ∧
      Edit.removeUnreachable.Yields f dead (f.keepBlocks fun l => decide (l ∈ live)) := by
  obtain ⟨live, hlive, _, mem_live⟩ := wf.reversePostorder
  refine ⟨f.blocks.keys.filter (· ∉ live), live, mem_live, ?_⟩
  have hdead : ∀ d ∈ f.blocks.keys.filter (· ∉ live), d ∈ f.blocks :=
    fun d hd => (List.mem_filter.1 hd).1
  have hnodup : (f.blocks.keys.filter (· ∉ live)).Nodup :=
    f.blocks.nodup_keys.sublist List.filter_sublist
  have hdel := wf.linked.deleteBlocks hnodup hdead
  have hsame : f.keepBlocks (fun l => decide (l ∉ f.blocks.keys.filter (· ∉ live)))
      = f.keepBlocks fun l => decide (l ∈ live) := by
    refine wf.linked.keepBlocks_congr fun l hl => ?_
    have hl : l ∈ f.blocks.keys := hl
    simp [hl]
  rw [hsame] at hdel
  unfold Edit.removeUnreachable
  refine (Edit.yields_ask hlive).bind ((Edit.yields_get f).bind (hdel.bind ?_))
  exact .emit_if (Edit.yields_pure _ _)

end Func

end ThreeAddress
