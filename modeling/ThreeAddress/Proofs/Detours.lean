import ThreeAddress.Proofs.EntryBlock
import ThreeAddress.Proofs.SsaForm

/-!
# Detours

A detour is a new block on some of the edges into a block: edges are split that way, and loops get
their preheaders. The new block may merge what came on these edges, so that the phis of the target
take one operand from it.

1. `Graph.Detours` says what becomes of the graph: paths are as before once the new block is left
   out of them.
2. `Func.Detour` says what becomes of the blocks. The function stays well-formed and in SSA form
   (`Fits.inSsa`).
3. Activations take one step more on each of the edges (`Fits.simulation`). All that counts for them
   is that nothing reads what the new block defines.
-/

namespace ThreeAddress

variable {t : Terminator} {new old x : Label} {φ' : Phi}

/-! ## Graphs -/

namespace Graph

/-- `g'` is `g` with a new block `m` on the edges from `sources` to `h`. -/
structure Detours (g g' : Graph) (sources : List Label) (m h : Label) : Prop where
  entry_eq : g'.entry = g.entry
  entry_ne : g.entry ≠ m
  target_ne : h ≠ m
  source_ne : ∀ p ∈ sources, p ≠ m
  fresh : ∀ l, m ∉ g.next l
  next_new : g'.next m = [h]
  mem_next : ∀ l x, l ≠ m → (x ∈ g'.next l ↔ (x ∈ g.next l ∧ ¬ (l ∈ sources ∧ x = h)) ∨
    (x = m ∧ l ∈ sources))
  source : ∀ p ∈ sources, h ∈ g.next p

namespace Detours

variable {g g' : Graph} {sources xs : List Label} {m h a b : Label}

section

variable (d : Detours g g' sources m h)
include d

/-- An edge that does not touch the new block was there. -/
theorem of_next (ha : a ≠ m) (hb : b ≠ m) (he : b ∈ g'.next a) : b ∈ g.next a := by
  rcases (d.mem_next a b ha).1 he with he | he
  · exact he.1
  · exact absurd he.1 hb

/-- A trail is one of the old graph without the new block, which comes after one of the sources. -/
theorem trail (ht : g'.Trail xs b) :
    (b ≠ m → g.Trail (xs.filter (· ≠ m)) b) ∧
      (b = m → ∃ p ∈ sources, g.Trail (xs.filter (· ≠ m)) p) := by
  induction ht with
  | entry =>
    rw [d.entry_eq]
    refine ⟨fun hne => ?_, fun he => absurd he d.entry_ne⟩
    rw [List.filter_cons_of_pos (by simpa using hne)]
    exact .entry
  | @step xs a b _ hb ih =>
    by_cases ha : a = m
    · -- The step from the new block to the target: the old edge from the source.
      subst ha
      rw [d.next_new] at hb
      cases List.mem_singleton.1 hb
      obtain ⟨p, hp, htrail⟩ := ih.2 rfl
      refine ⟨fun hne => ?_, fun he => absurd he d.target_ne⟩
      rw [List.filter_cons_of_pos (by simpa using hne)]
      exact .step htrail (d.source p hp)
    · refine ⟨fun hne => ?_, fun he => ?_⟩
      · rw [List.filter_cons_of_pos (by simpa using hne)]
        exact .step (ih.1 ha) (d.of_next ha hne hb)
      · rcases (d.mem_next a b ha).1 hb with hb | hb
        · exact absurd (he ▸ hb.1) (d.fresh a)
        · rw [List.filter_cons_of_neg (by simpa using he)]
          exact ⟨a, hb.2, ih.1 ha⟩

theorem reachable (hne : b ≠ m) (hb : g'.Reachable b) : g.Reachable b := by
  obtain ⟨xs, hxs⟩ := hb
  exact ⟨_, (d.trail hxs).1 hne⟩

theorem strictlyDominates (hne : b ≠ m) (hab : g.StrictlyDominates a b) :
    g'.StrictlyDominates a b :=
  ⟨hab.1, fun _ hxs => (List.mem_filter.1 (hab.2 _ ((d.trail hxs).1 hne))).1⟩

/-- What dominates all sources that can be reached strictly dominates the new block. -/
theorem strictlyDominates_new (hne : a ≠ m) (ha : ∀ p ∈ sources, g.Reachable p → g.Dominates a p) :
    g'.StrictlyDominates a m := by
  refine ⟨hne, fun xs hxs => ?_⟩
  obtain ⟨p, hp, htrail⟩ := (d.trail hxs).2 rfl
  exact (List.mem_filter.1 (ha p hp ⟨_, htrail⟩ _ htrail)).1

theorem leads (ha : a ≠ m) (hab : g'.Leads a b) :
    (b ≠ m → g.Leads a b) ∧ (b = m → ∃ p ∈ sources, g.Leads a p) := by
  induction hab with
  | refl => exact ⟨fun _ => .refl, fun he => absurd he ha⟩
  | @tail c b _ hb ih =>
    by_cases hc : c = m
    · subst hc
      rw [d.next_new] at hb
      cases List.mem_singleton.1 hb
      obtain ⟨p, hp, hleads⟩ := ih.2 rfl
      exact ⟨fun _ => hleads.tail (d.source p hp), fun he => absurd he d.target_ne⟩
    · refine ⟨fun hne => (ih.1 hc).tail (d.of_next hc hne hb), fun he => ?_⟩
      rcases (d.mem_next c b hc).1 hb with hb | hb
      · exact absurd (he ▸ hb.1) (d.fresh c)
      · exact ⟨c, hb.2, ih.1 hc⟩

theorem leads_of_new (hne : b ≠ m) (hab : g'.Leads m b) : g.Leads h b := by
  rcases Relation.ReflTransGen.cases_head hab with he | ⟨c, hc, hcb⟩
  · exact absurd he.symm hne
  · rw [d.next_new] at hc
    cases List.mem_singleton.1 hc
    exact (d.leads d.target_ne hcb).1 hne

/-- A trail of the old graph is one of the new graph once the new block is put in before the
target. -/
theorem lift (ht : g.Trail xs b) : ∃ ys, g'.Trail ys b ∧ ∀ x ∈ ys, x ∈ xs ∨ x = m ∧ h ∈ xs := by
  induction ht with
  | entry =>
    rw [← d.entry_eq]
    exact ⟨_, .entry, fun x hx => .inl hx⟩
  | @step xs a b hxs hb ih =>
    obtain ⟨ys, hys, hmem⟩ := ih
    have hmem' : ∀ x ∈ ys, x ∈ b :: xs ∨ x = m ∧ h ∈ b :: xs := fun x hx =>
      (hmem x hx).imp (List.mem_cons_of_mem _) fun hx => ⟨hx.1, .tail _ hx.2⟩
    have ha : a ≠ m := by
      rintro rfl
      cases hxs with
      | entry => exact d.entry_ne rfl
      | step _ ha => exact d.fresh _ ha
    by_cases hdiv : a ∈ sources ∧ b = h
    · obtain ⟨hp, rfl⟩ := hdiv
      have hm : m ∈ g'.next a := (d.mem_next a m ha).2 (.inr ⟨rfl, hp⟩)
      have hb' : b ∈ g'.next m := by
        rw [d.next_new]
        exact .head _
      refine ⟨_, .step (.step hys hm) hb', fun x hx => ?_⟩
      rcases List.mem_cons.1 hx with rfl | hx
      · exact .inl (.head _)
      · rcases List.mem_cons.1 hx with rfl | hx
        · exact .inr ⟨rfl, .head _⟩
        · exact hmem' x hx
    · refine ⟨_, .step hys ((d.mem_next a b ha).2 (.inl ⟨hb, hdiv⟩)), fun x hx => ?_⟩
      rcases List.mem_cons.1 hx with rfl | hx
      · exact .inl (.head _)
      · exact hmem' x hx

/-- What could be reached still can. -/
theorem reachable_of_reachable (hb : g.Reachable b) : g'.Reachable b := by
  obtain ⟨xs, hxs⟩ := hb
  obtain ⟨ys, hys, _⟩ := d.lift hxs
  exact ⟨ys, hys⟩

/-- The new block is one that could not be reached. -/
theorem ne_of_reachable (hb : g.Reachable b) : b ≠ m := by
  rintro rfl
  obtain ⟨xs, hxs⟩ := hb
  cases hxs with
  | entry => exact d.entry_ne rfl
  | step _ hnext => exact d.fresh _ hnext

theorem dominates (hb : b ≠ m) (hab : g.Dominates a b) : g'.Dominates a b := by
  by_cases heq : a = b
  · exact heq ▸ .refl a
  · exact (d.strictlyDominates hb ⟨heq, hab⟩).2

theorem dominates_of (ha : a ≠ m) (hab : g'.Dominates a b) : g.Dominates a b := by
  intro xs hxs
  obtain ⟨ys, hys, hmem⟩ := d.lift hxs
  exact (hmem a (hab ys hys)).resolve_right fun he => ha he.1

/-- What the new block dominates was dominated by the target. -/
theorem dominates_of_new (hmb : g'.Dominates m b) : g.Dominates h b := by
  intro xs hxs
  obtain ⟨ys, hys, hmem⟩ := d.lift hxs
  rcases hmem m (hmb ys hys) with hm | hm
  · exact absurd rfl (d.ne_of_reachable (hxs.reachable_of_mem hm))
  · exact hm.2

end

end Detours

end Graph

/-! ## Functions -/

theorem Terminator.mem_targets_retarget :
    x ∈ (t.retarget old new).targets ↔ (x ∈ t.targets ∧ x ≠ old) ∨ (x = new ∧ old ∈ t.targets) := by
  cases t with
  | jump y =>
    by_cases hy : y = old
    · simp [retarget, targets, hy]
    · simp [retarget, targets, hy]
      grind
  | branch c y z => by_cases hy : y = old <;> by_cases hz : z = old <;>
    simp [retarget, targets, hy, hz] <;> grind
  | ret v => simp [retarget, targets]

/-- Redirecting edges to a block that is no target yet leaves the order of the targets as it is. -/
theorem Terminator.targets_retarget (fresh : new ∉ t.targets) :
    (t.retarget old new).targets = t.targets.map fun x => if x = old then new else x := by
  cases t with
  | jump y => rfl
  | ret v => rfl
  | branch c y z =>
    by_cases hyz : y = z
    · simp [retarget, targets, hyz]
    · simp only [targets, hyz, if_false, List.mem_cons, List.not_mem_nil, or_false, not_or] at fresh
      have hne : (if y = old then new else y) ≠ if z = old then new else z := by grind
      simp only [retarget, targets, hne, hyz, if_false, List.map_cons, List.map_nil]

theorem Terminator.uses_retarget (t : Terminator) (old new : Label) :
    (t.retarget old new).uses = t.uses := by
  cases t with
  | ret v => cases v <;> rfl
  | _ => rfl

/-- A new block `label` on the edges from `sources` to `target`. -/
structure Detour where
  /-- The sources of the edges. -/
  sources : List Label
  /-- The new block. -/
  label : Label
  /-- The target of the edges. -/
  target : Label
  /-- The phis of the new block. -/
  merges : List Phi
  /-- The target as it is then, up to edges of its own that are on the detour. -/
  head : Block
  /-- The version counters then. -/
  versions : Table String Int

namespace Detour

variable {l : Label} {b b' : Block}

/-- The new block. -/
def middle (d : Detour) : Block := ⟨d.label, d.merges.map .phi, some (.jump d.target), d.sources⟩

/-- What becomes of the block `b`, registered under `l`. -/
def block (d : Detour) (l : Label) (b : Block) : Block :=
  let b := if l = d.target then d.head else b
  if l ∈ d.sources then b.retarget d.target d.label else b

/-- The function with the detour. -/
def apply (d : Detour) (f : Func) : Func :=
  { f with blocks := (f.blocks.mapValues d.block).insertBefore d.target d.label d.middle,
           versions := d.versions }

/-- A phi of the target and what becomes of it: the operands from the sources are one operand from
the new block, which is theirs or the result of a phi that takes them. -/
structure PhiFits (d : Detour) (φ φ' : Phi) : Prop where
  dest_eq : φ'.dest = φ.dest
  operand_eq : ∀ p, p ≠ d.label → p ∉ d.sources → φ'.operand p = φ.operand p
  joined : (∀ p ∈ d.sources, φ'.operand d.label = φ.operand p) ∨
    ∃ ψ ∈ d.merges, φ'.operand d.label = .var ψ.dest ∧ ∀ p ∈ d.sources, ψ.operand p = φ.operand p

/-- The target `c` and what becomes of it. -/
structure HeadFits (d : Detour) (c : Block) : Prop where
  name_eq : d.head.name = c.name
  term_eq : d.head.term = c.term
  body_eq : d.head.body = c.body
  phis : List.Forall₂ d.PhiFits c.phis d.head.phis
  tidy : d.head.Tidy
  nodup : d.head.preds.Nodup
  mem_preds : ∀ p, p ∈ d.head.preds ↔ p = d.label ∨ (p ∈ c.preds ∧ p ∉ d.sources)

/-- The detour can be made in `f`. -/
structure Fits (d : Detour) (f : Func) : Prop where
  fresh : d.label ∉ f.blocks
  nonempty : d.sources ≠ []
  nodup : d.sources.Nodup
  source : ∀ p ∈ d.sources, d.target ∈ f.graph.next p
  head : ∀ c, f.block? d.target = some c → d.HeadFits c
  merge_labels : ∀ ψ ∈ d.merges, ψ.labels = d.sources
  merge_source : ∀ ψ ∈ d.merges, ∃ c φ, f.block? d.target = some c ∧ φ ∈ c.phis ∧
    ∀ p ∈ d.sources, ψ.operand p = φ.operand p
  merge_nodup : (d.merges.map (·.dest)).Nodup
  merge_new : ∀ ψ ∈ d.merges, ∃ n, ψ.dest.version = some n ∧ f.lastVersion ψ.dest.name < n ∧
    n ≤ d.versions.getD ψ.dest.name 0
  versions_le : ∀ x, f.lastVersion x ≤ d.versions.getD x 0

variable {d : Detour} {f : Func}

theorem mem_blocks_apply_iff : l ∈ (d.apply f).blocks ↔ l = d.label ∨ l ∈ f.blocks :=
  Table.mem_insertBefore.trans (or_congr_right Table.mem_mapValues)

theorem mem_blocks_apply (hl : l ∈ f.blocks) : l ∈ (d.apply f).blocks :=
  mem_blocks_apply_iff.2 (.inr hl)

section

variable (fresh : d.label ∉ f.blocks)
include fresh

theorem block?_apply (l : Label) :
    (d.apply f).block? l = if l = d.label then some d.middle else (f.block? l).map (d.block l) := by
  have fresh' : d.label ∉ f.blocks.mapValues d.block := fun h => fresh (Table.mem_mapValues.1 h)
  show (Table.insertBefore _ _ _ _).get? l = _
  rw [Table.get?_insertBefore fresh', Table.get?_mapValues]
  rfl

theorem block?_label : (d.apply f).block? d.label = some d.middle := by
  rw [block?_apply fresh, if_pos rfl]

theorem ne_label (hb : f.block? l = some b) : l ≠ d.label :=
  fun he => fresh (he ▸ Func.mem_blocks hb)

theorem block?_of_block? (hb : f.block? l = some b) :
    (d.apply f).block? l = some (d.block l b) := by
  rw [block?_apply fresh, if_neg (ne_label fresh hb), hb]
  rfl

theorem of_block?_apply (h : (d.apply f).block? l = some b') :
    l = d.label ∧ b' = d.middle ∨ ∃ b, f.block? l = some b ∧ b' = d.block l b := by
  rw [block?_apply fresh] at h
  split at h
  · rename_i hl
    exact .inl ⟨hl, (Option.some.inj h).symm⟩
  · obtain ⟨b, hb, rfl⟩ := Option.map_eq_some_iff.1 h
    exact .inr ⟨b, hb, rfl⟩

end

theorem middle_spec (d : Detour) (h : ∀ ψ ∈ d.merges, ψ.labels = d.sources) :
    d.middle.phis = d.merges ∧ d.middle.body = [] ∧ d.middle.Tidy :=
  Block.tidy_of_eq (List.append_nil _).symm (by simp) h

theorem block_eq (l : Label) (b : Block) : d.block l b =
    let b' := if l = d.target then d.head else b
    { b' with
      term := if l ∈ d.sources then b'.term.map (·.retarget d.target d.label) else b'.term } := by
  unfold block
  by_cases hs : l ∈ d.sources
  · simp only [if_pos hs]
    rfl
  · simp only [if_neg hs]

theorem preds_block (l : Label) (b : Block) :
    (d.block l b).preds = if l = d.target then d.head.preds else b.preds := by
  rw [block_eq]
  split <;> rfl

/-- What the detour leaves as it is in a block. -/
theorem Fits.block_spec (h : d.Fits f) (wf : f.WellFormed) (hb : f.block? l = some b) :
    (d.block l b).name = b.name ∧ (d.block l b).body = b.body ∧ (d.block l b).Tidy ∧
      (d.block l b).term
        = (if l ∈ d.sources then b.term.map (·.retarget d.target d.label) else b.term) ∧
      List.Forall₂ (fun φ φ' => φ'.dest = φ.dest ∧ ∀ p, p ≠ d.label →
        ¬ (p ∈ d.sources ∧ l = d.target) →
        φ'.operand p = φ.operand p) b.phis (d.block l b).phis := by
  rw [block_eq]
  by_cases hl : l = d.target
  · subst hl
    have head := h.head b hb
    simp only [if_true]
    refine ⟨head.name_eq, head.body_eq, ⟨head.tidy.instrs_eq, head.tidy.labels_eq⟩, ?_, ?_⟩
    · rw [head.term_eq]
    · exact head.phis.imp fun φ φ' hφ => ⟨hφ.dest_eq, fun p hne hp => hφ.operand_eq p hne fun hs =>
        hp ⟨hs, trivial⟩⟩
  · simp only [if_neg hl]
    refine ⟨trivial, rfl, ⟨(wf.tidy hb).instrs_eq, (wf.tidy hb).labels_eq⟩, trivial, ?_⟩
    exact List.forall₂_same.2 fun φ _ => ⟨rfl, fun _ _ _ => rfl⟩

theorem Fits.head_phis (h : d.Fits f) {c : Block} (hc : f.block? d.target = some c) :
    List.Forall₂ d.PhiFits c.phis (d.block d.target c).phis := by
  have hphis := (h.head c hc).phis
  rw [block_eq]
  simp only [if_true]
  exact hphis

theorem Fits.detours (h : d.Fits f) (wf : f.WellFormed) :
    f.graph.Detours (d.apply f).graph d.sources d.label d.target where
  entry_eq := rfl
  entry_ne he := h.fresh (he ▸ wf.entry_mem)
  target_ne he := by
    obtain ⟨p, hp⟩ := List.exists_mem_of_ne_nil _ h.nonempty
    exact h.fresh (he ▸ wf.mem_of_next (h.source p hp))
  source_ne p hp he := by
    obtain ⟨b, hb, _⟩ := Func.block_of_mem_next (h.source p hp)
    exact ne_label h.fresh hb he
  fresh l hl := h.fresh (wf.mem_of_next hl)
  next_new := by
    rw [Func.next_graph (block?_label h.fresh)]
    rfl
  mem_next l x hl := by
    cases hb : f.block? l with
    | none =>
      have hb' : (d.apply f).block? l = none := by
        rw [block?_apply h.fresh, if_neg hl, hb, Option.map_none]
      have hsource : l ∉ d.sources := by
        intro hs
        obtain ⟨b, hb', _⟩ := Func.block_of_mem_next (h.source l hs)
        rw [hb] at hb'
        cases hb'
      rw [Func.next_graph_of_none hb, Func.next_graph_of_none hb']
      simp [hsource]
    | some b =>
      obtain ⟨_, _, _, hterm, _⟩ := h.block_spec wf hb
      obtain ⟨t, ht⟩ := Option.ne_none_iff_exists'.1 (wf.closed hb)
      rw [Func.next_graph hb, Func.next_graph (block?_of_block? h.fresh hb), Block.successors,
        Block.successors, hterm, ht]
      by_cases hs : l ∈ d.sources
      · have htarget := h.source l hs
        rw [Func.next_graph hb, Block.successors, ht] at htarget
        simp only [if_pos hs, Option.map_some, Terminator.mem_targets_retarget]
        simp [hs, htarget]
      · simp [hs]
  source := h.source

/-! ### The function stays well-formed -/

theorem Fits.mem_of_next (h : d.Fits f) (wf : f.WellFormed) (hx : x ∈ (d.apply f).graph.next l) :
    x ∈ (d.apply f).blocks := by
  have det := h.detours wf
  by_cases hl : l = d.label
  · rw [hl, det.next_new, List.mem_singleton] at hx
    obtain ⟨p, hp⟩ := List.exists_mem_of_ne_nil _ h.nonempty
    exact hx ▸ mem_blocks_apply (wf.mem_of_next (h.source p hp))
  · rcases (det.mem_next l x hl).1 hx with hx | hx
    · exact mem_blocks_apply (wf.mem_of_next hx.1)
    · exact hx.1 ▸ Func.mem_blocks (block?_label h.fresh)

/-- The new block comes after the sources. -/
theorem Fits.mem_sources (h : d.Fits f) (wf : f.WellFormed) (p : Label) :
    p ∈ d.sources ↔ d.label ∈ (d.apply f).graph.next p := by
  have det := h.detours wf
  by_cases hp : p = d.label
  · subst hp
    rw [det.next_new, List.mem_singleton]
    exact ⟨fun hs => absurd rfl (det.source_ne _ hs), fun he => absurd he.symm det.target_ne⟩
  · rw [det.mem_next p _ hp]
    refine ⟨fun hs => .inr ⟨rfl, hs⟩, ?_⟩
    rintro (hs | hs)
    · exact absurd hs.1 (det.fresh p)
    · exact hs.2

theorem Fits.mem_preds_block (h : d.Fits f) (wf : f.WellFormed) (hb : f.block? l = some b)
    (p : Label) : p ∈ (d.block l b).preds ↔ l ∈ (d.apply f).graph.next p := by
  have det := h.detours wf
  have hl := ne_label h.fresh hb
  rw [preds_block]
  by_cases hp : p = d.label
  · subst hp
    rw [det.next_new, List.mem_singleton]
    split
    · rename_i ht
      subst ht
      simp [(h.head b hb).mem_preds]
    · rename_i ht
      rw [wf.mem_preds hb]
      refine ⟨fun hs => ?_, fun he => absurd he ht⟩
      obtain ⟨c, hc, _⟩ := Func.block_of_mem_next hs
      exact absurd rfl (ne_label h.fresh hc)
  · rw [det.mem_next p l hp]
    split
    · rename_i ht
      subst ht
      rw [(h.head b hb).mem_preds, wf.mem_preds hb]
      simp [hp, hl]
    · rename_i ht
      rw [wf.mem_preds hb]
      simp [ht, hl]

theorem Fits.wellFormed (h : d.Fits f) (wf : f.WellFormed) : (d.apply f).WellFormed := by
  apply Func.wellFormed_of_mem_preds
  · exact mem_blocks_apply wf.entry_mem
  · intro l b' hb'
    rcases of_block?_apply h.fresh hb' with ⟨rfl, rfl⟩ | ⟨b, hb, rfl⟩
    · rfl
    · exact (h.block_spec wf hb).1.trans (wf.name_eq hb)
  · intro l b' hb'
    rcases of_block?_apply h.fresh hb' with ⟨rfl, rfl⟩ | ⟨b, hb, rfl⟩
    · simp [middle]
    · rw [(h.block_spec wf hb).2.2.2.1]
      have := wf.closed hb
      split
      · simpa using this
      · exact this
  · intro l b' hb' x hx
    rw [← Func.next_graph hb'] at hx
    exact h.mem_of_next wf hx
  · intro l b' hb'
    rcases of_block?_apply h.fresh hb' with ⟨rfl, rfl⟩ | ⟨b, hb, rfl⟩
    · exact h.nodup
    · rw [preds_block]
      split
      · rename_i hl
        subst hl
        exact (h.head b hb).nodup
      · exact wf.nodup_preds hb
  · intro l b' hb'
    rcases of_block?_apply h.fresh hb' with ⟨rfl, rfl⟩ | ⟨b, hb, rfl⟩
    · exact h.mem_sources wf
    · exact h.mem_preds_block wf hb
  · intro l b' hb'
    rcases of_block?_apply h.fresh hb' with ⟨rfl, rfl⟩ | ⟨b, hb, rfl⟩
    · exact (d.middle_spec h.merge_labels).2.2
    · exact (h.block_spec wf hb).2.2.1

/-! ## SSA form -/

section SsaForm

variable {v : Var}

theorem Fits.dests_block (h : d.Fits f) (wf : f.WellFormed) (hb : f.block? l = some b) :
    (d.block l b).phis.map (·.dest) = b.phis.map (·.dest) ∧
      destsOf (d.block l b).instrs = destsOf b.instrs := by
  obtain ⟨_, hbody, htidy, _, hphis⟩ := h.block_spec wf hb
  have hdests : (d.block l b).phis.map (·.dest) = b.phis.map (·.dest) := by
    generalize b.phis = φs, (d.block l b).phis = φs' at hphis
    induction hphis with
    | nil => rfl
    | cons hφ _ ih => rw [List.map_cons, List.map_cons, hφ.1, ih]
  exact ⟨hdests, by rw [htidy.destsOf_eq, (wf.tidy hb).destsOf_eq, hdests, hbody]⟩

theorem dests_middle (d : Detour) : destsOf d.middle.instrs = d.merges.map (·.dest) :=
  destsOf_map_phi _

theorem Fits.of_defines (h : d.Fits f) (wf : f.WellFormed) (hv : (d.apply f).Defines l v) :
    l = d.label ∧ v ∈ d.merges.map (·.dest) ∨ l ≠ d.label ∧ f.Defines l v := by
  obtain ⟨b', hb', hv⟩ := hv
  rcases of_block?_apply h.fresh hb' with ⟨rfl, rfl⟩ | ⟨b, hb, rfl⟩
  · exact .inl ⟨rfl, dests_middle d ▸ hv⟩
  · exact .inr ⟨ne_label h.fresh hb, b, hb, (h.dests_block wf hb).2 ▸ hv⟩

theorem Fits.defines (h : d.Fits f) (wf : f.WellFormed) (hv : f.Defines l v) :
    (d.apply f).Defines l v := by
  obtain ⟨b, hb, hv⟩ := hv
  exact ⟨_, block?_of_block? h.fresh hb, (h.dests_block wf hb).2 ▸ hv⟩

theorem Fits.availIn (h : d.Fits f) (wf : f.WellFormed) (hl : l ≠ d.label) (hv : f.AvailIn l v) :
    (d.apply f).AvailIn l v :=
  hv.imp_right fun ⟨a, ha, hdef⟩ => ⟨a, (h.detours wf).strictlyDominates hl ha, h.defines wf hdef⟩

theorem Fits.availOut (h : d.Fits f) (wf : f.WellFormed) (hl : l ≠ d.label) (hv : f.AvailOut l v) :
    (d.apply f).AvailOut l v :=
  hv.imp (h.availIn wf hl) (h.defines wf)

/-- The new block can be reached only through a source. -/
theorem Fits.exists_source (h : d.Fits f) (wf : f.WellFormed)
    (hm : (d.apply f).graph.Reachable d.label) : ∃ p ∈ d.sources, f.graph.Reachable p := by
  obtain ⟨xs, hxs⟩ := hm
  obtain ⟨p, hp, htrail⟩ := ((h.detours wf).trail hxs).2 rfl
  exact ⟨p, hp, _, htrail⟩

/-- What is available at the end of all sources is available in the new block. -/
theorem Fits.availIn_label (h : d.Fits f) (wf : f.WellFormed) (once : f.DefinedOnce)
    (hm : (d.apply f).graph.Reachable d.label)
    (hv : ∀ p ∈ d.sources, f.graph.Reachable p → f.AvailOut p v) :
    (d.apply f).AvailIn d.label v := by
  have hhome : ∀ {p}, f.AvailOut p v → v ∈ f.paramVars ∨ ∃ a, f.graph.Dominates a p ∧
      f.Defines a v := by
    rintro p ((hv | ⟨a, ha, hdef⟩) | hdef)
    · exact .inl hv
    · exact .inr ⟨a, ha.2, hdef⟩
    · exact .inr ⟨p, .refl p, hdef⟩
  obtain ⟨p, hp, hpr⟩ := h.exists_source wf hm
  rcases hhome (hv p hp hpr) with hparam | ⟨a, ha, hdef⟩
  · exact .inl hparam
  · -- All sources find the one definition there is, so its block dominates them all.
    have har := ha.reachable hpr
    obtain ⟨b, hb⟩ := wf.block_of_reachable har
    refine .inr ⟨a, (h.detours wf).strictlyDominates_new (ne_label h.fresh hb) fun q hq hqr => ?_,
      h.defines wf hdef⟩
    rcases hhome (hv q hq hqr) with hparam | ⟨a', ha', hdef'⟩
    · exact absurd hparam (once.not_param har hdef)
    · rw [once.apart har (ha'.reachable hqr) hdef hdef']
      exact ha'

/-- The results of the new phis have versions and are defined nowhere else. -/
structure NewIn (d : Detour) (f : Func) : Prop where
  versioned : ∀ v ∈ d.merges.map (·.dest), v.version ≠ none
  not_param : ∀ v ∈ d.merges.map (·.dest), v ∉ f.paramVars
  not_defined : ∀ v ∈ d.merges.map (·.dest), ∀ l, ¬ f.Defines l v

/-- Versions above the counters are new. -/
theorem Fits.newIn (h : d.Fits f) (counted : f.Counted) : d.NewIn f := by
  have hnew : ∀ v ∈ d.merges.map (·.dest), ∃ n, v.version = some n ∧ f.lastVersion v.name < n := by
    intro v hv
    obtain ⟨ψ, hψ, rfl⟩ := List.mem_map.1 hv
    obtain ⟨n, hn, hlt, _⟩ := h.merge_new ψ hψ
    exact ⟨n, hn, hlt⟩
  refine ⟨fun v hv => ?_, fun v hv hparam => ?_, fun v hv l hdef => ?_⟩
  · obtain ⟨n, hn, _⟩ := hnew v hv
    simp [hn]
  · obtain ⟨n, hn, hlt⟩ := hnew v hv
    obtain ⟨x, hx, rfl⟩ := List.mem_map.1 hparam
    cases hn
    exact absurd hlt (Int.not_lt.2 (counted.nonneg x hx))
  · obtain ⟨n, hn, hlt⟩ := hnew v hv
    exact absurd hlt (Int.not_lt.2 (counted.bound hdef hn))

/-- What is defined nowhere else is not read, since what is read is available. -/
theorem NewIn.not_reads (new : d.NewIn f) (form : f.SsaForm) (hv : v ∈ d.merges.map (·.dest)) :
    ¬ f.Reads v := by
  have havail : ∀ {l}, ¬ f.AvailOut l v := by
    rintro l ((hparam | ⟨a, _, hdef⟩) | hdef)
    · exact new.not_param v hv hparam
    · exact new.not_defined v hv a hdef
    · exact new.not_defined v hv l hdef
  intro hread
  cases hread with
  | instr hl hb hi hx =>
    exact havail (form.availOut_of_use hl hb (List.mem_of_mem_filter hi)
      (Block.isPhi_of_mem_body hi) hx)
  | term hl hb ht hx => exact havail (form.termUse hl hb ht hx)
  | phi hp hnext hb hφ heq =>
    exact havail (form.phi_operand_available hp (hp.step hnext) hb hφ v heq)

section

variable (h : d.Fits f)
include h

theorem Fits.definedOnce (wf : f.WellFormed) (once : f.DefinedOnce) (new : d.NewIn f) :
    (d.apply f).DefinedOnce := by
  have det := h.detours wf
  refine ⟨once.params_nodup, fun {l v} hl hv => ?_, fun {l v} hl hv hparam => ?_,
    fun {l b'} hl hb' => ?_, fun {l l' v} hl hl' hv hv' => ?_⟩
  · rcases h.of_defines wf hv with ⟨_, hv⟩ | ⟨hne, hv⟩
    · exact new.versioned v hv
    · exact once.versioned (det.reachable hne hl) hv
  · rcases h.of_defines wf hv with ⟨_, hv⟩ | ⟨hne, hv⟩
    · exact new.not_param v hv hparam
    · exact once.not_param (det.reachable hne hl) hv hparam
  · rcases of_block?_apply h.fresh hb' with ⟨rfl, rfl⟩ | ⟨b, hb, rfl⟩
    · rw [dests_middle]
      exact h.merge_nodup
    · rw [(h.dests_block wf hb).2]
      exact once.nodup (det.reachable (ne_label h.fresh hb) hl) hb
  · rcases h.of_defines wf hv with ⟨rfl, hm⟩ | ⟨hne, hv⟩
    · rcases h.of_defines wf hv' with ⟨rfl, _⟩ | ⟨_, hv'⟩
      · rfl
      · exact absurd hv' (new.not_defined v hm l')
    · rcases h.of_defines wf hv' with ⟨_, hm⟩ | ⟨hne', hv'⟩
      · exact absurd hv (new.not_defined v hm l)
      · exact once.apart (det.reachable hne hl) (det.reachable hne' hl') hv hv'

/-- Where an operand of a phi comes from: from a phi of the same block, or, if the edge is on the
detour, from a phi of the target and some source, or from one of the new phis. -/
theorem Fits.operand_cases (wf : f.WellFormed) (hb' : (d.apply f).block? l = some b')
    (hφ' : φ' ∈ b'.phis) {a' : PhiArg} (ha' : a' ∈ φ'.incoming) :
    (∃ b φ, l ≠ d.label ∧ a'.block ≠ d.label ∧ f.block? l = some b ∧ φ ∈ b.phis ∧
      l ∈ f.graph.next a'.block ∧
        a'.value = φ.operand a'.block) ∨
      (∃ c φ, l = d.label ∧ a'.block ∈ d.sources ∧ f.block? d.target = some c ∧ φ ∈ c.phis ∧
        a'.value = φ.operand a'.block) ∨
      ∃ c φ, l = d.target ∧ a'.block = d.label ∧ f.block? d.target = some c ∧ φ ∈ c.phis ∧
        ((∀ p ∈ d.sources, a'.value = φ.operand p) ∨ ∃ ψ ∈ d.merges, a'.value = .var ψ.dest) := by
  have det := h.detours wf
  obtain ⟨hvalue, hnext⟩ := (h.wellFormed wf).operand_of_mem hb' hφ' ha'
  rcases of_block?_apply h.fresh hb' with ⟨rfl, rfl⟩ | ⟨b, hb, rfl⟩
  · rw [(d.middle_spec h.merge_labels).1] at hφ'
    obtain ⟨c, φ, hc, hφ, heq⟩ := h.merge_source φ' hφ'
    have hs : a'.block ∈ d.sources := h.merge_labels φ' hφ' ▸ List.mem_map_of_mem ha'
    exact .inr (.inl ⟨c, φ, rfl, hs, hc, hφ, hvalue ▸ heq _ hs⟩)
  · by_cases hm : a'.block = d.label
    · rw [hm, det.next_new, List.mem_singleton] at hnext
      subst hnext
      obtain ⟨φ, hφ, fits⟩ := exists_of_forall₂ (h.head_phis hb) hφ'
      rw [hm] at hvalue
      refine .inr (.inr ⟨b, φ, rfl, hm, hb, hφ, ?_⟩)
      rcases fits.joined with hj | ⟨ψ, hψ, heq, _⟩
      · exact .inl fun p hp => hvalue ▸ hj p hp
      · exact .inr ⟨ψ, hψ, hvalue ▸ heq⟩
    · have hl := ne_label h.fresh hb
      obtain ⟨φ, hφ, _, heq⟩ := exists_of_forall₂ (h.block_spec wf hb).2.2.2.2 hφ'
      have hedge := ((det.mem_next _ l hm).1 hnext).resolve_right fun he => hl he.1
      exact .inl ⟨b, φ, hl, hm, hb, hφ, hedge.1, hvalue ▸ heq _ hm hedge.2⟩

theorem Fits.ssaForm (wf : f.WellFormed) (form : f.SsaForm) (new : d.NewIn f) :
    (d.apply f).SsaForm where
  toDefinedOnce := h.definedOnce wf form.toDefinedOnce new
  use {l b' pre i post v} hl hb' heq hi hv := by
    have det := h.detours wf
    obtain ⟨pre', rfl, hbody⟩ := ((h.wellFormed wf).tidy hb').split_body heq hi
    rcases of_block?_apply h.fresh hb' with ⟨rfl, rfl⟩ | ⟨b, hb, rfl⟩
    · rw [(d.middle_spec h.merge_labels).2.1] at hbody
      cases pre' <;> cases hbody
    · have hne := ne_label h.fresh hb
      rw [(h.block_spec wf hb).2.1] at hbody
      have hinstrs : b.instrs = (b.phis.map .phi ++ pre') ++ i :: post := by
        rw [(wf.tidy hb).instrs_eq, hbody, List.append_assoc]
      rcases form.use (det.reachable hne hl) hb hinstrs hi hv with hin | hpre
      · exact .inl (h.availIn wf hne hin)
      · refine .inr ?_
        rw [destsOf_append, destsOf_map_phi] at hpre ⊢
        rwa [(h.dests_block wf hb).1]
  termUse {l b' t' v} hl hb' ht' hv := by
    rcases of_block?_apply h.fresh hb' with ⟨rfl, rfl⟩ | ⟨b, hb, rfl⟩
    · cases ht'
      cases hv
    · have hne := ne_label h.fresh hb
      obtain ⟨t, ht⟩ := Option.ne_none_iff_exists'.1 (wf.closed hb)
      rw [(h.block_spec wf hb).2.2.2.1, ht] at ht'
      have huses : t'.uses = t.uses := by
        split at ht'
        · cases ht'
          exact t.uses_retarget _ _
        · cases ht'
          rfl
      exact h.availOut wf hne (form.termUse ((h.detours wf).reachable hne hl) hb ht (huses ▸ hv))
  phiUse {l b' φ' a' v} hl hb' hφ' ha' hp hv := by
    have det := h.detours wf
    rcases h.operand_cases wf hb' hφ' ha' with ⟨b, φ, hne, hm, hb, hφ, hnext, heq⟩ |
      ⟨c, φ, rfl, hs, hc, hφ, heq⟩ | ⟨c, φ, rfl, hm, hc, hφ, hj⟩
    · exact h.availOut wf hm (form.phi_operand_available (det.reachable hm hp)
        (det.reachable hne hl) hb hφ v
        (heq ▸ hv))
    · have hm := det.source_ne _ hs
      have hpr := det.reachable hm hp
      exact h.availOut wf hm (form.phi_operand_available hpr (hpr.step (h.source _ hs)) hc hφ v
        (heq ▸ hv))
    · rw [hm] at hp ⊢
      rcases hj with hj | ⟨ψ, hψ, heq⟩
      · refine .inl (h.availIn_label wf form.toDefinedOnce hp fun p hs hpr => ?_)
        exact form.phi_operand_available hpr (hpr.step (h.source p hs)) hc hφ v (hj p hs ▸ hv)
      · rw [heq] at hv
        cases hv
        refine .inr ⟨_, block?_label h.fresh, ?_⟩
        rw [dests_middle]
        exact List.mem_map_of_mem hψ

theorem Fits.isSsa (hf : f.IsSsa) (new : d.NewIn f) : (d.apply f).IsSsa where
  wf := h.wellFormed hf.wf
  ssa := hf.ssa
  form := h.ssaForm hf.wf hf.form new

/-- SSA form stays. -/
theorem Fits.inSsa (hf : f.InSsa) : (d.apply f).InSsa where
  toIsSsa := h.isSsa hf.toIsSsa (h.newIn hf.counted)
  counted := by
    refine ⟨fun x hx => Int.le_trans (hf.counted.nonneg x hx) (h.versions_le x),
      fun {l v n} hv hn => ?_⟩
    rcases h.of_defines hf.wf hv with ⟨_, hv⟩ | ⟨_, hv⟩
    · obtain ⟨ψ, hψ, rfl⟩ := List.mem_map.1 hv
      obtain ⟨k, hk, _, hle⟩ := h.merge_new ψ hψ
      rw [hk] at hn
      cases hn
      exact hle
    · exact Int.le_trans (hf.counted.bound hv hn) (h.versions_le _)

theorem Fits.undefinedAcyclic (wf : f.WellFormed) (hundef : f.UndefinedAcyclic) :
    (d.apply f).UndefinedAcyclic := by
  have det := h.detours wf
  have hoperand : ∀ {l p b φ}, f.graph.Reachable l → f.block? l = some b → φ ∈ b.phis →
      l ∈ f.graph.next p →
      φ.operand p = .undefined → ¬ f.graph.Leads l p := by
    intro l p b φ hl hb hφ hp heq
    obtain ⟨a, ha, rfl, hvalue⟩ :=
      Phi.exists_operand ((wf.tidy hb).labels_eq φ hφ ▸ (wf.mem_preds hb).2 hp)
    exact hundef l b φ a hl hb hφ ha (hvalue.trans heq)
  intro l b' φ' a' hl hb' hφ' ha' hvalue hleads
  rcases h.operand_cases wf hb' hφ' ha' with ⟨b, φ, hne, hm, hb, hφ, hnext, heq⟩ |
    ⟨c, φ, rfl, hs, hc, hφ, heq⟩ | ⟨c, φ, rfl, hm, hc, hφ, hj⟩
  · exact hoperand (det.reachable hne hl) hb hφ hnext (heq ▸ hvalue) ((det.leads hne hleads).1 hm)
  · obtain ⟨p, hp, hpr⟩ := h.exists_source wf hl
    exact hoperand (hpr.step (h.source p hp)) hc hφ (h.source _ hs) (heq ▸ hvalue)
      (det.leads_of_new (det.source_ne _ hs) hleads)
  · rw [hm] at hleads
    obtain ⟨p, hp, hleads⟩ := (det.leads det.target_ne hleads).2 rfl
    rcases hj with hj | ⟨ψ, _, heq⟩
    · exact hoperand (det.reachable det.target_ne hl) hc hφ (h.source p hp)
        (hj p hp ▸ hvalue) hleads
    · rw [heq] at hvalue
      cases hvalue

theorem Fits.entryPhiFree (wf : f.WellFormed) (hentry : f.EntryPhiFree) :
    (d.apply f).EntryPhiFree := by
  intro b' hb'
  rcases of_block?_apply h.fresh hb' with ⟨he, rfl⟩ | ⟨b, hb, rfl⟩
  · exact absurd he (h.detours wf).entry_ne
  · have hphis := (h.block_spec wf hb).2.2.2.2
    rw [hentry b hb] at hphis
    exact List.forall₂_nil_left_iff.1 hphis

theorem Fits.not_entryIsTarget (wf : f.WellFormed) (hentry : ¬ f.EntryIsTarget) :
    ¬ (d.apply f).EntryIsTarget := by
  have det := h.detours wf
  rintro ⟨p, hp, hnext⟩
  by_cases hm : p = d.label
  · subst hm
    obtain ⟨q, hq, hqr⟩ := h.exists_source wf hp
    rw [det.next_new, List.mem_singleton] at hnext
    exact hentry ⟨q, hqr, (show f.entry = d.target from hnext) ▸ h.source q hq⟩
  · exact hentry ⟨p, det.reachable hm hp, det.of_next hm det.entry_ne hnext⟩

end

end SsaForm

end Detour

/-! ## Runs -/

namespace Terminator

variable {value : Operand → Int}

theorem exit_retarget (h : t.exit value = .goto x) (old new : Label) :
    (t.retarget old new).exit value = .goto (if x = old then new else x) := by
  cases t with
  | jump y =>
    cases h
    rfl
  | branch c y z =>
    cases h
    simp only [retarget, exit]
    split
    · rfl
    · rfl
  | ret v => cases h

theorem exit_retarget_of_ne (h : t.exit value ≠ .goto old) (new : Label) :
    (t.retarget old new).exit value = t.exit value := by
  cases he : t.exit value with
  | goto x =>
    have hx : x ≠ old := fun hx => h (hx ▸ he)
    rw [exit_retarget he, if_neg hx]
  | leave v =>
    cases t with
    | ret x => exact he
    | jump y => cases he
    | branch c y z => cases he

end Terminator

namespace Detour

variable {d : Detour} {f : Func}

/-- What relates activations: they are at the same place, and agree on the variables that are
read. -/
inductive Tracks (d : Detour) (f : Func) : Frame → Frame → Prop
  | mk {l : Label} {b : Block} {rest : List Instr} {env env' : Env} : f.graph.Reachable l →
    f.block? l = some b →
    rest ⊆ b.body → (∀ v, f.Reads v → env'.getD v 0 = env.getD v 0) →
    Tracks d f ⟨f, l, rest, b.term, env⟩ ⟨d.apply f, l, rest, (d.block l b).term, env'⟩

section Runs

variable {l : Label} {b c : Block} {env env' : Env} {w : World}

/-- What the phis of the target take from the new block is what they took from the source. -/
theorem Fits.value_of_joined (h : d.Fits f) (hread : ∀ v ∈ d.merges.map (·.dest), ¬ f.Reads v)
    (hl : f.graph.Reachable l) (hs : l ∈ d.sources) (hc : f.block? d.target = some c) {φ : Phi}
    (hφ : φ ∈ c.phis) (fits : d.PhiFits φ φ')
    (hagree : ∀ v, f.Reads v → env'.getD v 0 = env.getD v 0) :
    (env'.assign (phiAssignments env' l d.merges)).value (φ'.operand d.label)
      = env.value (φ.operand l) := by
  have hoperand : ∀ v, φ.operand l = .var v → f.Reads v :=
    fun v hv => .phi hl (h.source l hs) hc hφ hv
  rcases fits.joined with hj | ⟨ψ, hψ, heq, hj⟩
  · rw [hj l hs]
    refine Env.value_congr fun v hv => ?_
    rw [getD_phiAssignments_of_not_mem fun hmem => hread v hmem (hoperand v hv)]
    exact hagree v (hoperand v hv)
  · rw [heq, Env.value_var, getD_phiAssignments env' env' l h.merge_nodup hψ, hj l hs]
    exact Env.value_congr fun v hv => hagree v (hoperand v hv)

/-- A step along an edge with the detour on it takes two steps. -/
theorem Fits.detour_step (h : d.Fits f) (wf : f.WellFormed)
    (hread : ∀ v ∈ d.merges.map (·.dest), ¬ f.Reads v) (hl : f.graph.Reachable l)
    (hb : f.block? l = some b) (ht : b.term = some t) (hs : l ∈ d.sources)
    (hexit : t.exit env.value = .goto d.target) (hexit' : t.exit env'.value = .goto d.target)
    (hagree : ∀ v, f.Reads v → env'.getD v 0 = env.getD v 0) :
    Match AnyPace (fun _ => d.Tracks f) ⟨f, l, [], b.term, env⟩ ⟨d.apply f, l, [],
      (d.block l b).term, env'⟩ w := by
  have det := h.detours wf
  have wf' := h.wellFormed wf
  have hnext := h.source l hs
  obtain ⟨c, hc⟩ := wf.block_of_reachable (hl.step hnext)
  obtain ⟨hphis, hbody, _⟩ := d.middle_spec h.merge_labels
  obtain ⟨_, hbody', _, hterm', _⟩ := h.block_spec wf hc
  have hterm : (d.block l b).term = some (t.retarget d.target d.label) := by
    rw [(h.block_spec wf hb).2.2.2.1, if_pos hs, ht, Option.map_some]
  have hmid : d.label ∈ (d.apply f).graph.next l :=
    (det.mem_next l _ (det.source_ne l hs)).2 (.inr ⟨rfl, hs⟩)
  have hlast : d.target ∈ (d.apply f).graph.next d.label := by rw [det.next_new]; exact .head _
  have henter := wf'.enter_eq env' (block?_label h.fresh) hmid
  rw [hphis, hbody] at henter
  have henter' := wf'.enter_eq (env'.assign (phiAssignments env' l d.merges))
    (block?_of_block? h.fresh hc) hlast
  rw [hbody'] at henter'
  have hexit₁ : (t.retarget d.target d.label).exit env'.value = .goto d.label := by
    rw [Terminator.exit_retarget hexit', if_pos rfl]
  have hstep := Frame.act_goto hexit (wf.enter_eq env hc hnext) w
  have hstep₁ := Frame.act_goto hexit₁ henter w
  rw [ht, hterm]
  refine .go trivial (.one hstep) (.step hstep₁ (.one (Frame.act_goto rfl henter' w))) ?_
  refine .mk (hl.step hnext) hc (List.Subset.refl _) fun v hv => ?_
  -- The phis of the target assign the same, and the new phis assign nothing that is read.
  have hsame : phiAssignments (env'.assign (phiAssignments env' l d.merges)) d.label
      (d.block d.target c).phis
      = phiAssignments env l c.phis := by
    refine phiAssignments_congr ?_
    refine ((List.forall₂_and_left _ _).2 ⟨fun φ hφ => hφ, h.head_phis hc⟩).imp fun φ φ' hφ =>
      ⟨hφ.2.dest_eq, ?_⟩
    exact h.value_of_joined hread hl hs hc hφ.1 hφ.2 hagree
  rw [hsame]
  refine Env.getD_assign_congr ?_ _
  rw [getD_phiAssignments_of_not_mem fun hmem => hread v hmem hv]
  exact hagree v hv

/-- A step along another edge is the same step. -/
theorem Fits.other_step (h : d.Fits f) (wf : f.WellFormed) (hl : f.graph.Reachable l)
    (hb : f.block? l = some b) (ht : b.term = some t) (hsame : t.exit env'.value = t.exit env.value)
    (hdiv : ¬ (l ∈ d.sources ∧ t.exit env.value = .goto d.target))
    (hagree : ∀ v, f.Reads v → env'.getD v 0 = env.getD v 0) :
    Match AnyPace (fun _ => d.Tracks f) ⟨f, l, [], b.term, env⟩ ⟨d.apply f, l, [],
      (d.block l b).term, env'⟩ w := by
  have hterm : (d.block l b).term
      = some (if l ∈ d.sources then t.retarget d.target d.label else t) := by
    rw [(h.block_spec wf hb).2.2.2.1, ht]
    split
    · rfl
    · rfl
  have hexit : (if l ∈ d.sources then t.retarget d.target d.label else t).exit env'.value
      = t.exit env.value := by
    split
    · rename_i hs
      rw [Terminator.exit_retarget_of_ne (fun he => hdiv ⟨hs, hsame ▸ he⟩), hsame]
    · exact hsame
  rw [hterm, ht]
  refine (agree_exit hexit fun x hgoto => ?_).match pace_any fun _ _ _ hab => hab
  have hnext : x ∈ f.graph.next l := by
    rw [Func.next_graph hb, Block.successors, ht]
    exact Terminator.mem_targets_of_exit hgoto
  have hdiv' : ¬ (l ∈ d.sources ∧ x = d.target) := fun hx => hdiv ⟨hx.1, hx.2 ▸ hgoto⟩
  have hnext' : x ∈ (d.apply f).graph.next l :=
    ((h.detours wf).mem_next l x (ne_label h.fresh hb)).2 (.inl ⟨hnext, hdiv'⟩)
  obtain ⟨c, hc⟩ := wf.block_of_reachable (hl.step hnext)
  obtain ⟨_, hbody, _, _, hphis⟩ := h.block_spec wf hc
  have henter := (h.wellFormed wf).enter_eq env' (block?_of_block? h.fresh hc) hnext'
  have hassign : phiAssignments env' l (d.block x c).phis = phiAssignments env l c.phis := by
    refine phiAssignments_congr
      (((List.forall₂_and_left _ _).2 ⟨fun φ hφ => hφ, hphis⟩).imp fun φ φ' hφ => ⟨hφ.2.1, ?_⟩)
    rw [hφ.2.2 l (ne_label h.fresh hb) hdiv']
    exact Env.value_congr fun v hv => hagree v (.phi hl hnext hc hφ.1 hv)
  rw [hbody, hassign] at henter
  refine ⟨_, _, wf.enter_eq env hc hnext, henter, ?_⟩
  exact .mk (hl.step hnext) hc (List.Subset.refl _) fun v hv =>
    Env.getD_assign_congr (hagree v hv) _

theorem Fits.simulation (h : d.Fits f) (wf : f.WellFormed)
    (hread : ∀ v ∈ d.merges.map (·.dest), ¬ f.Reads v) :
    Simulation AnyPace f (d.apply f) fun _ => d.Tracks f where
  start args := by
    obtain ⟨b, hb⟩ := Func.exists_block.1 wf.entry_mem
    have hb' : (d.apply f).block? (d.apply f).entry = some (d.block f.entry b) :=
      block?_of_block? h.fresh hb
    have hstart' := Func.start_eq hb' args
    rw [(h.block_spec wf hb).2.1] at hstart'
    exact ⟨_, _, Func.start_eq hb args, hstart',
      fun _ => .mk Graph.reachable_entry hb (List.Subset.refl _) fun _ _ => rfl⟩
  step fr fr' w hr := by
    cases hr with
    | @mk l b rest env env' hl hb hrest hagree =>
      cases rest with
      | cons i rest =>
        obtain ⟨hmem, hrest⟩ := List.cons_subset.1 hrest
        have hi := b.isPhi_of_mem_body hmem
        have heff : i.effect env'.value w = i.effect env.value w :=
          Instr.effect_congr hi w fun x hx =>
          Env.value_congr fun v hv => hagree v (.instr hl hb hmem (hv ▸ hx))
        have hname : f.name = (d.apply f).name := rfl
        refine (agree_instr_self hname hi heff fun n => ?_).match pace_any fun _ _ _ hab => hab
        exact .mk hl hb hrest fun v hv => Env.getD_write_congr (hagree v hv) i.dest? n
      | nil =>
        obtain ⟨t, ht⟩ := Option.ne_none_iff_exists'.1 (wf.closed hb)
        have hsame : t.exit env'.value = t.exit env.value := Terminator.exit_congr fun x hx =>
          Env.value_congr fun v hv => hagree v (.term hl hb ht (hv ▸ hx))
        by_cases hdiv : l ∈ d.sources ∧ t.exit env.value = .goto d.target
        · exact h.detour_step wf hread hl hb ht hdiv.1 hdiv.2 (hsame.trans hdiv.2) hagree
        · exact h.other_step wf hl hb ht hsame hdiv hagree

end Runs

/-- In SSA form the detour does not show. -/
theorem Fits.interchangeable (h : d.Fits f) (hf : f.InSsa) : f.Interchangeable (d.apply f) :=
  (h.simulation hf.wf fun _ hv => (h.newIn hf.counted).not_reads hf.form hv).interchangeable
    pace_any

end Detour

end ThreeAddress
