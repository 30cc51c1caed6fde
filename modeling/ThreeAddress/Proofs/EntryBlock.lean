import Mathlib.Data.List.TakeWhile
import ThreeAddress.Proofs.Reachability

/-!
# An entry without predecessors

The preparation of a function for SSA form: what cannot be reached goes, the entry gets a block in
front of it if something jumps to it, and the predecessor lists are rebuilt. Each activation takes
one step more if there is a new block (`prepare_delays`).
-/

namespace ThreeAddress

variable {b : Block}

/-! ## Functions without phis -/

/-- The function has no phis. -/
def Func.PhiFree (f : Func) : Prop := ∀ l b, f.block? l = some b → ∀ i ∈ b.instrs, i.isPhi = false

instance (f : Func) : Decidable f.PhiFree :=
  decidable_of_iff (∀ e ∈ f.blocks.entries, ∀ i ∈ e.2.instrs, i.isPhi = false)
    ⟨fun h l b hb => h (l, b) (Table.get?_eq_some_iff.1 hb),
      fun h e he => h e.1 e.2 (Table.get?_eq_some_iff.2 he)⟩

theorem Block.of_phiFree (h : ∀ i ∈ b.instrs, i.isPhi = false) :
    b.phis = [] ∧ b.body = b.instrs ∧ b.Tidy :=
  Block.tidy_of_eq rfl h fun _ hφ => (nomatch hφ)

namespace Func

variable {f g : Func} {l label : Label} {keep : Label → Bool} {xs : List Label} {b' : Block}

theorem PhiFree.tidy (h : f.PhiFree) (hb : f.block? l = some b) : b.Tidy :=
  (Block.of_phiFree (h l b hb)).2.2

theorem PhiFree.keepBlocks (h : f.PhiFree) (keep : Label → Bool) : (f.keepBlocks keep).PhiFree := by
  intro l b' hb' i hi
  obtain ⟨_, b, hb, rfl⟩ := of_block?_keepBlocks hb'
  have hinstrs : (b.keepPreds keep).instrs = b.instrs := mapLeadingPhis_of_phiFree _ (h l b hb)
  rw [hinstrs] at hi
  exact h l b hb i hi

/-! ## Rebuilding predecessor lists -/

/-- The function with the predecessor lists that the terminators give. -/
def relinked (f : Func) : Func :=
  { f with blocks := f.blocks.mapValues fun l b => { b with preds := f.sourcesOf l } }

theorem block?_relinked (f : Func) (l : Label) :
    f.relinked.block? l = (f.block? l).map fun b => { b with preds := f.sourcesOf l } :=
  Table.get?_mapValues f.blocks _ l

theorem of_block?_relinked (h : f.relinked.block? l = some b') :
    ∃ b, f.block? l = some b ∧ b' = { b with preds := f.sourcesOf l } := by
  rw [block?_relinked] at h
  obtain ⟨b, hb, rfl⟩ := Option.map_eq_some_iff.1 h
  exact ⟨b, hb, rfl⟩

theorem graph_relinked (f : Func) : f.relinked.graph = f.graph := by
  unfold graph relinked
  congr 1
  apply Table.ext_entries
  simp [Table.mapValues, Function.comp_def, Block.successors]

/-- The sources of the edges to `l` among those that leave some blocks. -/
theorem sources_of_edges {entries : List (Label × Block)} (hname : ∀ e ∈ entries, e.2.name = e.1)
    (l : Label) :
    (((entries.map Prod.snd).flatMap fun b => b.successors.map fun s => (b.name, s)).filter
      (·.2 = l)).map Prod.fst
      = (entries.filter fun e => decide (l ∈ e.2.successors)).map Prod.fst := by
  induction entries with
  | nil => rfl
  | cons e rest ih =>
    have ih := ih fun e' he' => hname e' (.tail _ he')
    have he := hname e (.head _)
    have hhere : ((e.2.successors.map fun s => (e.2.name, s)).filter (·.2 = l)).map Prod.fst
        = if l ∈ e.2.successors then [e.1] else [] := by
      rw [List.filter_map, List.map_map]
      have hcount := (nodup_successors e.2).count (a := l)
      have hfilter : e.2.successors.filter ((fun x : Label × Label => decide (x.2 = l)) ∘ fun s =>
          (e.2.name, s))
          = List.replicate (e.2.successors.count l) l := by
        rw [← List.filter_beq]
        apply List.filter_congr
        intro s _
        rw [Bool.eq_iff_iff]
        simp
      rw [hfilter, hcount, he]
      split <;> rfl
    rw [List.map_cons, List.flatMap_cons, List.filter_append, List.map_append, ih, hhere,
      List.filter_cons]
    split
    · rw [if_pos (by simpa using ‹_›)]
      rfl
    · rw [if_neg (by simpa using ‹_›)]
      rfl

theorem WellFormed.setPreds_edges (wf : f.WellFormed) : f.setPreds f.edges = f.relinked := by
  have hname : ∀ e ∈ f.blocks.entries, e.2.name = e.1 :=
    fun e he => wf.name_eq (Table.get?_eq_some_iff.2 he)
  unfold setPreds relinked
  congr 2
  funext l b
  congr 1
  show ((f.blocks.values.flatMap _).filter _).map _ = _
  unfold Table.values
  rw [sources_of_edges hname l]
  unfold sourcesOf Graph.predsWithin graph
  simp only [Table.mapValues, List.filter_map, List.map_map]
  congr 1
  apply List.filter_congr
  intro e he
  have hkey : e.1 ∈ f.blocks.keys := List.mem_map_of_mem he
  simp [hkey]

/-- Rebuilding the predecessor lists succeeds if all targets are there. -/
theorem WellFormed.link (wf : f.WellFormed) : Edit.link.Yields f () f.relinked := by
  have hknown : (f.edges.takeWhile fun e => decide (e.2 ∈ f.blocks)) = f.edges := by
    refine List.takeWhile_eq_self_iff.2 fun e he => ?_
    obtain ⟨b, hb, he⟩ := List.mem_flatMap.1 he
    obtain ⟨s, hs, rfl⟩ := List.mem_map.1 he
    obtain ⟨l, hl⟩ := Table.mem_values.1 hb
    exact decide_eq_true (wf.targets hl s hs)
  unfold Edit.link
  refine (Edit.yields_get f).bind ?_
  rw [hknown]
  refine (Edit.yields_modify _ f).bind ?_
  rw [List.getElem?_eq_none (Nat.le_refl _), wf.setPreds_edges]
  exact Edit.yields_pure _ _

theorem PhiFree.relinked (hphi : f.PhiFree) : f.relinked.PhiFree := by
  intro l b' hb'
  obtain ⟨b, hb, rfl⟩ := of_block?_relinked hb'
  exact hphi l b hb

theorem WellFormed.relinked (wf : f.WellFormed) (hphi : f.PhiFree) : f.relinked.WellFormed := by
  apply wellFormed_of_mem_preds
  · exact Table.mem_mapValues.2 wf.entry_mem
  · intro l b' hb'
    obtain ⟨b, hb, rfl⟩ := of_block?_relinked hb'
    show b.name = l
    exact wf.name_eq hb
  · intro l b' hb'
    obtain ⟨b, hb, rfl⟩ := of_block?_relinked hb'
    show b.term ≠ none
    exact wf.closed hb
  · intro l b' hb' s hs
    obtain ⟨b, hb, rfl⟩ := of_block?_relinked hb'
    exact Table.mem_mapValues.2 (wf.targets hb s hs)
  · intro l b' hb'
    obtain ⟨b, hb, rfl⟩ := of_block?_relinked hb'
    exact f.nodup_sourcesOf l
  · intro l b' hb' p
    obtain ⟨b, hb, rfl⟩ := of_block?_relinked hb'
    rw [graph_relinked]
    exact mem_sourcesOf
  · intro l b' hb'
    exact hphi.relinked.tidy hb'

theorem WellFormed.relinked_lockstep (wf : f.WellFormed) :
    Lockstep f f.relinked 0 (SamePlace f f.relinked) where
  start args := by
    obtain ⟨b, hb⟩ := exists_block.1 wf.entry_mem
    have hb' : f.relinked.block? f.relinked.entry
        = some { b with preds := f.sourcesOf f.entry } := by
      show f.relinked.block? f.entry = _
      rw [block?_relinked, hb]
      rfl
    refine ⟨_, _, _, start_eq hb args, start_eq hb' args, fun _ => .refl, ?_⟩
    exact .mk Graph.reachable_entry hb (List.Subset.refl _) fun _ _ => rfl
  step fr fr' w hr := by
    refine samePlace_step wf (show f.relinked.name = f.name from rfl) (fun {l b} hl hb => ?_) w hr
    exact ⟨{ b with preds := f.sourcesOf l }, by rw [block?_relinked, hb]; rfl, rfl, rfl,
      fun _ _ _ _ => rfl⟩

/-! ## A new entry -/

/-- The function with a new block in front of its entry. -/
def withEntry (f : Func) (label : Label) : Func :=
  let f' := f.modifyBlock f.entry (Edit.addEntryPred f.params label)
  { f' with
    blocks := f'.blocks.insertBefore f.entry label { name := label, term := some (.jump f.entry) }
    entry := label }

theorem block?_withEntry (fresh : label ∉ f.blocks) (l : Label) :
    (f.withEntry label).block? l
      = if l = label then some { name := label, term := some (.jump f.entry) }
        else if l = f.entry then (f.block? l).map (Edit.addEntryPred f.params label)
        else f.block? l := by
  show (Table.insertBefore _ _ _ _).get? l = _
  have fresh' : label ∉ (f.modifyBlock f.entry (Edit.addEntryPred f.params label)).blocks := by
    intro h
    exact fresh (Table.mem_modify.1 h)
  rw [Table.get?_insertBefore fresh', show (f.modifyBlock f.entry _).blocks.get? l
    = _ from block?_modifyBlock _ _ _ _]

/-- A block of the function with a new entry: the old entry knows the new one. -/
def ledIn (f : Func) (label l : Label) (b : Block) : Block :=
  if l = f.entry then Edit.addEntryPred f.params label b else b

section WithEntry

theorem ledIn_spec (f : Func) (label l : Label) (b : Block) : (f.ledIn label l b).name = b.name ∧
    (f.ledIn label l b).term = b.term ∧ (f.ledIn label l b).preds = b.preds ++
    if l = f.entry then [label] else [] := by
  unfold ledIn
  split
  · exact ⟨rfl, rfl, rfl⟩
  · exact ⟨rfl, rfl, (List.append_nil _).symm⟩

theorem successors_ledIn (f : Func) (label l : Label) (b : Block) :
    (f.ledIn label l b).successors = b.successors := by
  unfold Block.successors
  rw [(f.ledIn_spec label l b).2.1]

theorem tidy_ledIn (f : Func) (label l : Label) (h : b.Tidy) : (f.ledIn label l b).Tidy := by
  unfold ledIn
  split
  · refine (h.mapPhis _ (b.preds ++ [label]) fun φ hφ => ?_).2.2
    rw [← h.labels_eq φ hφ]
    exact List.map_append
  · exact h

theorem PhiFree.ledIn (hphi : f.PhiFree) (hb : f.block? l = some b) (label : Label) :
    f.ledIn label l b = { b with preds := b.preds ++ if l = f.entry then [label] else [] } := by
  unfold Func.ledIn
  split
  · simp only [Edit.addEntryPred, Block.mapPhis, mapLeadingPhis_of_phiFree _ (hphi l b hb)]
  · rw [List.append_nil]

/-- The blocks of the function with a new entry. -/
theorem of_block?_withEntry (fresh : label ∉ f.blocks)
    (h : (f.withEntry label).block? l = some b') :
    l = label ∧ b' = { name := label, term := some (.jump f.entry) } ∨
      ∃ b, f.block? l = some b ∧ b' = f.ledIn label l b := by
  rw [block?_withEntry fresh] at h
  unfold ledIn
  split at h
  · rename_i hl
    cases h
    exact .inl ⟨hl, rfl⟩
  · split at h
    · rename_i hl
      obtain ⟨b, hb, rfl⟩ := Option.map_eq_some_iff.1 h
      exact .inr ⟨b, hb, (if_pos hl).symm⟩
    · rename_i hl
      exact .inr ⟨b', h, (if_neg hl).symm⟩

theorem block?_withEntry_of_block? (fresh : label ∉ f.blocks) (hb : f.block? l = some b) :
    (f.withEntry label).block? l = some (f.ledIn label l b) := by
  have hl : l ≠ label := fun e => fresh (e ▸ mem_blocks hb)
  rw [block?_withEntry fresh, if_neg hl, ledIn]
  split
  · rw [hb, Option.map_some]
  · rw [hb]

theorem next_withEntry (fresh : label ∉ f.blocks) (l : Label) :
    (f.withEntry label).graph.next l = if l = label then [f.entry] else f.graph.next l := by
  split
  · rename_i hl
    have : (f.withEntry label).block? l = some { name := label, term := some (.jump f.entry) } := by
      rw [block?_withEntry fresh, if_pos hl]
    rw [next_graph this]
    rfl
  · rename_i hl
    cases hb : f.block? l with
    | some b =>
      rw [next_graph hb, next_graph (block?_withEntry_of_block? fresh hb), successors_ledIn]
    | none =>
      rw [next_graph_of_none hb, next_graph_of_none]
      rw [block?_withEntry fresh, if_neg hl, hb]
      simp

theorem mem_withEntry (fresh : label ∉ f.blocks) :
    l ∈ (f.withEntry label).blocks ↔ l = label ∨ l ∈ f.blocks := by
  rw [exists_block, block?_withEntry fresh, exists_block]
  by_cases hl : l = label
  · simp [hl]
  · rw [if_neg hl]
    split
    · simp [hl]
    · simp [hl]

theorem PhiFree.withEntry (hphi : f.PhiFree) (fresh : label ∉ f.blocks) :
    (f.withEntry label).PhiFree := by
  intro l b' hb'
  rcases of_block?_withEntry fresh hb' with ⟨rfl, rfl⟩ | ⟨b, hb, rfl⟩
  · intro i hi
    cases hi
  · rw [hphi.ledIn hb]
    exact hphi l b hb

theorem WellFormed.withEntry (wf : f.WellFormed) (fresh : label ∉ f.blocks) :
    (f.withEntry label).WellFormed := by
  have hnext := next_withEntry (f := f) fresh
  have hlabel : ∀ p, label ∉ f.graph.next p := fun p hp => fresh (wf.mem_of_next hp)
  apply wellFormed_of_mem_preds
  · exact (mem_withEntry fresh).2 (.inl rfl)
  · intro l b' hb'
    rcases of_block?_withEntry fresh hb' with ⟨rfl, rfl⟩ | ⟨b, hb, rfl⟩
    · rfl
    · rw [(f.ledIn_spec label l b).1]
      exact wf.name_eq hb
  · intro l b' hb'
    rcases of_block?_withEntry fresh hb' with ⟨rfl, rfl⟩ | ⟨b, hb, rfl⟩
    · intro h
      cases h
    · rw [(f.ledIn_spec label l b).2.1]
      exact wf.closed hb
  · intro l b' hb' s hs
    rcases of_block?_withEntry fresh hb' with ⟨rfl, rfl⟩ | ⟨b, hb, rfl⟩
    · have : s = f.entry := List.mem_singleton.1 hs
      exact (mem_withEntry fresh).2 (.inr (this ▸ wf.entry_mem))
    · rw [successors_ledIn] at hs
      exact (mem_withEntry fresh).2 (.inr (wf.targets hb s hs))
  · intro l b' hb'
    rcases of_block?_withEntry fresh hb' with ⟨rfl, rfl⟩ | ⟨b, hb, rfl⟩
    · exact List.nodup_nil
    · rw [(f.ledIn_spec label l b).2.2]
      split
      · rw [List.nodup_append]
        refine ⟨wf.nodup_preds hb, by simp, fun p hp q hq => ?_⟩
        rw [List.mem_singleton.1 hq]
        rintro rfl
        obtain ⟨c, hc, _⟩ := block_of_mem_next ((wf.mem_preds hb).1 hp)
        exact fresh (mem_blocks hc)
      · rw [List.append_nil]
        exact wf.nodup_preds hb
  · intro l b' hb' p
    rw [hnext]
    rcases of_block?_withEntry fresh hb' with ⟨rfl, rfl⟩ | ⟨b, hb, rfl⟩
    · show p ∈ [] ↔ _
      split
      · have : l ≠ f.entry := fun e => fresh (e ▸ wf.entry_mem)
        simp [this]
      · simp [hlabel p]
    · rw [(f.ledIn_spec label l b).2.2, List.mem_append, wf.mem_preds hb]
      by_cases hp : p = label
      · subst hp
        have hnone : f.block? p = none := Table.get?_eq_none_iff.2 fresh
        rw [if_pos rfl, next_graph_of_none hnone, List.mem_singleton]
        by_cases hl : l = f.entry <;> simp [hl]
      · rw [if_neg hp]
        by_cases hl : l = f.entry <;> simp [hl, hp]
  · intro l b' hb'
    rcases of_block?_withEntry fresh hb' with ⟨rfl, rfl⟩ | ⟨b, hb, rfl⟩
    · exact (Block.of_phiFree fun i hi => by cases hi).2.2
    · exact f.tidy_ledIn label l (wf.tidy hb)

theorem WellFormed.trail_withEntry (wf : f.WellFormed) (fresh : label ∉ f.blocks)
    (h : f.graph.Trail xs l) : (f.withEntry label).graph.Trail (xs ++ [label]) l := by
  induction h with
  | entry =>
    refine .step .entry ?_
    show f.entry ∈ (f.withEntry label).graph.next label
    rw [next_withEntry fresh, if_pos rfl]
    exact .head _
  | @step xs a b hxs hb ih =>
    have ha : a ≠ label := fun e => fresh (e ▸ mem_graph.1 (wf.graph_closed a ⟨xs, hxs⟩))
    refine .step ih ?_
    rw [next_withEntry fresh, if_neg ha]
    exact hb

/-- A trail starts at the new entry and goes on as before. -/
theorem WellFormed.of_trail_withEntry (wf : f.WellFormed) (fresh : label ∉ f.blocks)
    {ys : List Label} (h : (f.withEntry label).graph.Trail ys l) :
    (l = label ∧ ys = [label]) ∨ ∃ xs, ys = xs ++ [label] ∧ f.graph.Trail xs l := by
  induction h with
  | entry => exact .inl ⟨rfl, rfl⟩
  | @step ys a b _ hb ih =>
    rw [next_withEntry fresh] at hb
    rcases ih with ⟨rfl, rfl⟩ | ⟨xs, rfl, hxs⟩
    · rw [if_pos rfl] at hb
      cases List.mem_singleton.1 hb
      exact .inr ⟨[f.entry], rfl, .entry⟩
    · have ha : a ≠ label := fun e => fresh (e ▸ mem_graph.1 (wf.graph_closed a ⟨xs, hxs⟩))
      rw [if_neg ha] at hb
      exact .inr ⟨b :: xs, rfl, .step hxs hb⟩

theorem WellFormed.reachable_withEntry (wf : f.WellFormed) (fresh : label ∉ f.blocks)
    (h : ∀ l ∈ f.blocks, f.graph.Reachable l) :
    ∀ l ∈ (f.withEntry label).blocks, (f.withEntry label).graph.Reachable l := by
  intro l hl
  rcases (mem_withEntry fresh).1 hl with rfl | hl
  · exact Graph.reachable_entry
  · obtain ⟨xs, hxs⟩ := h l hl
    exact ⟨_, wf.trail_withEntry fresh hxs⟩

/-- The new block costs each activation one step. -/
theorem WellFormed.withEntry_lockstep (wf : f.WellFormed) (hphi : f.PhiFree)
    (fresh : label ∉ f.blocks) :
    Lockstep f (f.withEntry label) 1 (SamePlace f (f.withEntry label)) where
  start args := by
    obtain ⟨b, hb⟩ := exists_block.1 wf.entry_mem
    have hnew : (f.withEntry label).block? (f.withEntry label).entry
        = some { name := label, term := some (.jump f.entry) } := by
      show (f.withEntry label).block? label = _
      rw [block?_withEntry fresh, if_pos rfl]
    have hold := block?_withEntry_of_block? fresh hb
    rw [hphi.ledIn hb] at hold
    have hphis : b.phis = [] := (Block.of_phiFree (hphi _ _ hb)).1
    refine ⟨_, _, ⟨f.withEntry label, f.entry, b.body, b.term, bindParams f args⟩, start_eq hb args,
      start_eq hnew args, fun w => .one ?_, ?_⟩
    · show Frame.goto ⟨f.withEntry label, label, [], _, bindParams f args⟩ w f.entry = _
      have hlabels : ∀ φ ∈ b.phis, label ∈ φ.labels := by simp [hphis]
      have henter := Frame.enter_eq hold hlabels (bindParams f args)
      simp only [Frame.goto, henter]
      show Act.go ⟨_, _, _, _, (bindParams f args).assign (phiAssignments _ label b.phis)⟩ w = _
      rw [hphis]
      rfl
    · exact .mk Graph.reachable_entry hb (List.Subset.refl _) fun _ _ => rfl
  step fr fr' w hr := by
    refine samePlace_step wf (show (f.withEntry label).name = f.name from rfl)
      (fun {l b} hl hb => ?_) w hr
    refine ⟨_, block?_withEntry_of_block? fresh hb, ?_⟩
    rw [hphi.ledIn hb]
    exact ⟨rfl, rfl, fun _ _ _ _ => rfl⟩

end WithEntry

/-- Something that can be reached jumps to the entry. -/
def EntryIsTarget (f : Func) : Prop := ∃ p, f.graph.Reachable p ∧ f.entry ∈ f.graph.next p

theorem WellFormed.ensureEntry_of_preds (wf : f.WellFormed) (hb : f.block? f.entry = some b)
    (hpreds : b.preds ≠ []) :
    Edit.ensureEntry.Yields f (some (f.freshLabel "entry"))
      (f.withEntry (f.freshLabel "entry")) := by
  unfold Edit.ensureEntry
  refine (Edit.yields_get f).bind ?_
  simp only [hb]
  rw [if_neg (by simpa using hpreds)]
  refine (Edit.yields_modify _ f).bind ((Edit.yields_emit _ _).bind ?_)
  rw [wf.name_eq hb]
  exact Edit.yields_pure _ _

theorem ensureEntry_of_no_preds (hb : f.block? f.entry = some b) (hpreds : b.preds = []) :
    Edit.ensureEntry.Yields f none f := by
  unfold Edit.ensureEntry
  refine (Edit.yields_get f).bind ?_
  simp only [hb]
  rw [if_pos (by simp [hpreds])]
  exact Edit.yields_pure _ _

/-! ## The whole preparation -/

/-- `g` goes through the blocks `front`, which only jump, and then through the code of `f`. -/
structure LedThrough (f g : Func) (front : List Label) : Prop where
  apart : ∀ {l}, f.graph.Reachable l → l ∉ front
  code : ∀ {l b'}, g.block? l = some b' →
    (l ∈ front ∧ b'.instrs = [] ∧ ∃ s, b'.term = some (.jump s)) ∨
    l ∉ front ∧ ∃ b, f.block? l = some b ∧ b'.instrs = b.instrs ∧ b'.term = b.term
  trail : ∀ {xs l}, f.graph.Trail xs l → g.graph.Trail (xs ++ front) l
  of_trail : ∀ {ys l}, g.graph.Trail ys l → l ∈ front ∨ ∃ xs, ys = xs ++ front ∧ f.graph.Trail xs l

namespace LedThrough

variable {front : List Label}

/-- Blocks that can be reached keep their code. -/
theorem block (h : LedThrough f g front) (wf : g.WellFormed) (hl : f.graph.Reachable l)
    (hb : f.block? l = some b) :
    ∃ b', g.block? l = some b' ∧ b'.instrs = b.instrs ∧ b'.term = b.term := by
  obtain ⟨xs, hxs⟩ := hl
  obtain ⟨b', hb'⟩ := wf.block_of_reachable ⟨_, h.trail hxs⟩
  rcases h.code hb' with ⟨hfront, _⟩ | ⟨_, b₁, hb₁, hsame⟩
  · exact absurd hfront (h.apart ⟨xs, hxs⟩)
  · cases hb.symm.trans hb₁
    exact ⟨b', hb', hsame⟩

theorem relinked (h : LedThrough f g front) : LedThrough f g.relinked front where
  apart := h.apart
  code hb' := by
    obtain ⟨b, hb, rfl⟩ := of_block?_relinked hb'
    have hcode := h.code hb
    exact hcode
  trail ht := by
    rw [graph_relinked]
    exact h.trail ht
  of_trail ht := by
    rw [graph_relinked] at ht
    exact h.of_trail ht

/-- A new entry in front. -/
theorem withEntry (h : LedThrough f g []) (wf : g.WellFormed) (hphi : g.PhiFree)
    (fresh : label ∉ g.blocks) : LedThrough f (g.withEntry label) [label] where
  apart {l} hl hmem := by
    obtain ⟨xs, hxs⟩ := hl
    refine fresh (mem_graph.1 (wf.graph_closed label ⟨xs, ?_⟩))
    rw [← List.mem_singleton.1 hmem, ← List.append_nil xs]
    exact h.trail hxs
  code {l b'} hb' := by
    rcases of_block?_withEntry fresh hb' with ⟨rfl, rfl⟩ | ⟨c, hc, rfl⟩
    · exact .inl ⟨.head _, rfl, _, rfl⟩
    · rw [hphi.ledIn hc]
      rcases h.code hc with ⟨hnil, _⟩ | ⟨_, hsame⟩
      · cases hnil
      · refine .inr ⟨fun hmem => fresh ?_, hsame⟩
        rw [← List.mem_singleton.1 hmem]
        exact mem_blocks hc
  trail {xs l} ht := by
    have htrail := h.trail ht
    rw [List.append_nil] at htrail
    exact wf.trail_withEntry fresh htrail
  of_trail {ys l} ht := by
    rcases wf.of_trail_withEntry fresh ht with ⟨rfl, _⟩ | ⟨xs, rfl, hxs⟩
    · exact .inl (.head _)
    · rcases h.of_trail hxs with hnil | ⟨zs, rfl, hzs⟩
      · cases hnil
      · exact .inr ⟨zs, by rw [List.append_nil], hzs⟩

end LedThrough

/-- What phi placement starts from: `g` has the code of `f`, all of it can be reached, and nothing
jumps to its entry. -/
structure Prepared (f g : Func) : Prop where
  wf : g.WellFormed
  phiFree : g.PhiFree
  reachable : ∀ l ∈ g.blocks, g.graph.Reachable l
  entry_first : ∀ l, g.entry ∉ g.graph.next l
  name_eq : g.name = f.name
  params_eq : g.params = f.params
  ssa_eq : g.ssa = f.ssa
  led : ∃ front, LedThrough f g front

theorem Prepared.relinked (h : Prepared f g) : Prepared f g.relinked where
  wf := h.wf.relinked h.phiFree
  phiFree := h.phiFree.relinked
  reachable l hl := by
    rw [graph_relinked]
    exact h.reachable l (Table.mem_mapValues.1 hl)
  entry_first l := by
    rw [graph_relinked]
    exact h.entry_first l
  name_eq := h.name_eq
  params_eq := h.params_eq
  ssa_eq := h.ssa_eq
  led := by
    obtain ⟨front, hled⟩ := h.led
    exact ⟨front, hled.relinked⟩

/-- The part of a function that can be reached. -/
structure ReachablePart (f g : Func) : Prop where
  wf : g.WellFormed
  phiFree : g.PhiFree
  reachable : ∀ l ∈ g.blocks, g.graph.Reachable l
  name_eq : g.name = f.name
  params_eq : g.params = f.params
  ssa_eq : g.ssa = f.ssa
  led : LedThrough f g []
  target_iff : f.EntryIsTarget ↔ ∃ p, g.entry ∈ g.graph.next p

theorem trail_keepReachable (keep_iff : ∀ l, keep l = true ↔ f.graph.Reachable l) :
    (f.keepBlocks keep).graph.Trail xs l ↔ f.graph.Trail xs l := by
  have hentry : (f.keepBlocks keep).graph.entry = f.graph.entry := rfl
  refine Graph.trail_iff_of_next hentry fun l hl => ?_
  rw [next_keepBlocks, if_pos ((keep_iff l).2 hl)]

/-- Without what cannot be reached, the function is well-formed and all of it can be reached. -/
theorem WellFormed.keepReachable (wf : f.WellFormed)
    (keep_iff : ∀ l, keep l = true ↔ f.graph.Reachable l) : (f.keepBlocks keep).WellFormed ∧
      ∀ l ∈ (f.keepBlocks keep).blocks, (f.keepBlocks keep).graph.Reachable l := by
  refine ⟨wf.keepBlocks ((keep_iff _).2 Graph.reachable_entry) fun l s hl hs => ?_, fun l hl => ?_⟩
  · exact (keep_iff s).2 (((keep_iff l).1 hl).step hs)
  · obtain ⟨xs, hxs⟩ := (keep_iff l).1 (mem_keepBlocks.1 hl).2
    exact ⟨xs, (trail_keepReachable keep_iff).2 hxs⟩

theorem WellFormed.reachablePart (wf : f.WellFormed) (hphi : f.PhiFree) :
    ∃ dead g, Edit.removeUnreachable.Yields f dead g ∧ ReachablePart f g ∧ f.Delays g 0 := by
  obtain ⟨dead, live, mem_live, hremove⟩ := wf.removeUnreachable
  generalize hkeep : (fun l => decide (l ∈ live)) = keep at hremove
  have keep_iff : ∀ l, keep l = true ↔ f.graph.Reachable l := by
    intro l
    rw [← hkeep, ← mem_live l]
    simp
  obtain ⟨hwf, hreach⟩ := wf.keepReachable keep_iff
  refine ⟨dead, _, hremove, ⟨hwf, hphi.keepBlocks keep, hreach, rfl, rfl, rfl, ?_, ?_⟩,
    (wf.keepBlocks_lockstep fun l hl => (keep_iff l).2 hl).delays⟩
  · refine ⟨fun _ => List.not_mem_nil, fun {l b'} hb' => ?_, fun {xs l} ht => ?_,
      fun {ys l} ht => ?_⟩
    · obtain ⟨_, b, hb, rfl⟩ := of_block?_keepBlocks hb'
      exact .inr ⟨List.not_mem_nil, b, hb, mapLeadingPhis_of_phiFree _ (hphi l b hb), rfl⟩
    · rw [List.append_nil]
      exact (trail_keepReachable keep_iff).2 ht
    · exact .inr ⟨ys, (List.append_nil ys).symm, (trail_keepReachable keep_iff).1 ht⟩
  · refine exists_congr fun p => ?_
    rw [next_keepBlocks, ← keep_iff p]
    by_cases hk : keep p = true
    · simp only [hk, true_and, if_true]
      exact Iff.rfl
    · simp [hk]

/-- If something jumps to the entry, a new one is made; otherwise the function stays as it is. -/
theorem ReachablePart.ensureEntry (h : ReachablePart f g) :
    ∃ fresh g', Edit.ensureEntry.Yields g fresh g' ∧ Prepared f g' ∧
      (f.EntryIsTarget → g.Delays g' 1) ∧ (¬ f.EntryIsTarget → g.Delays g' 0) := by
  obtain ⟨b, hb⟩ := exists_block.1 h.wf.entry_mem
  have htarget : f.EntryIsTarget ↔ b.preds ≠ [] := by
    rw [h.target_iff, ← List.isEmpty_eq_false_iff, List.isEmpty_eq_false_iff_exists_mem]
    exact exists_congr fun p => (h.wf.mem_preds hb).symm
  by_cases hpreds : b.preds = []
  · have hnot : ¬ f.EntryIsTarget := fun ht => htarget.1 ht hpreds
    refine ⟨none, g, ensureEntry_of_no_preds hb hpreds, ?_, fun ht => absurd ht hnot,
      fun _ => h.wf.delays_self⟩
    exact
      { wf := h.wf
        phiFree := h.phiFree
        reachable := h.reachable
        entry_first := fun l hl => hnot (h.target_iff.2 ⟨l, hl⟩)
        name_eq := h.name_eq
        params_eq := h.params_eq
        ssa_eq := h.ssa_eq
        led := ⟨[], h.led⟩ }
  · have fresh := g.freshLabel_not_mem "entry"
    refine ⟨_, _, h.wf.ensureEntry_of_preds hb hpreds, ?_, fun _ => ?_,
      fun hnot => absurd (htarget.2 hpreds) hnot⟩
    · generalize g.freshLabel "entry" = label at fresh
      exact
        { wf := h.wf.withEntry fresh
          phiFree := h.phiFree.withEntry fresh
          reachable := h.wf.reachable_withEntry fresh h.reachable
          entry_first := fun l hl => by
            rw [next_withEntry fresh] at hl
            split at hl
            · have : label = g.entry := List.mem_singleton.1 hl
              exact fresh (this ▸ h.wf.entry_mem)
            · exact fresh (h.wf.mem_of_next hl)
          name_eq := h.name_eq
          params_eq := h.params_eq
          ssa_eq := h.ssa_eq
          led := ⟨[label], h.led.withEntry h.wf h.phiFree fresh⟩ }
    · exact (h.wf.withEntry_lockstep h.phiFree fresh).delays

/-- The preparation succeeds, and costs one step per activation if it has to make a new entry. -/
theorem WellFormed.prepare (wf : f.WellFormed) (hphi : f.PhiFree) :
    ∃ dead g fresh g' g'', Edit.removeUnreachable.Yields f dead g ∧
      Edit.ensureEntry.Yields g fresh g' ∧
      Edit.link.Yields g' () g'' ∧ Prepared f g'' ∧
      (f.EntryIsTarget → f.Delays g'' 1) ∧ (¬ f.EntryIsTarget → f.Delays g'' 0) := by
  obtain ⟨dead, g, hremove, hpart, hdelay⟩ := wf.reachablePart hphi
  obtain ⟨fresh, g', hensure, hprep, hone, hnone⟩ := hpart.ensureEntry
  have hlink : g'.Delays g'.relinked 0 := hprep.wf.relinked_lockstep.delays
  refine ⟨dead, g, fresh, g', g'.relinked, hremove, hensure, hprep.wf.link, hprep.relinked,
    fun ht => ?_, fun ht => ?_⟩
  · exact (hdelay.trans (hone ht)).trans hlink
  · exact (hdelay.trans (hnone ht)).trans hlink

end Func

end ThreeAddress
