import ThreeAddress.Proofs.EdgeBlocks

/-!
# Edits of the graph

The edits that change edges keep terminators, predecessor lists and phis in step: whatever
well-formed function they start from, with or without phis, they leave a well-formed one, or refuse
and leave the function as it was (`GraphEdit.safe`). So after any number of edits the check of the
graph still accepts the function (`runAll_checkCfg`).
-/

namespace ThreeAddress

/-! ## Edits that are made in full or not at all -/

/-- The causes for which an edit of the graph refuses: a block or an edge is not there, a block does
not branch, or nothing enters a loop. -/
def Fault.Refuses (f : Func) (e : Fault) : Prop :=
  (∃ l, e = .malformed (.unknownBlock f.name l)) ∨
    (∃ src dst, e = .violation (.noEdge f.name src dst)) ∨
    (∃ l, e = .violation (.notBranch f.name l)) ∨ ∃ header,
    e = .malformed (.noEnteringEdge f.name header)

namespace Edit

variable {α β : Type} {m : Edit α} {f f' : Func} {l : Label} {e : Fault}

/-- The edit leaves a well-formed function; if it fails, it does so for one of the known causes and
has changed nothing. -/
structure Safe (m : Edit α) (f : Func) : Prop where
  wellFormed : (m f).func.WellFormed
  unchanged : ∀ e, (m f).result = .error e → e.Refuses f ∧ (m f).func = f

theorem Yields.safe {a : α} (h : m.Yields f a f') (wf : f'.WellFormed) : m.Safe f where
  wellFormed := h.2 ▸ wf
  unchanged e he := by
    rw [h.1] at he
    cases he

/-- The edit refuses, and has changed nothing. -/
structure Fails (m : Edit α) (f : Func) : Prop where
  result : ∃ e, (m f).result = .error e ∧ e.Refuses f
  func : (m f).func = f

theorem Fails.safe (h : m.Fails f) (wf : f.WellFormed) : m.Safe f where
  wellFormed := by
    rw [h.func]
    exact wf
  unchanged e he := by
    obtain ⟨e', he', hrefuses⟩ := h.result
    rw [he'] at he
    cases he
    exact ⟨hrefuses, h.func⟩

theorem fails_fail (h : e.Refuses f) : (fail e : Edit α).Fails f := ⟨⟨e, rfl, h⟩, rfl⟩

theorem fails_ask {g : Func → Except Fault α} (hg : g f = .error e) (h : e.Refuses f) :
    (ask g).Fails f :=
  ⟨⟨e, hg, h⟩, rfl⟩

theorem fails_applyWith {g : Func → Except Fault (α × Func)} (hg : g f = .error e)
    (h : e.Refuses f) : (applyWith g).Fails f := by
  refine ⟨⟨e, ?_, h⟩, ?_⟩
  · simp [applyWith, hg]
  · simp [applyWith, hg]

/-- What would follow a refusal is not done. -/
theorem Fails.bind (h : m.Fails f) (k : α → Edit β) : (m >>= k).Fails f := by
  obtain ⟨e, he, hrefuses⟩ := h.result
  refine ⟨⟨e, ?_, hrefuses⟩, ?_⟩
  · rw [bind_def, he]
  · rw [bind_def, he]
    exact h.func

/-- Once a look at the function has succeeded, only what follows counts. -/
theorem Yields.fails_bind {a : α} {k : α → Edit β} (hm : m.Yields f a f) (hk : (k a).Fails f) :
    (m >>= k).Fails f := by
  obtain ⟨hres, hfunc⟩ := hm
  obtain ⟨e, he, hrefuses⟩ := hk.result
  refine ⟨⟨e, ?_, hrefuses⟩, ?_⟩
  · rw [bind_def, hres, hfunc]
    exact he
  · rw [bind_def, hres, hfunc]
    exact hk.func

/-- What is done with the result of an edit does not count for what it does to the function. -/
theorem Safe.ignore (h : m.Safe f) : (m >>= fun _ => pure ()).Safe f := by
  constructor
  · rw [bind_def]
    cases (m f).result with
    | error e => exact h.wellFormed
    | ok a => exact h.wellFormed
  · intro e he
    rw [bind_def] at he ⊢
    cases hres : (m f).result with
    | error e' =>
      rw [hres] at he
      cases he
      exact h.unchanged e hres
    | ok a =>
      rw [hres] at he
      cases he

theorem refuses_unknown (f : Func) (l : Label) :
    Fault.Refuses f (.malformed (.unknownBlock f.name l)) := .inl ⟨l, rfl⟩

end Edit

open Edit

namespace Func

variable {f : Func} {l drop keep : Label} {edges : List (Label × Label)} {b : Block}

theorem getBlock_of_some (h : f.block? l = some b) : f.getBlock l = .ok b := by rw [getBlock, h]

theorem getBlock_of_none (h : f.block? l = none) :
    f.getBlock l = .error (.malformed (.unknownBlock f.name l)) := by
  rw [getBlock, h]

/-! ## One edge -/

theorem WellFormed.splitEdge_safe (wf : f.WellFormed) (src dst : Label) (name : Option String) :
    (Edit.splitEdge src dst name).Safe f := by
  by_cases hedge : dst ∈ f.graph.next src
  · obtain ⟨c, hc⟩ := exists_block.1 (wf.mem_of_next hedge)
    exact (splitEdge_yields hc hedge name).safe ((wf.edgeDetour_fits hc hedge name).wellFormed wf)
  · refine Fails.safe ?_ wf
    rw [splitEdge_eq_applyWith]
    cases hb : f.block? src with
    | none =>
      refine fails_applyWith ?_ (refuses_unknown f src)
      simp only [Func.splitEdge, getBlock_of_none hb]
      rfl
    | some b =>
      cases hc : f.block? dst with
      | none =>
        refine fails_applyWith ?_ (refuses_unknown f dst)
        simp only [Func.splitEdge, getBlock_of_some hb, getBlock_of_none hc]
        rfl
      | some c =>
        rw [next_graph hb] at hedge
        refine fails_applyWith (e := .violation (.noEdge f.name src dst)) ?_
          (.inr (.inl ⟨src, dst, rfl⟩))
        simp only [Func.splitEdge, getBlock_of_some hb, getBlock_of_some hc, bind, Except.bind,
          if_pos hedge]
        rfl

/-- The function in which `l` ends in a jump to `keep` and no longer leads to `drop`, unless that is
the same block. -/
def jumping (f : Func) (l keep drop : Label) : Func :=
  f.rewrite fun x b =>
    { b with term := if x = l then some (.jump keep) else b.term }.keepPreds fun p =>
      !decide (p = l ∧ x = drop ∧ drop ≠ keep)

section

variable (wf : f.WellFormed)
include wf

theorem WellFormed.jumping (hb : f.block? l = some b)
    (hboth : ∀ x, x ∈ b.successors ↔ x = keep ∨ x = drop) : (f.jumping l keep drop).WellFormed := by
  refine wf.dropEdges (fun {x d} hd => ?_) fun {x d} hd y => ?_
  · split
    · exact Option.some_ne_none _
    · exact wf.closed hd
  · by_cases hx : x = l
    · subst hx
      cases hb.symm.trans hd
      rw [hboth]
      simp only [if_true, Block.successors, Terminator.targets, List.mem_singleton]
      by_cases hy : y = drop <;> by_cases hne : drop = keep <;> simp [hy, hne]
    · simp [hx, Block.successors]

/-- The two changes, block by block. -/
theorem WellFormed.block?_jumping (l keep drop x : Label) :
    (f.jumping l keep drop).block? x = (f.block? x).map fun d =>
      (if x = drop ∧ drop ≠ keep then Block.dropPred l else id)
        (if x = l then { d with term := some (.jump keep) } else d) := by
  rw [Func.jumping, block?_rewrite]
  refine Option.map_congr fun d hd => ?_
  have hset : ({ d with term := if x = l then some (.jump keep) else d.term } : Block)
      = if x = l then { d with term := some (.jump keep) } else d := by split <;> rfl
  have htidy : (if x = l then { d with term := some (.jump keep) } else d : Block).Tidy := by
    split
    · exact ⟨(wf.tidy hd).instrs_eq, (wf.tidy hd).labels_eq⟩
    · exact wf.tidy hd
  simp only [hset]
  by_cases hx : x = drop ∧ drop ≠ keep
  · rw [if_pos hx, Block.dropPred_eq]
    congr 1
    funext p
    simp [hx.1, hx.2]
  · rw [if_neg hx, id, Block.keepPreds_eq_self htidy]
    simp [hx]

/-- If both arms are the same, the jump is all that changes. -/
theorem WellFormed.jumping_self (l keep : Label) :
    (f.modifyBlock l fun b => { b with term := some (.jump keep) }) = f.jumping l keep keep := by
  refine eq_of_blocks rfl ((keys_modifyBlock _ _ _).trans (Table.keys_mapValues _ _).symm) fun x =>
    ?_
  rw [wf.block?_jumping, block?_modifyBlock]
  by_cases hx : x = l <;> simp [hx]

theorem WellFormed.removeEdge_jumping (hne : drop ≠ keep) (hdrop : drop ∈ f.blocks) :
    (f.modifyBlock l fun b => { b with term := some (.jump keep) }).removeEdge l drop
      = .ok (f.jumping l keep drop) := by
  obtain ⟨d, hd⟩ := exists_block.1 hdrop
  obtain ⟨d', hd'⟩ : ∃ d',
      (f.modifyBlock l fun b => { b with term := some (.jump keep) }).block? drop = some d' := by
    rw [block?_modifyBlock, hd]
    split
    · exact ⟨_, rfl⟩
    · exact ⟨_, rfl⟩
  unfold Func.removeEdge
  rw [getBlock_of_some hd']
  show Except.ok _ = _
  congr 1
  refine eq_of_blocks rfl ?_ fun x => ?_
  · rw [keys_modifyBlock, keys_modifyBlock]
    exact (Table.keys_mapValues _ _).symm
  · rw [wf.block?_jumping, block?_modifyBlock, block?_modifyBlock]
    by_cases hxd : x = drop
    · simp only [if_pos hxd, if_pos (And.intro hxd hne)]
      split
      · rw [Option.map_map]
        rfl
      · rfl
    · simp only [if_neg hxd, if_neg (mt And.left hxd)]
      split
      · rfl
      · exact Option.map_id'.symm

/-- A branch becomes a jump to one arm, and the other arm forgets the edge. -/
theorem WellFormed.foldBranch_yields_jump {c : Operand} {t e : Label} (hb : f.block? l = some b)
    (ht : b.term = some (.branch c t e)) (taken : Bool) :
    ∃ kept f', (Edit.foldBranch l taken).Yields f kept f' ∧ f'.WellFormed := by
  obtain ⟨keep, drop, hkeep, hdrop, hboth⟩ : ∃ keep drop, (if taken = true then t else e) = keep ∧
      (if taken = true then e else t) = drop ∧ ∀ x, x ∈ b.successors ↔ x = keep ∨ x = drop := by
    have hmem : ∀ x, x ∈ b.successors ↔ x = t ∨ x = e := fun x => by
      by_cases hte : t = e <;> simp [Block.successors, ht, Terminator.targets, hte]
    cases taken with
    | true => exact ⟨t, e, rfl, rfl, hmem⟩
    | false => exact ⟨e, t, rfl, rfl, fun x => (hmem x).trans or_comm⟩
  refine ⟨keep, f.jumping l keep drop, (yields_ask (getBlock_of_some hb)).bind ?_,
    wf.jumping hb hboth⟩
  simp only [ht, hkeep, hdrop]
  refine (yields_modify _ f).bind ?_
  by_cases hne : drop = keep
  · subst hne
    rw [if_neg (not_not_intro rfl), wf.jumping_self]
    exact yields_pure _ _
  · rw [if_pos hne, removeEdge_eq_apply]
    have hdrop := wf.targets hb drop ((hboth drop).2 (.inr rfl))
    exact (yields_apply (wf.removeEdge_jumping hne hdrop)).bind (yields_pure _ _)

theorem WellFormed.foldBranch_safe (l : Label) (taken : Bool) :
    (Edit.foldBranch l taken).Safe f := by
  cases hb : f.block? l with
  | none => exact ((fails_ask (getBlock_of_none hb) (refuses_unknown f l)).bind _).safe wf
  | some b =>
    by_cases hbranch : ∃ c t e, b.term = some (.branch c t e)
    · obtain ⟨c, t, e, ht⟩ := hbranch
      obtain ⟨kept, f', hyields, wf'⟩ := wf.foldBranch_yields_jump hb ht taken
      exact hyields.safe wf'
    · refine Fails.safe ((yields_ask (getBlock_of_some hb)).fails_bind ?_) wf
      have hfail : (Edit.get >>=
          fun g => fail (.violation (.notBranch g.name l)) : Edit Label).Fails f :=
        (yields_get f).fails_bind (fails_fail (.inr (.inr (.inl ⟨l, rfl⟩))))
      cases ht : b.term with
      | none => exact hfail
      | some t =>
        cases t with
        | branch c x y => exact absurd ⟨c, x, y, ht⟩ hbranch
        | jump x => exact hfail
        | ret v => exact hfail

/-! ## The shape of the graph -/

theorem WellFormed.removeUnreachable_safe : Edit.removeUnreachable.Safe f := by
  obtain ⟨dead, live, mem_live, hyields⟩ := wf.removeUnreachable
  refine hyields.safe (wf.keepBlocks ?_ fun l s hl hs => ?_)
  · exact decide_eq_true ((mem_live _).2 Graph.reachable_entry)
  · exact decide_eq_true ((mem_live _).2 (((mem_live _).1 (of_decide_eq_true hl)).step hs))

theorem WellFormed.ensureEntry_safe : Edit.ensureEntry.Safe f := by
  obtain ⟨b, hb⟩ := exists_block.1 wf.entry_mem
  by_cases hpreds : b.preds = []
  · exact (ensureEntry_of_no_preds hb hpreds).safe wf
  · exact (wf.ensureEntry_of_preds hb hpreds).safe (wf.withEntry (freshLabel_not_mem f _))

theorem WellFormed.insertPreheader_safe (header : Label) (loop : List Label) :
    (Edit.insertPreheader header loop).Safe f := by
  cases hhead : f.block? header with
  | none => exact ((fails_ask (getBlock_of_none hhead) (refuses_unknown f header)).bind _).safe wf
  | some head =>
    by_cases houtside : ∃ p ∈ head.preds, p ∉ loop
    · rcases insertPreheader_yields wf hhead houtside with ⟨p, hyields, _⟩ | hyields
      · exact hyields.safe wf
      · exact hyields.safe ((wf.preheaderDetour_fits hhead houtside).wellFormed wf)
    · have hnone : head.preds.filter (· ∉ loop) = [] :=
        List.filter_eq_nil_iff.2 fun p hp hout => houtside ⟨p, hp, of_decide_eq_true hout⟩
      refine Fails.safe ((yields_ask (getBlock_of_some hhead)).fails_bind ?_) wf
      rw [hnone]
      exact (yields_get f).fails_bind (fails_fail (.inr (.inr (.inr ⟨header, rfl⟩))))

theorem WellFormed.deleteBlock_safe (hentry : l ≠ f.entry)
    (honly : ∀ p, p ≠ l → l ∉ f.graph.next p) : (Edit.deleteBlock l).Safe f := by
  cases hb : f.block? l with
  | none => exact ((fails_ask (getBlock_of_none hb) (refuses_unknown f l)).bind _).safe wf
  | some b =>
    refine (wf.linked.deleteBlock_yields (mem_blocks hb)).safe
      (wf.keepBlocks ?_ fun p s hp hs => ?_)
    · exact decide_eq_true hentry.symm
    · refine decide_eq_true ?_
      rintro rfl
      exact honly p (of_decide_eq_true hp) hs

end

/-! ## All critical edges -/

/-- The edge goes from a block with several successors to a block with several predecessors. -/
structure Critical (f : Func) (src dst : Label) : Prop where
  edge : dst ∈ f.graph.next src
  branches : 1 < (f.graph.next src).length
  joins : 1 < (f.sourcesOf dst).length

theorem WellFormed.criticalFrom_eq (wf : f.WellFormed) (l : Label) {succs : List Label}
    (h : ∀ s ∈ succs, s ∈ f.blocks) :
    f.criticalFrom l succs = .ok ((succs.filter fun s => decide (1 < (f.sourcesOf s).length)).map
      fun s => (l, s)) := by
  induction succs with
  | nil => rfl
  | cons s succs ih =>
    obtain ⟨b, hb⟩ := exists_block.1 (h s (.head _))
    have hrest := ih fun x hx => h x (.tail _ hx)
    simp only [criticalFrom, getBlock_of_some hb, hrest, bind, Except.bind, (wf.preds hb).length_eq,
      List.filter_cons]
    by_cases hjoins : 1 < (f.sourcesOf s).length
    · simp [hjoins, pure, Except.pure]
    · simp [hjoins, pure, Except.pure]

theorem WellFormed.criticalAmong_eq (wf : f.WellFormed) {entries : List (Label × Block)}
    (h : ∀ e ∈ entries, ∀ s ∈ e.2.successors, s ∈ f.blocks) :
    f.criticalAmong entries
      = .ok ((entries.filter fun e => decide (1 < e.2.successors.length)).flatMap fun e =>
      (e.2.successors.filter fun s => decide (1 < (f.sourcesOf s).length)).map fun s =>
        (e.1, s)) := by
  induction entries with
  | nil => rfl
  | cons e entries ih =>
    have hrest := ih fun e he => h e (.tail _ he)
    have hhere := wf.criticalFrom_eq e.1 (h e (.head _))
    by_cases hbranches : 1 < e.2.successors.length
    · have hnot : ¬ e.2.successors.length < 2 := by omega
      rw [List.filter_cons, if_pos (decide_eq_true hbranches), List.flatMap_cons]
      simp only [criticalAmong, if_neg hnot, hhere, hrest]
      rfl
    · have hlt : e.2.successors.length < 2 := by omega
      rw [List.filter_cons, if_neg (by simpa using hbranches)]
      simp only [criticalAmong, if_pos hlt, hrest]
      rfl

/-- The critical edges of a well-formed function can be listed, each once. -/
theorem WellFormed.criticalEdges (wf : f.WellFormed) :
    ∃ edges, f.criticalEdges = .ok edges ∧ edges.Nodup ∧ ∀ src dst, (src, dst) ∈ edges ↔
      f.Critical src dst := by
  have hblock : ∀ e ∈ f.blocks.entries, f.block? e.1 = some e.2 :=
    fun e he => Table.get?_eq_some_iff.2 he
  refine ⟨_, wf.criticalAmong_eq fun e he s hs => wf.targets (hblock e he) s hs, ?_,
    fun src dst => ?_⟩
  · refine List.nodup_flatMap.2 ⟨fun e _ => ?_, ?_⟩
    · exact ((nodup_successors e.2).sublist List.filter_sublist).map fun s t h =>
        congrArg Prod.snd h
    · have hkeys := List.pairwise_map.1 f.blocks.nodup_keys
      refine (hkeys.sublist List.filter_sublist).imp fun hne p hp hq => ?_
      obtain ⟨_, _, rfl⟩ := List.mem_map.1 hp
      obtain ⟨_, _, heq⟩ := List.mem_map.1 hq
      exact hne (congrArg Prod.fst heq).symm
  · rw [List.mem_flatMap]
    constructor
    · rintro ⟨e, he, hmem⟩
      obtain ⟨he, hbranches⟩ := List.mem_filter.1 he
      obtain ⟨s, hs, heq⟩ := List.mem_map.1 hmem
      obtain ⟨hs, hjoins⟩ := List.mem_filter.1 hs
      cases heq
      have hnext := next_graph (hblock e he)
      exact ⟨hnext ▸ hs, hnext ▸ of_decide_eq_true hbranches, of_decide_eq_true hjoins⟩
    · rintro ⟨hedge, hbranches, hjoins⟩
      obtain ⟨b, hb, hs⟩ := block_of_mem_next hedge
      rw [next_graph hb] at hbranches
      refine ⟨(src, b), List.mem_filter.2 ⟨Table.get?_eq_some_iff.1 hb, decide_eq_true hbranches⟩,
        ?_⟩
      exact List.mem_map_of_mem (List.mem_filter.2 ⟨hs, decide_eq_true hjoins⟩)

/-- Edges are split one after the other, each by a new block. -/
inductive SplitsEdges : Func → List (Label × Label) → List Label → Func → Prop
  | nil (f : Func) : SplitsEdges f [] [] f
  | cons {f f' : Func} {src dst : Label} {c : Block} {edges : List (Label × Label)}
    {labels : List Label}
      (hc : f.block? dst = some c) (hedge : dst ∈ f.graph.next src)
      (h : SplitsEdges ((f.edgeDetour src dst none c).apply f) edges labels f') :
      SplitsEdges f ((src, dst) :: edges) ((f.edgeDetour src dst none c).label :: labels) f'

theorem SplitsEdges.wellFormed {f' : Func} {labels : List Label} (h : SplitsEdges f edges labels f')
    (wf : f.WellFormed) : f'.WellFormed := by
  induction h with
  | nil f => exact wf
  | cons hc hedge _ ih => exact ih ((wf.edgeDetour_fits hc hedge none).wellFormed wf)

/-- An edge that is not the one that is split stays. -/
theorem WellFormed.mem_next_edgeDetour (wf : f.WellFormed) {src dst a b : Label} {c : Block}
    (hc : f.block? dst = some c) (hedge : dst ∈ f.graph.next src) (hab : b ∈ f.graph.next a)
    (hne : (a, b) ≠ (src, dst)) : b ∈ ((f.edgeDetour src dst none c).apply f).graph.next a := by
  have fits := wf.edgeDetour_fits hc hedge none
  obtain ⟨_, ha, _⟩ := block_of_mem_next hab
  refine ((fits.detours wf).mem_next a b (Detour.ne_label fits.fresh ha)).2 (.inl ⟨hab, ?_⟩)
  rintro ⟨hsrc, hdst⟩
  exact hne (Prod.ext (List.mem_singleton.1 hsrc) hdst)

/-- Edges that are different are still there when one of them is split, so they can all be split.
Some may be left out. -/
theorem WellFormed.splitEdges_yields (wf : f.WellFormed) (onlyPhis : Bool) (nodup : edges.Nodup)
    (hedges : ∀ src dst, (src, dst) ∈ edges → dst ∈ f.graph.next src) :
    ∃ split labels f', (Edit.splitEdges onlyPhis edges).Yields f labels f' ∧
      SplitsEdges f split labels f' ∧
      (onlyPhis = false → split = edges) := by
  induction edges generalizing f with
  | nil => exact ⟨[], [], f, yields_pure _ _, .nil f, fun _ => rfl⟩
  | cons e edges ih =>
    obtain ⟨src, dst⟩ := e
    obtain ⟨hnew, nodup⟩ := List.nodup_cons.1 nodup
    have hedge := hedges src dst (.head _)
    have hrest : ∀ a b, (a, b) ∈ edges → b ∈ f.graph.next a :=
      fun a b hab => hedges a b (.tail _ hab)
    obtain ⟨c, hc⟩ := exists_block.1 (wf.mem_of_next hedge)
    by_cases hskip : (onlyPhis && c.phis.isEmpty) = true
    · obtain ⟨split, labels, f', hyields, hsplits, _⟩ := ih wf nodup hrest
      refine ⟨split, labels, f', (yields_ask (getBlock_of_some hc)).bind ?_, hsplits, ?_⟩
      · rw [if_pos hskip]
        exact hyields
      · rintro rfl
        cases hskip
    · have fits := wf.edgeDetour_fits hc hedge none
      obtain ⟨split, labels, f', hyields, hsplits, hall⟩ :=
        ih (fits.wellFormed wf) nodup fun a b hab =>
        wf.mem_next_edgeDetour hc hedge (hrest a b hab) fun heq => hnew (heq ▸ hab)
      refine ⟨(src, dst) :: split, _, f', (yields_ask (getBlock_of_some hc)).bind ?_,
        .cons hc hedge hsplits, fun hfalse => congrArg _ (hall hfalse)⟩
      rw [if_neg hskip]
      exact (splitEdge_yields hc hedge none).bind (hyields.bind (yields_pure _ _))

theorem WellFormed.splitCritical_safe (wf : f.WellFormed) (onlyPhis : Bool) :
    (Edit.splitCritical onlyPhis).Safe f := by
  obtain ⟨edges, hcritical, nodup, hedges⟩ := wf.criticalEdges
  obtain ⟨split, labels, f', hyields, hsplits, _⟩ :=
    wf.splitEdges_yields onlyPhis nodup fun src dst hmem => ((hedges src dst).1 hmem).edge
  exact Yields.safe ((yields_ask hcritical).bind hyields) (hsplits.wellFormed wf)

end Func

/-! ## Edits in any order -/

/-- An edit of the graph with its arguments. -/
inductive GraphEdit where
  | splitEdge (src dst : Label) (name : Option String)
  | foldBranch (l : Label) (taken : Bool)
  | removeUnreachable
  | ensureEntry
  | splitCritical (onlyPhis : Bool)
  | insertPreheader (header : Label) (loop : List Label)
  | deleteBlock (l : Label)

namespace GraphEdit

open Func

variable {e : GraphEdit}

/-- Makes the edit; what it returns is dropped. -/
def run : GraphEdit → Edit Unit
  | splitEdge src dst name => do
    let _ ← Edit.splitEdge src dst name
    return ()
  | foldBranch l taken => do
    let _ ← Edit.foldBranch l taken
    return ()
  | removeUnreachable => do
    let _ ← Edit.removeUnreachable
    return ()
  | ensureEntry => do
    let _ ← Edit.ensureEntry
    return ()
  | splitCritical onlyPhis => do
    let _ ← Edit.splitCritical onlyPhis
    return ()
  | insertPreheader header loop => do
    let _ ← Edit.insertPreheader header loop
    return ()
  | deleteBlock l => Edit.deleteBlock l

/-- A block may be deleted if it is not the entry and no other block goes there; the other edits
look after themselves. -/
def Allowed (f : Func) : GraphEdit → Prop
  | deleteBlock l => l ≠ f.entry ∧ ∀ e ∈ f.blocks.entries, e.1 ≠ l → l ∉ e.2.successors
  | _ => True

instance (f : Func) : (e : GraphEdit) → Decidable (e.Allowed f)
  | deleteBlock l =>
    inferInstanceAs (Decidable (l ≠ f.entry ∧ ∀ e ∈ f.blocks.entries, e.1 ≠ l → l ∉ e.2.successors))
  | splitEdge .. | foldBranch .. | removeUnreachable | ensureEntry | splitCritical
    _ | insertPreheader .. => .isTrue trivial

/-- The edits are made one after the other, past those that fail. -/
def runAll (f : Func) : List GraphEdit → Func
  | [] => f
  | e :: rest => runAll (e.run f).func rest

/-- Each edit is allowed when its turn comes. -/
def AllAllowed (f : Func) : List GraphEdit → Prop
  | [] => True
  | e :: rest => e.Allowed f ∧ AllAllowed (e.run f).func rest

variable {f : Func}

/-- One edit leaves a well-formed function, the same one if it fails. -/
theorem safe (wf : f.WellFormed) (h : e.Allowed f) : e.run.Safe f := by
  cases e with
  | splitEdge src dst name => exact (wf.splitEdge_safe src dst name).ignore
  | foldBranch l taken => exact (wf.foldBranch_safe l taken).ignore
  | removeUnreachable => exact wf.removeUnreachable_safe.ignore
  | ensureEntry => exact wf.ensureEntry_safe.ignore
  | splitCritical onlyPhis => exact (wf.splitCritical_safe onlyPhis).ignore
  | insertPreheader header loop => exact (wf.insertPreheader_safe header loop).ignore
  | deleteBlock l =>
    obtain ⟨hentry, honly⟩ := h
    refine wf.deleteBlock_safe hentry fun p hp hmem => ?_
    obtain ⟨b, hb, hsucc⟩ := block_of_mem_next hmem
    exact honly (p, b) (Table.get?_eq_some_iff.1 hb) hp hsucc

/-- A block that is there can be deleted, so an edit that fails was allowed. -/
theorem allowed_of_error (wf : f.WellFormed) {fault : Fault} (h : (e.run f).result = .error fault) :
    e.Allowed f := by
  cases e with
  | deleteBlock l =>
    have hl : l ∉ f.blocks := by
      intro hl
      rw [(show (GraphEdit.deleteBlock l).run.Yields f _ _ from wf.linked.deleteBlock_yields
        hl).1] at h
      cases h
    refine ⟨fun he => hl (he ▸ wf.entry_mem), fun e he _ hsucc => hl ?_⟩
    exact wf.targets (Table.get?_eq_some_iff.2 he) l hsucc
  | _ => trivial

theorem runAll_wellFormed (wf : f.WellFormed) {edits : List GraphEdit} (h : AllAllowed f edits) :
    (runAll f edits).WellFormed := by
  induction edits generalizing f with
  | nil => exact wf
  | cons e rest ih => exact ih (safe wf h.1).wellFormed h.2

/-- After any number of edits, those that failed among them, the check of the graph accepts the
function; and a further edit that fails does so because a block, an edge, a branch or a way into the
loop is missing, and changes nothing. -/
theorem runAll_checkCfg {edits : List GraphEdit} (hf : f.checkCfg = .ok ())
    (h : AllAllowed f edits) :
    (runAll f edits).checkCfg = .ok () ∧
      ∀ e fault, (run e (runAll f edits)).result = .error fault →
        fault.Refuses (runAll f edits) ∧ (run e (runAll f edits)).func = runAll f edits := by
  have wf := runAll_wellFormed (checkCfg_eq_ok.1 hf) h
  exact ⟨checkCfg_eq_ok.2 wf,
    fun e fault he => (safe wf (allowed_of_error wf he)).unchanged fault he⟩

/-- A loop of one block in SSA form. -/
def countdown : Func where
  name := "main"
  params := []
  ssa := true
  versions := Table.ofList [("x", 2)]
  blocks := Table.ofList [
    ("entry", { name := "entry", term := some (.jump "loop") }),
    ("loop",
      { name := "loop", preds := ["entry", "loop"],
        term := some (.branch (.var ⟨"x", some 2⟩) "loop" "done"),
               instrs := [.phi ⟨⟨"x", some 1⟩, [⟨"entry", .const 9⟩, ⟨"loop", .var ⟨"x", some 2⟩⟩]⟩,
                          .binary ⟨"x", some 2⟩ "sub" (.var ⟨"x", some 1⟩) (.const 1)] }),
    ("done",
      { name := "done", preds := ["loop"], term := some (.ret (some (.var ⟨"x", some 1⟩))) })]

/-- The way back is split, a block is made before the loop, the loop is cut, an edge that is gone is
asked for, and what is left of the way back is deleted. -/
def cutLoop : List GraphEdit :=
  [.splitCritical false, .insertPreheader "loop" ["loop", "loop.loop"], .foldBranch "loop" false,
    .splitEdge "loop" "loop.loop" none, .deleteBlock "loop.loop", .removeUnreachable]

theorem allAllowed_cutLoop : AllAllowed countdown cutLoop :=
  ⟨trivial, trivial, trivial, trivial, by decide, trivial, trivial⟩

theorem runAll_checkCfg_cutLoop :
    countdown.checkCfg = .ok () ∧ AllAllowed countdown cutLoop ∧
      (runAll countdown cutLoop).checkCfg = .ok () :=
  ⟨rfl, allAllowed_cutLoop, (runAll_checkCfg rfl allAllowed_cutLoop).1⟩

end GraphEdit

end ThreeAddress
