import ThreeAddress.Proofs.Detours

/-!
# New blocks on edges

Splitting an edge makes a detour on it (`splitEdge_eq`). A preheader is a detour on all edges that
enter a loop, with a phi for each header phi whose operands from outside differ
(`insertPreheader_yields`).
-/

namespace ThreeAddress

variable {new old p : Label} {l loop : List Label} {φ φ' : Phi}

/-! ## Operands of phis -/

theorem Phi.operand_of_not_mem (h : p ∉ φ.labels) : φ.operand p = .undefined := by
  have hnone : φ.incoming.find? (·.block = p) = none := by
    rw [List.find?_eq_none]
    intro a ha hblock
    exact h (List.mem_map.2 ⟨a, ha, of_decide_eq_true hblock⟩)
  unfold Phi.operand Phi.valueFrom?
  rw [hnone]
  rfl

/-- Phis with the same operand for `p` and no others for it. -/
theorem Phi.operand_congr (nodup : φ.labels.Nodup) (nodup' : φ'.labels.Nodup)
    (h : ∀ a : PhiArg, a.block = p → (a ∈ φ'.incoming ↔ a ∈ φ.incoming)) :
    φ'.operand p = φ.operand p := by
  by_cases hp : p ∈ φ.labels
  · obtain ⟨a, ha, rfl⟩ := List.mem_map.1 hp
    rw [Phi.operand_of_mem nodup ha, Phi.operand_of_mem nodup' ((h a rfl).2 ha)]
  · have hp' : p ∉ φ'.labels := by
      intro hmem
      obtain ⟨a, ha, rfl⟩ := List.mem_map.1 hmem
      exact hp (List.mem_map_of_mem ((h a rfl).1 ha))
    rw [Phi.operand_of_not_mem hp, Phi.operand_of_not_mem hp']

/-! ## Splitting an edge -/

theorem Phi.labels_renameIncoming (φ : Phi) (old new : Label) :
    (φ.renameIncoming old new).labels = φ.labels.map fun p => if p = old then new else p := by
  unfold Phi.renameIncoming Phi.labels
  rw [List.map_map, List.map_map]
  refine List.map_congr_left fun a _ => ?_
  simp only [Function.comp_apply]
  split
  · rfl
  · rfl

/-- Renaming one predecessor leaves the list without duplicates. -/
theorem nodup_rename (nodup : l.Nodup) (fresh : new ∉ l) :
    (l.map fun p => if p = old then new else p).Nodup := by
  refine nodup.map_on fun p hp q hq heq => ?_
  by_cases hpo : p = old
  · by_cases hqo : q = old
    · exact hpo.trans hqo.symm
    · rw [if_pos hpo, if_neg hqo] at heq
      exact absurd (heq ▸ hq) fresh
  · by_cases hqo : q = old
    · rw [if_neg hpo, if_pos hqo] at heq
      exact absurd (heq ▸ hp) fresh
    · rwa [if_neg hpo, if_neg hqo] at heq

theorem mem_rename (h : old ∈ l) :
    p ∈ l.map (fun p => if p = old then new else p) ↔ p = new ∨ (p ∈ l ∧ p ≠ old) := by
  rw [List.mem_map]
  constructor
  · rintro ⟨q, hq, rfl⟩
    split
    · exact .inl rfl
    · rename_i hne
      exact .inr ⟨hq, hne⟩
  · rintro (rfl | ⟨hp, hne⟩)
    · exact ⟨old, h, if_pos rfl⟩
    · exact ⟨p, hp, if_neg hne⟩

/-- The operands of a phi after an edge was given a new source. -/
theorem Phi.operand_renameIncoming (nodup : φ.labels.Nodup) (fresh : new ∉ φ.labels)
    (hold : old ∈ φ.labels) :
    (φ.renameIncoming old new).operand new = φ.operand old ∧
      ∀ p, p ≠ new → p ≠ old → (φ.renameIncoming old new).operand p = φ.operand p := by
  have nodup' : (φ.renameIncoming old new).labels.Nodup := by
    rw [Phi.labels_renameIncoming]
    exact nodup_rename nodup fresh
  refine ⟨?_, fun p hnew hne => Phi.operand_congr nodup nodup' fun a ha => ?_⟩
  · obtain ⟨a, ha, rfl⟩ := List.mem_map.1 hold
    have hmem : (⟨new, a.value⟩ : PhiArg) ∈ (φ.renameIncoming a.block new).incoming :=
      List.mem_map.2 ⟨a, ha, if_pos rfl⟩
    rw [Phi.operand_of_mem nodup ha]
    exact Phi.operand_of_mem nodup' hmem
  · unfold Phi.renameIncoming
    rw [List.mem_map]
    constructor
    · rintro ⟨c, hc, rfl⟩
      split at ha
      · exact absurd ha.symm hnew
      · rename_i hc'
        rwa [if_neg hc']
    · intro hmem
      exact ⟨a, hmem, if_neg (ha ▸ hne)⟩

namespace Func

variable {f : Func} {dst src : Label} {c : Block}

/-- The detour that splits the edge from `src` to `dst`, which is the block `c`. -/
def edgeDetour (f : Func) (src dst : Label) (name : Option String) (c : Block) : Detour where
  sources := [src]
  label := f.freshLabel (edgeName src dst name)
  target := dst
  merges := []
  head := c.renamePred src (f.freshLabel (edgeName src dst name))
  versions := f.versions

theorem WellFormed.edgeDetour_fits (wf : f.WellFormed) (hc : f.block? dst = some c)
    (hedge : dst ∈ f.graph.next src) (name : Option String) :
    (f.edgeDetour src dst name c).Fits f := by
  have fresh : f.freshLabel (edgeName src dst name) ∉ f.blocks := freshLabel_not_mem f _
  have hsrc : src ∈ c.preds := (wf.mem_preds hc).2 hedge
  have hlabel : f.freshLabel (edgeName src dst name) ∉ c.preds := by
    intro hmem
    obtain ⟨b, hb, _⟩ := block_of_mem_next ((wf.mem_preds hc).1 hmem)
    exact fresh (mem_blocks hb)
  obtain ⟨hphis, hbody, htidy⟩ := (wf.tidy hc).mapPhis
    (·.renameIncoming src (f.freshLabel (edgeName src dst name)))
    (c.preds.map fun p => if p = src then f.freshLabel (edgeName src dst name) else p)
      fun φ hφ => by
      rw [Phi.labels_renameIncoming, (wf.tidy hc).labels_eq φ hφ]
  refine
    { fresh
      nonempty := List.cons_ne_nil _ _
      nodup := List.nodup_singleton _
      source := fun p hp => List.mem_singleton.1 hp ▸ hedge
      head := fun c' hc' => ?_
      merge_labels := fun ψ hψ => by cases hψ
      merge_source := fun ψ hψ => by cases hψ
      merge_nodup := List.nodup_nil
      merge_new := fun ψ hψ => by cases hψ
      versions_le := fun x => Int.le_refl _ }
  cases hc.symm.trans hc'
  refine ⟨rfl, rfl, hbody, ?_, htidy, nodup_rename (wf.nodup_preds hc) hlabel, fun p => ?_⟩
  · have hhead : (f.edgeDetour src dst name c).head.phis = _ := hphis
    rw [hhead, List.forall₂_map_right_iff]
    refine List.forall₂_same.2 fun φ hφ => ?_
    have hlabels := (wf.tidy hc).labels_eq φ hφ
    obtain ⟨hnew, hother⟩ :=
      Phi.operand_renameIncoming (hlabels ▸ wf.nodup_preds hc) (hlabels ▸ hlabel) (hlabels ▸ hsrc)
    refine ⟨rfl, fun p hp hs => hother p hp fun he => hs (he ▸ List.mem_singleton_self _),
      .inl fun p hp => ?_⟩
    rw [List.mem_singleton.1 hp]
    exact hnew
  · show p ∈ List.map _ _ ↔ _
    rw [mem_rename hsrc]
    simp [edgeDetour]

/-- Splitting an edge is a detour. -/
theorem splitEdge_eq (hc : f.block? dst = some c) (hedge : dst ∈ f.graph.next src)
    (name : Option String) :
    f.splitEdge src dst name = .ok ((f.edgeDetour src dst name c).label,
      (f.edgeDetour src dst name c).apply f) := by
  obtain ⟨b, hb, hsucc⟩ := block_of_mem_next hedge
  have hsource : f.getBlock src = .ok b := by rw [getBlock, hb]
  have htarget : f.getBlock dst = .ok c := by rw [getBlock, hc]
  have hblocks : ((f.modifyBlock src
      (·.retarget dst (f.edgeDetour src dst name c).label)).modifyBlock dst
      (·.renamePred src (f.edgeDetour src dst name c).label)).blocks
        = f.blocks.mapValues (f.edgeDetour src dst name c).block := by
    refine Table.ext_of_keys ?_ fun l _ => ?_
    · rw [keys_modifyBlock, keys_modifyBlock]
      exact (Table.keys_mapValues _ _).symm
    · show (modifyBlock _ _ _).block? l = _
      rw [block?_modifyBlock, block?_modifyBlock, Table.get?_mapValues]
      show _ = (f.block? l).map _
      cases hx : f.block? l with
      | none => simp
      | some x =>
        -- A block may be both ends of the edge; then both changes are made to it.
        unfold Detour.block
        by_cases hd : l = dst
        · subst hd
          cases hc.symm.trans hx
          by_cases hs : l = src
          · subst hs
            simp [edgeDetour]
            rfl
          · simp [edgeDetour, hs]
        · by_cases hs : l = src
          · subst hs
            simp [edgeDetour, hd]
          · simp [edgeDetour, hd, hs]
  simp only [splitEdge, hsource, htarget, bind, Except.bind, hsucc, not_true_eq_false, if_false]
  unfold Detour.apply
  rw [← hblocks]
  rfl

theorem splitEdge_yields (hc : f.block? dst = some c) (hedge : dst ∈ f.graph.next src)
    (name : Option String) :
    (Edit.splitEdge src dst name).Yields f (f.edgeDetour src dst name c).label
      ((f.edgeDetour src dst name c).apply f) := by
  rw [Edit.splitEdge_eq_applyWith]
  exact Edit.yields_applyWith (splitEdge_eq hc hedge name)

end Func

/-! ## What comes from outside a loop -/

section Outside

variable {α : Type} {isInside : α → Bool} {merged x : α} {l : List α}

theorem mem_mergeOutside (h : ∃ a ∈ l, isInside a = false) :
    x ∈ mergeOutside isInside merged l ↔ x = merged ∨ (x ∈ l ∧ isInside x = true) := by
  induction l with
  | nil =>
    obtain ⟨a, ha, _⟩ := h
    cases ha
  | cons b rest ih =>
    rw [mergeOutside]
    cases hb : isInside b with
    | false =>
      simp only [Bool.false_eq_true, if_false, List.mem_cons, List.mem_filter]
      refine or_congr_right ⟨fun hx => ⟨.inr hx.1, hx.2⟩,
        fun hx => ⟨hx.1.resolve_left fun he => ?_, hx.2⟩⟩
      rw [he, hb] at hx
      cases hx.2
    | true =>
      have hrest : ∃ a ∈ rest, isInside a = false := by
        obtain ⟨a, ha, hout⟩ := h
        rcases List.mem_cons.1 ha with rfl | ha
        · rw [hb] at hout
          cases hout
        · exact ⟨a, ha, hout⟩
      simp only [if_true, List.mem_cons, ih hrest]
      constructor
      · rintro (rfl | rfl | hx)
        · exact .inr ⟨.inl rfl, hb⟩
        · exact .inl rfl
        · exact .inr ⟨.inr hx.1, hx.2⟩
      · rintro (rfl | ⟨rfl | hx, hin⟩)
        · exact .inr (.inl rfl)
        · exact .inl rfl
        · exact .inr (.inr ⟨hx, hin⟩)

theorem mergeOutside_sublist (isInside : α → Bool) (merged : α) (l : List α) :
    ∃ pre post, (pre ++ post).Sublist l ∧
      (mergeOutside isInside merged l = pre ++ merged :: post ∨
        mergeOutside isInside merged l = pre ++ post) := by
  induction l with
  | nil => exact ⟨[], [], .refl _, .inr rfl⟩
  | cons b rest ih =>
    rw [mergeOutside]
    split
    · obtain ⟨pre, post, hsub, heq⟩ := ih
      refine ⟨b :: pre, post, hsub.cons_cons b, ?_⟩
      rcases heq with heq | heq
      · exact .inl (by rw [heq]; rfl)
      · exact .inr (by rw [heq]; rfl)
    · exact ⟨[], rest.filter isInside, List.filter_sublist.cons b, .inl rfl⟩

theorem nodup_mergeOutside (nodup : l.Nodup) (fresh : merged ∉ l) :
    (mergeOutside isInside merged l).Nodup := by
  obtain ⟨pre, post, hsub, heq | heq⟩ := mergeOutside_sublist isInside merged l
  · rw [heq, List.nodup_middle, List.nodup_cons]
    exact ⟨fun hmem => fresh (hsub.subset hmem), nodup.sublist hsub⟩
  · rw [heq]
    exact nodup.sublist hsub

theorem map_mergeOutside {β : Type} (inside : β → Bool) (g : α → β) (merged : α) (l : List α) :
    (mergeOutside (fun a => inside (g a)) merged l).map g = mergeOutside inside (g merged)
      (l.map g) := by
  induction l with
  | nil => rfl
  | cons b rest ih =>
    rw [List.map_cons, mergeOutside, mergeOutside]
    split
    · rw [List.map_cons, ih]
    · rw [List.map_cons, List.filter_map]
      rfl

end Outside

/-! ## The phis of a header -/

/-- A phi that takes the operands from outside takes those it has from there. -/
theorem operand_filter_outside {ψ : Phi} (nodup : φ.labels.Nodup)
    (h : ψ.incoming = φ.incoming.filter fun a => decide (a.block ∉ loop)) (hp : p ∉ loop) :
    ψ.operand p = φ.operand p := by
  have nodup' : ψ.labels.Nodup := by
    unfold Phi.labels
    rw [h]
    exact nodup.sublist (List.filter_sublist.map _)
  refine Phi.operand_congr nodup nodup' fun a ha => ?_
  rw [h, List.mem_filter, decide_eq_true_eq, ha]
  exact and_iff_left hp

/-- What becomes of a header phi: one operand from `label` stands for those from outside, whose
merge is among `merges` unless they are all the same. -/
structure Joins (loop : List Label) (label : Label) (merges : List Phi) (φ φ' : Phi) : Prop where
  dest_eq : φ'.dest = φ.dest
  incoming_eq : ∃ v, φ'.incoming = mergeOutside (fun a => decide (a.block ∈ loop)) ⟨label,
    v⟩ φ.incoming ∧
    ((∀ a ∈ φ.incoming, a.block ∉ loop → a.value = v) ∨
      ∃ ψ ∈ merges, v = .var ψ.dest ∧ ψ.incoming = φ.incoming.filter fun a =>
        decide (a.block ∉ loop))

/-- What the phis of a header leave: new phis, and counters that know them. -/
structure Splits (loop : List Label) (label : Label) (φs φs' : List Phi)
    (before after : Table String Int)
    (merges : List Phi) : Prop where
  phis : List.Forall₂ (Joins loop label merges) φs φs'
  source : ∀ ψ ∈ merges, ∃ φ ∈ φs, ψ.incoming = φ.incoming.filter fun a => decide (a.block ∉ loop)
  nodup : (merges.map (·.dest)).Nodup
  new : ∀ ψ ∈ merges, ∃ n, ψ.dest.version = some n ∧ before.getD ψ.dest.name 0 < n ∧
    n ≤ after.getD ψ.dest.name 0
  le : ∀ x, before.getD x 0 ≤ after.getD x 0

theorem Splits.nil (loop : List Label) (label : Label) (versions : Table String Int) :
    Splits loop label [] [] versions versions [] where
  phis := .nil
  source ψ hψ := by cases hψ
  nodup := List.nodup_nil
  new ψ hψ := by cases hψ
  le x := Int.le_refl _

section Splits

variable {label : Label} {φs φs' merges : List Phi} {before mid after : Table String Int}

/-- A phi whose operands from outside are all the same. -/
theorem Splits.cons_same (h : Splits loop label φs φs' before after merges) {v : Operand}
    (hsame : ∀ a ∈ φ.incoming, a.block ∉ loop → a.value = v) :
    Splits loop label (φ :: φs)
      ({ φ with incoming := mergeOutside (fun a => decide (a.block ∈ loop)) ⟨label, v⟩ φ.incoming }
        :: φs') before after
      merges where
  phis := .cons ⟨rfl, v, rfl, .inl hsame⟩ h.phis
  source ψ hψ := by
    obtain ⟨χ, hχ, heq⟩ := h.source ψ hψ
    exact ⟨χ, .tail _ hχ, heq⟩
  nodup := h.nodup
  new := h.new
  le := h.le

/-- A phi whose operands from outside are merged by a new one. -/
theorem Splits.cons_merge {n : Int} (hn : before.getD φ.dest.name 0 < n)
    (h : Splits loop label φs φs' (before.insert φ.dest.name n) after merges) :
    Splits loop label (φ :: φs)
      ({ φ with
         incoming := mergeOutside (fun a => decide (a.block ∈ loop))
           ⟨label, .var ⟨φ.dest.name, some n⟩⟩ φ.incoming }
        :: φs') before after
      (⟨⟨φ.dest.name, some n⟩, φ.incoming.filter fun a => decide (a.block ∉ loop)⟩ :: merges) := by
  have hle : ∀ x, before.getD x 0 ≤ (before.insert φ.dest.name n).getD x 0 := by
    intro x
    rw [Table.getD_insert]
    split
    · rename_i hx
      rw [hx]
      exact Int.le_of_lt hn
    · exact Int.le_refl _
  have hself : (before.insert φ.dest.name n).getD φ.dest.name 0 = n := by
    rw [Table.getD_insert, if_pos rfl]
  refine ⟨.cons ⟨rfl, _, rfl, .inr ⟨_, .head _, rfl, rfl⟩⟩ (h.phis.imp ?_), ?_, ?_, ?_, fun x => ?_⟩
  · rintro χ χ' ⟨hdest, v, hincoming, hv⟩
    refine ⟨hdest, v, hincoming, hv.imp_right ?_⟩
    rintro ⟨ψ, hψ, heq⟩
    exact ⟨ψ, .tail _ hψ, heq⟩
  · refine List.forall_mem_cons.2 ⟨⟨φ, .head _, rfl⟩, fun ψ hψ => ?_⟩
    obtain ⟨χ, hχ, heq⟩ := h.source ψ hψ
    exact ⟨χ, .tail _ hχ, heq⟩
  · rw [List.map_cons, List.nodup_cons]
    refine ⟨fun hmem => ?_, h.nodup⟩
    -- Later merges have later versions.
    obtain ⟨ψ, hψ, heq⟩ := List.mem_map.1 hmem
    obtain ⟨k, hk, hlt, _⟩ := h.new ψ hψ
    rw [heq, hself] at hlt
    rw [heq] at hk
    cases hk
    exact absurd hlt (Int.lt_irrefl _)
  · refine List.forall_mem_cons.2 ⟨⟨n, rfl, hn, ?_⟩, fun ψ hψ => ?_⟩
    · exact hself ▸ h.le φ.dest.name
    · obtain ⟨k, hk, hlt, hk'⟩ := h.new ψ hψ
      exact ⟨k, hk, Int.lt_of_le_of_lt (hle _) hlt, hk'⟩
  · exact Int.le_trans (hle x) (h.le x)

end Splits

theorem splitHeaderPhis_spec (label : Label) {φs : List Phi} {rest : List Instr}
    (hrest : ∀ i ∈ rest.head?, i.isPhi = false)
    (houtside : ∀ φ ∈ φs, ∃ a ∈ φ.incoming, a.block ∉ loop) (versions : Table String Int) :
    ∃ φs', (splitHeaderPhis loop label (φs.map .phi ++ rest) versions).instrs
        = φs'.map .phi ++ rest ∧
      (splitHeaderPhis loop label (φs.map .phi ++ rest) versions).complete = true ∧
      Splits loop label φs φs' versions (splitHeaderPhis loop label (φs.map .phi ++
        rest) versions).versions
        (splitHeaderPhis loop label (φs.map .phi ++ rest) versions).merges := by
  induction φs generalizing versions with
  | nil =>
    have hnil : splitHeaderPhis loop label rest versions = ⟨rest, versions, [], true⟩ := by
      cases rest with
      | nil => rfl
      | cons i rest =>
        have hi := hrest i rfl
        cases i with
        | phi φ => cases hi
        | _ => rfl
    rw [List.map_nil, List.nil_append, hnil]
    exact ⟨[], rfl, rfl, .nil _ _ _⟩
  | cons φ φs ih =>
    have ih := ih fun χ hχ => houtside χ (.tail _ hχ)
    obtain ⟨a₀, ha₀, hout⟩ := houtside φ (.head _)
    cases hfilter : φ.incoming.filter fun a => decide (a.block ∉ loop) with
    | nil =>
      have := List.filter_eq_nil_iff.1 hfilter a₀ ha₀
      simp [hout] at this
    | cons a more =>
      have hmem : ∀ c ∈ φ.incoming, c.block ∉ loop → c = a ∨ c ∈ more := fun c hc hout =>
        List.mem_cons.1 (hfilter ▸ List.mem_filter.2 ⟨hc, decide_eq_true hout⟩)
      cases hsame : more.all fun c => decide (c.value = a.value) with
      | true =>
        obtain ⟨φs', hinstrs, hcomplete, hsplits⟩ := ih versions
        simp only [List.map_cons, List.cons_append, splitHeaderPhis, hfilter, hsame, if_true]
        refine ⟨_, congrArg _ hinstrs, hcomplete, hsplits.cons_same (v := a.value) fun c hc hout =>
          ?_⟩
        rcases hmem c hc hout with rfl | hc
        · rfl
        · exact of_decide_eq_true (List.all_eq_true.1 hsame c hc)
      | false =>
        obtain ⟨φs', hinstrs, hcomplete, hsplits⟩ :=
          ih (versions.insert φ.dest.name (versions.getD φ.dest.name 0 + 1))
        simp only [List.map_cons, List.cons_append, splitHeaderPhis, hfilter, hsame,
          Bool.false_eq_true, if_false]
        rw [← hfilter]
        exact ⟨_, congrArg _ hinstrs, hcomplete, hsplits.cons_merge (Int.lt_succ _)⟩

/-! ## Preheaders -/

namespace Func

variable {f : Func} {header : Label} {head : Block}

/-- The detour on the edges that enter `loop` at `header`, which is the block `head`. -/
def preheaderDetour (f : Func) (header : Label) (loop : List Label) (head : Block) : Detour :=
  let label := f.freshLabel (header ++ ".preheader")
  let split := splitHeaderPhis loop label head.instrs f.versions
  { sources := head.preds.filter (· ∉ loop)
    label
    target := header
    merges := split.merges
    head := { head with instrs := split.instrs, preds := mergeOutside (· ∈ loop) label head.preds }
    versions := split.versions }

theorem mem_sources_preheaderDetour :
    p ∈ (f.preheaderDetour header loop head).sources ↔ p ∈ head.preds ∧ p ∉ loop := by
  simp [preheaderDetour]

/-- The detour starts at the edges that enter the loop. -/
theorem WellFormed.mem_sources_iff (wf : f.WellFormed) (hhead : f.block? header = some head)
    (p : Label) :
    p ∈ (f.preheaderDetour header loop head).sources ↔ header ∈ f.graph.next p ∧ p ∉ loop := by
  rw [mem_sources_preheaderDetour, wf.mem_preds hhead]

/-- Header phis that were joined fit the detour. -/
theorem phiFits_of_joins (hlabels : φ.labels = head.preds) (nodup : head.preds.Nodup)
    (fresh : (f.preheaderDetour header loop head).label ∉ head.preds)
    (houtside : ∃ p ∈ head.preds, p ∉ loop)
    (h : Joins loop (f.preheaderDetour header loop head).label
      (f.preheaderDetour header loop head).merges φ φ') :
    φ'.labels = (f.preheaderDetour header loop head).head.preds ∧
      (f.preheaderDetour header loop head).PhiFits φ φ' := by
  obtain ⟨hdest, v, hincoming, hv⟩ := h
  have hlabels' : φ'.labels = (f.preheaderDetour header loop head).head.preds := by
    show φ'.incoming.map (·.block) = mergeOutside (fun p => decide (p ∈ loop)) _ head.preds
    rw [hincoming, ← hlabels]
    exact map_mergeOutside (fun p => decide (p ∈ loop)) PhiArg.block _ φ.incoming
  have nodup' : φ'.labels.Nodup := hlabels' ▸ nodup_mergeOutside nodup fresh
  have hmem : ∀ a : PhiArg, a ∈ φ'.incoming ↔
      a = ⟨(f.preheaderDetour header loop head).label, v⟩ ∨ (a ∈ φ.incoming ∧ a.block ∈ loop) := by
    intro a
    have hout : ∃ a ∈ φ.incoming, decide (a.block ∈ loop) = false := by
      obtain ⟨p, hp, hout⟩ := houtside
      obtain ⟨a, ha, rfl⟩ := List.mem_map.1 (hlabels ▸ hp)
      exact ⟨a, ha, decide_eq_false hout⟩
    rw [hincoming, mem_mergeOutside hout, decide_eq_true_eq]
  have hblock : ∀ {a : PhiArg}, a ∈ φ.incoming → a.block ∈ head.preds :=
    fun ha => hlabels ▸ List.mem_map_of_mem ha
  rw [← hlabels] at nodup
  refine ⟨hlabels', hdest, fun p hp hs => ?_, ?_⟩
  · refine Phi.operand_congr nodup nodup' fun a ha => ?_
    rw [hmem]
    constructor
    · rintro (rfl | ha')
      · exact absurd ha.symm hp
      · exact ha'.1
    · intro ha'
      refine .inr ⟨ha', Decidable.byContradiction fun hout => hs ?_⟩
      exact mem_sources_preheaderDetour.2 ⟨ha ▸ hblock ha', ha ▸ hout⟩
  · have hnew : φ'.operand (f.preheaderDetour header loop head).label = v :=
      Phi.operand_of_mem nodup' ((hmem _).2 (.inl rfl))
    rw [hnew]
    refine hv.imp (fun hsame p hp => ?_) ?_
    · obtain ⟨hp, hout⟩ := mem_sources_preheaderDetour.1 hp
      obtain ⟨a, ha, rfl⟩ := List.mem_map.1 (hlabels ▸ hp)
      rw [Phi.operand_of_mem nodup ha, hsame a ha hout]
    · rintro ⟨ψ, hψ, heq, hincoming⟩
      exact ⟨ψ, hψ, heq,
        fun p hp => operand_filter_outside nodup hincoming (mem_sources_preheaderDetour.1 hp).2⟩

theorem WellFormed.header_splits (wf : f.WellFormed) (hhead : f.block? header = some head)
    (houtside : ∃ p ∈ head.preds, p ∉ loop) (label : Label) :
    let split := splitHeaderPhis loop label head.instrs f.versions
    ∃ φs', split.instrs = φs'.map .phi ++ head.body ∧ split.complete = true ∧
      Splits loop label head.phis φs' f.versions split.versions split.merges := by
  have hargs : ∀ φ ∈ head.phis, ∃ a ∈ φ.incoming, a.block ∉ loop := by
    intro φ hφ
    obtain ⟨p, hp, hout⟩ := houtside
    obtain ⟨a, ha, rfl⟩ := List.mem_map.1 ((wf.tidy hhead).labels_eq φ hφ ▸ hp)
    exact ⟨a, ha, hout⟩
  have hspec := splitHeaderPhis_spec label (fun i hi =>
    head.isPhi_of_mem_body (List.mem_of_mem_head? hi)) hargs f.versions
  rwa [← (wf.tidy hhead).instrs_eq] at hspec

theorem WellFormed.preheaderDetour_fits (wf : f.WellFormed) (hhead : f.block? header = some head)
    (houtside : ∃ p ∈ head.preds, p ∉ loop) : (f.preheaderDetour header loop head).Fits f := by
  have fresh : (f.preheaderDetour header loop head).label ∉ f.blocks := freshLabel_not_mem f _
  have hlabel : (f.preheaderDetour header loop head).label ∉ head.preds := by
    intro hmem
    obtain ⟨b, hb, _⟩ := block_of_mem_next ((wf.mem_preds hhead).1 hmem)
    exact fresh (mem_blocks hb)
  have hlabels := (wf.tidy hhead).labels_eq
  have hbody : ∀ i ∈ head.body, i.isPhi = false := fun i hi => head.isPhi_of_mem_body hi
  obtain ⟨φs', hinstrs, _, hsplits⟩ :=
    wf.header_splits hhead houtside (f.preheaderDetour header loop head).label
  have hfits : List.Forall₂ (fun φ φ' =>
      φ'.labels = (f.preheaderDetour header loop head).head.preds ∧
      (f.preheaderDetour header loop head).PhiFits φ φ') head.phis φs' := by
    refine ((List.forall₂_and_left _ _).2 ⟨fun φ hφ => hφ, hsplits.phis⟩).imp fun φ φ' hφ => ?_
    exact phiFits_of_joins (hlabels φ hφ.1) (wf.nodup_preds hhead) hlabel houtside hφ.2
  have hsource : ∀ ψ ∈ (f.preheaderDetour header loop head).merges, ∃ φ ∈ head.phis,
      ψ.incoming = φ.incoming.filter fun a => decide (a.block ∉ loop) := hsplits.source
  obtain ⟨hphis, hbody', htidy⟩ :=
    Block.tidy_of_eq (b := (f.preheaderDetour header loop head).head) hinstrs hbody
    fun φ' hφ' => by
      obtain ⟨φ, _, hφ⟩ := exists_of_forall₂ hfits hφ'
      exact hφ.1
  refine
    { fresh
      nonempty := ?_
      nodup := (wf.nodup_preds hhead).filter _
      source := fun p hp => (wf.mem_preds hhead).1 (mem_sources_preheaderDetour.1 hp).1
      head := fun c hc => ?_
      merge_labels := fun ψ hψ => ?_
      merge_source := fun ψ hψ => ?_
      merge_nodup := hsplits.nodup
      merge_new := hsplits.new
      versions_le := hsplits.le }
  · obtain ⟨p, hp, hout⟩ := houtside
    exact List.ne_nil_of_mem (mem_sources_preheaderDetour.2 ⟨hp, hout⟩)
  · cases hhead.symm.trans hc
    refine ⟨rfl, rfl, hbody', hphis ▸ hfits.imp fun _ _ hφ => hφ.2, htidy,
      nodup_mergeOutside (wf.nodup_preds hhead) hlabel, fun p => ?_⟩
    have hout : ∃ p ∈ head.preds, decide (p ∈ loop) = false := by
      obtain ⟨p, hp, hout⟩ := houtside
      exact ⟨p, hp, decide_eq_false hout⟩
    rw [mem_sources_preheaderDetour]
    show p ∈ mergeOutside (fun p => decide (p ∈ loop)) _ head.preds ↔ _
    rw [mem_mergeOutside hout, decide_eq_true_eq]
    refine or_congr_right ⟨fun hp => ⟨hp.1, fun hs => hs.2 hp.2⟩, fun hp => ⟨hp.1, ?_⟩⟩
    exact Decidable.byContradiction fun hout => hp.2 ⟨hp.1, hout⟩
  · obtain ⟨φ, hφ, hincoming⟩ := hsource ψ hψ
    show ψ.incoming.map (·.block) = head.preds.filter _
    rw [hincoming, ← hlabels φ hφ]
    unfold Phi.labels
    rw [List.filter_map]
    rfl
  · obtain ⟨φ, hφ, hincoming⟩ := hsource ψ hψ
    refine ⟨head, φ, hhead, hφ, fun p hp => ?_⟩
    have nodup := wf.nodup_preds hhead
    rw [← hlabels φ hφ] at nodup
    exact operand_filter_outside nodup hincoming (mem_sources_preheaderDetour.1 hp).2

/-- What becomes of the blocks while a preheader is made. -/
theorem WellFormed.blocks_preheaderDetour (wf : f.WellFormed)
    (hhead : f.block? header = some head) :
    ((((f.preheaderDetour header loop head).sources.foldl (fun g p => g.modifyBlock p
        (·.retarget header (f.preheaderDetour header loop head).label)) f).modifyBlock header fun b =>
        { b with instrs := (f.preheaderDetour header loop head).head.instrs }).modifyBlock
        header fun b => { b with
          preds := mergeOutside (· ∈ loop) (f.preheaderDetour header loop head).label
            b.preds }).blocks
      = f.blocks.mapValues (f.preheaderDetour header loop head).block := by
  have nodup : (f.preheaderDetour header loop head).sources.Nodup := (wf.nodup_preds hhead).filter _
  refine Table.ext_of_keys ?_ fun l _ => ?_
  · rw [keys_modifyBlock, keys_modifyBlock, (foldl_modifyBlock_eq _ _ _).2]
    exact (Table.keys_mapValues _ _).symm
  · show (modifyBlock _ _ _).block? l = _
    rw [block?_modifyBlock, block?_modifyBlock, block?_foldl_modifyBlock nodup,
      Table.get?_mapValues]
    show _ = (f.block? l).map _
    cases hx : f.block? l with
    | none => simp
    | some x =>
      have htarget : (f.preheaderDetour header loop head).target = header := rfl
      unfold Detour.block
      rw [htarget]
      by_cases hl : l = header
      · subst hl
        cases hhead.symm.trans hx
        by_cases hs : l ∈ (f.preheaderDetour l loop head).sources
        · simp only [hs, if_true, Option.map_some]
          rfl
        · simp only [hs, if_true, if_false, Option.map_some]
          rfl
      · by_cases hs : l ∈ (f.preheaderDetour header loop head).sources
        · simp only [hl, hs, if_true, if_false, Option.map_some]
        · simp only [hl, hs, if_false, Option.map_some]

end Func

namespace Edit

open Func

variable {f : Func} {header : Label} {head : Block}

theorem makePreheader_yields (wf : f.WellFormed) (hhead : f.block? header = some head)
    (houtside : ∃ p ∈ head.preds, p ∉ loop) :
    (makePreheader header loop (head.preds.filter (· ∉ loop))).Yields f
      (f.preheaderDetour header loop head).label
      ((f.preheaderDetour header loop head).apply f) := by
  have nodup : (f.preheaderDetour header loop head).sources.Nodup := (wf.nodup_preds hhead).filter _
  obtain ⟨_, _, hcomplete, _⟩ :=
    wf.header_splits hhead houtside (f.preheaderDetour header loop head).label
  let led := (f.preheaderDetour header loop head).sources.foldl (fun g p => g.modifyBlock p
    (·.retarget header (f.preheaderDetour header loop head).label)) f
  -- The sources are led to the new block.
  have hforM : ((head.preds.filter (· ∉ loop)).forM fun p => ask (·.getBlock p) >>= fun _ =>
      modify (·.modifyBlock p
        (·.retarget header (f.preheaderDetour header loop head).label))).Yields f ⟨⟩ led := by
    refine yields_forM fun done p rest heq => ?_
    have hp : p ∈ head.preds.filter (· ∉ loop) := heq ▸ List.mem_append_right _ (.head _)
    obtain ⟨b, hb, _⟩ := block_of_mem_next ((wf.mem_preds hhead).1 (List.mem_of_mem_filter hp))
    obtain ⟨hdone, _, hapart⟩ := List.nodup_append.1 (heq ▸ nodup : (done ++ p :: rest).Nodup)
    refine (yields_ask (a := b) ?_).bind (yields_modify _ _)
    rw [getBlock, block?_foldl_modifyBlock hdone, if_neg fun hmem => hapart p hmem p (.head _) rfl,
      hb]
  -- The instructions of the header are as before.
  have hled : ∃ c, led.block? header = some c ∧ c.instrs = head.instrs := by
    rw [block?_foldl_modifyBlock nodup, hhead]
    split
    · exact ⟨_, rfl, rfl⟩
    · exact ⟨_, rfl, rfl⟩
  obtain ⟨c, hc, hinstrs⟩ := hled
  have hget : led.getBlock header = .ok c := by rw [getBlock, hc]
  have hsame : led = { f with blocks := led.blocks } := (foldl_modifyBlock_eq _ f _).1
  unfold makePreheader
  refine (yields_get f).bind (hforM.bind ((yields_ask hget).bind ((yields_modify _ _).bind ?_)))
  rw [hinstrs]
  have hcomplete : (splitHeaderPhis loop (f.freshLabel (header ++ ".preheader")) head.instrs
      f.versions).complete = true :=
    hcomplete
  simp only [hcomplete, Bool.not_true, Bool.false_eq_true, if_false]
  refine (yields_modify _ _).bind ((yields_emit _ _).bind ⟨rfl, ?_⟩)
  unfold Detour.apply
  rw [← wf.blocks_preheaderDetour hhead]
  show Func.mk led.name led.params _ led.entry led.ssa _ = _
  rw [congrArg Func.name hsame, congrArg Func.params hsame, congrArg Func.entry hsame,
    congrArg Func.ssa hsame]
  rfl

/-- The block through which control enters a loop: a block that goes nowhere else, or a new one on
the way. -/
theorem insertPreheader_yields (wf : f.WellFormed) (hhead : f.block? header = some head)
    (houtside : ∃ p ∈ head.preds, p ∉ loop) :
    (∃ p, (insertPreheader header loop).Yields f (p, false) f ∧ f.graph.next p = [header] ∧
        ∀ q, header ∈ f.graph.next q → q ∉ loop → q = p) ∨
      (insertPreheader header loop).Yields f ((f.preheaderDetour header loop head).label, true)
        ((f.preheaderDetour header loop head).apply f) := by
  have hmake := makePreheader_yields wf hhead houtside
  have hget : f.getBlock header = .ok head := by rw [getBlock, hhead]
  have hsources : ∀ q, header ∈ f.graph.next q → q ∉ loop → q ∈ head.preds.filter (· ∉ loop) :=
    fun q hq hout =>
    List.mem_filter.2 ⟨(wf.mem_preds hhead).2 hq, decide_eq_true hout⟩
  have hmem : ∀ q ∈ head.preds.filter (· ∉ loop), header ∈ f.graph.next q := fun q hq =>
    (wf.mem_preds hhead).1 (List.mem_of_mem_filter hq)
  unfold insertPreheader
  cases hfilter : head.preds.filter (· ∉ loop) with
  | nil =>
    obtain ⟨p, hp, hout⟩ := houtside
    have hmem : p ∈ head.preds.filter (· ∉ loop) := List.mem_filter.2 ⟨hp, decide_eq_true hout⟩
    rw [hfilter] at hmem
    cases hmem
  | cons p more =>
    rw [hfilter] at hmake hsources hmem
    cases more with
    | nil =>
      obtain ⟨b, hb, hsucc⟩ := block_of_mem_next (hmem p (.head _))
      have hgetp : f.getBlock p = .ok b := by rw [getBlock, hb]
      by_cases huse : b.successors = [header] ∧ b.preds.length = 1
      · refine .inl ⟨p, (yields_ask hget).bind ?_, ?_,
          fun q hq hout => List.mem_singleton.1 (hsources q hq hout)⟩
        · simp only [hfilter]
          refine (yields_ask hgetp).bind ?_
          rw [if_pos huse, wf.name_eq hb]
          exact yields_pure _ f
        · rw [next_graph hb]
          exact huse.1
      · refine .inr ((yields_ask hget).bind ?_)
        simp only [hfilter]
        refine (yields_ask hgetp).bind ?_
        rw [if_neg huse]
        exact hmake.bind (yields_pure _ _)
    | cons q more =>
      refine .inr ((yields_ask hget).bind ?_)
      simp only [hfilter]
      exact hmake.bind (yields_pure _ _)

end Edit

end ThreeAddress
