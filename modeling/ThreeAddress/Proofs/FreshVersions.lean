import ThreeAddress.Proofs.Occurrences

/-!
# Fresh versions

A function counts the versions of each name that it has handed out, and the next version is fresh as
long as no variable has a version above its counter. `Func.Draws f g new` says what an edit may do
that asks for fresh variables: everything that occurs in `g` occurs in `f` or is one of `new`, which
the counters of `f` did not know and those of `g` know. Such edits compose, and they keep the
counters at or above all versions (`Draws.old`).

Preheaders and loop-invariant code motion are such edits. What they draw are the results of the phis
that they add (`Func.AddsPhis`).
-/

namespace ThreeAddress

variable {k : Label → Block → Block} {instrs : List Instr} {d : Dominators} {loop : Loop}

namespace Func

variable {f g h : Func} {new more : List Var} {v : Var}

theorem not_old_freshVar (f : Func) (base : String) : ¬ f.Old (f.freshVar base).1 := by
  intro hold
  have hle : f.lastVersion base + 1 ≤ f.lastVersion base := hold _ rfl
  omega

/-- `g` has, besides variables of `f`, only the variables `new`, which are fresh in `f`. -/
structure Draws (f g : Func) (new : List Var) : Prop where
  only : g.Only fun v => f.Occurs v ∨ v ∈ new
  mono : ∀ v, f.Old v → g.Old v
  fresh : ∀ v ∈ new, ¬ f.Old v ∧ g.Old v
  nodup : new.Nodup

theorem Within.draws (h : f.Within g) : f.Draws g [] where
  only := h.only.imp fun _ hv => .inl hv
  mono v hv := by
    unfold Old lastVersion
    rw [h.versions_eq]
    exact hv
  fresh v hv := by cases hv
  nodup := List.nodup_nil

theorem Draws.refl (f : Func) : f.Draws f [] := (Within.refl f).draws

/-- The counters stay at or above all versions. -/
theorem Draws.old (h : f.Draws g new) (hf : f.Only f.Old) : g.Only g.Old := by
  refine h.only.imp fun v hv => ?_
  rcases hv with hv | hv
  · exact h.mono v (only_iff.1 hf v hv)
  · exact (h.fresh v hv).2

theorem Draws.not_occurs (h : f.Draws g new) (hf : f.Only f.Old) (hv : v ∈ new) : ¬ f.Occurs v :=
  fun hocc => (h.fresh v hv).1 (only_iff.1 hf v hocc)

/-- More variables are drawn from the counters of `g`. -/
theorem Draws.extend (h : f.Draws g new) {k : Func}
    (only : k.Only fun v => f.Occurs v ∨ v ∈ new ++ more) (mono : ∀ v, g.Old v → k.Old v)
    (fresh : ∀ v ∈ more, ¬ g.Old v ∧ k.Old v) (nodup : more.Nodup) : f.Draws k (new ++ more) where
  only := only
  mono v hv := mono v (h.mono v hv)
  fresh v hv := by
    rcases List.mem_append.1 hv with hv | hv
    · exact ⟨(h.fresh v hv).1, mono v (h.fresh v hv).2⟩
    · exact ⟨fun hold => (fresh v hv).1 (h.mono v hold), (fresh v hv).2⟩
  nodup := by
    refine List.nodup_append.2 ⟨h.nodup, nodup, fun v hv w hw heq => ?_⟩
    exact (fresh w hw).1 (heq ▸ (h.fresh v hv).2)

theorem Draws.trans (hfg : f.Draws g new) (hgh : g.Draws h more) : f.Draws h (new ++ more) := by
  refine hfg.extend (hgh.only.imp fun v hv => ?_) hgh.mono hgh.fresh hgh.nodup
  rcases hv with hv | hv
  · exact (only_iff.1 hfg.only v hv).imp_right (List.mem_append_left _)
  · exact .inr (List.mem_append_right _ hv)

end Func

/-! ## Results of phis -/

/-- The results of the phis among the instructions. -/
def phiDestsOf (instrs : List Instr) : List Var := destsOf (instrs.filter (·.isPhi))

theorem phiDestsOf_append (xs ys : List Instr) :
    phiDestsOf (xs ++ ys) = phiDestsOf xs ++ phiDestsOf ys := by
  rw [phiDestsOf, List.filter_append, destsOf_append]
  rfl

theorem phiDestsOf_map_phi (φs : List Phi) : phiDestsOf (φs.map .phi) = φs.map (·.dest) := by
  rw [phiDestsOf, List.filter_eq_self.2, destsOf_map_phi]
  intro i hi
  obtain ⟨φ, _, rfl⟩ := List.mem_map.1 hi
  rfl

theorem phiDestsOf_eq_nil (h : ∀ i ∈ instrs, i.isPhi = false) : phiDestsOf instrs = [] := by
  rw [phiDestsOf, List.filter_eq_nil_iff.2]
  · rfl
  · exact fun i hi => by rw [h i hi]; exact Bool.false_ne_true

/-- Phis stand at the same places, with the same results. -/
structure SamePhis (instrs instrs' : List Instr) : Prop where
  places : instrs'.map (·.isPhi) = instrs.map (·.isPhi)
  dests : phiDestsOf instrs' = phiDestsOf instrs

theorem SamePhis.refl (instrs : List Instr) : SamePhis instrs instrs := ⟨rfl, rfl⟩

/-- Taking away what is no phi leaves the phis. -/
theorem phiDestsOf_removed {gone : List Nat}
    (h : ∀ n ∈ gone, ∀ i, instrs[n]? = some i → i.isPhi = false) :
    phiDestsOf ((instrs.zipIdx.filter fun x => decide (x.2 ∉ gone)).map Prod.fst)
      = phiDestsOf instrs := by
  unfold phiDestsOf
  congr 1
  conv => rhs; rw [← List.zipIdx_map_fst 0 instrs]
  rw [List.filter_map, List.filter_map, List.filter_filter]
  congr 1
  refine List.filter_congr fun x hx => ?_
  have hat := List.mk_mem_zipIdx_iff_getElem?.1 hx
  by_cases hgone : x.2 ∈ gone
  · simp [h x.2 hgone x.1 hat]
  · simp [hgone]

namespace Func

variable {f g h : Func} {new more : List Var}

/-- The results of all phis. -/
def phiDests (f : Func) : List Var := f.blockList.flatMap fun b => phiDestsOf b.instrs

theorem phiDests_rewrite
    (hk : ∀ l b, f.block? l = some b → phiDestsOf (k l b).instrs = phiDestsOf b.instrs) :
    (f.rewrite k).phiDests = f.phiDests := by
  have hblocks : (f.rewrite k).blockList = f.blocks.entries.map fun e => k e.1 e.2 := List.map_map
  rw [phiDests, hblocks, List.flatMap_map, phiDests, blockList, Table.values, List.flatMap_map]
  exact List.flatMap_congr fun e he => hk e.1 e.2 (Table.get?_eq_some_iff.2 he)

theorem phiDests_insertBefore {label : Label} (fresh : label ∉ f.blocks) (before : Label)
    (b : Block) :
    (phiDests { f with blocks := f.blocks.insertBefore before label b }).Perm (f.phiDests ++
      phiDestsOf b.instrs) := by
  refine (((Table.insertBefore_perm fresh before b).map Prod.snd).flatMap_right _).trans ?_
  exact List.perm_append_comm

/-- `g` draws variables as results of the phis that it has more than `f`. -/
structure AddsPhis (f g : Func) (new : List Var) : Prop extends f.Draws g new where
  phis : g.phiDests.Perm (f.phiDests ++ new)

theorem AddsPhis.refl (f : Func) : f.AddsPhis f [] := ⟨Draws.refl f, by rw [List.append_nil]⟩

theorem AddsPhis.trans (hfg : f.AddsPhis g new) (hgh : g.AddsPhis h more) :
    f.AddsPhis h (new ++ more) := by
  refine ⟨hfg.toDraws.trans hgh.toDraws, hgh.phis.trans ?_⟩
  rw [← List.append_assoc]
  exact hfg.phis.append_right more

end Func

/-! ## Preheaders -/

theorem exists_leadingPhis (instrs : List Instr) :
    ∃ (φs : List Phi) (rest : List Instr), instrs = φs.map .phi ++ rest ∧ ∀ i ∈ rest.head?,
      i.isPhi = false := by
  induction instrs with
  | nil => exact ⟨[], [], rfl, fun i hi => by cases hi⟩
  | cons i instrs ih =>
    cases hi : i.isPhi with
    | false =>
      refine ⟨[], i :: instrs, rfl, fun j hj => ?_⟩
      cases hj
      exact hi
    | true =>
      cases i with
      | phi φ =>
        obtain ⟨φs, rest, rfl, hrest⟩ := ih
        exact ⟨φ :: φs, rest, rfl, hrest⟩
      | _ => cases hi

section Splits

variable {loop : List Label} {label : Label} {φs φs' merges : List Phi} {rest : List Instr}
  {before after : Table String Int} {P : Var → Prop}

/-- No header phi was without an operand from outside. -/
theorem outside_of_complete
    (h : (splitHeaderPhis loop label (φs.map .phi ++ rest) before).complete = true) :
    ∀ φ ∈ φs, ∃ a ∈ φ.incoming, a.block ∉ loop := by
  induction φs generalizing before with
  | nil => exact List.forall_mem_nil _
  | cons φ φs ih =>
    rw [List.map_cons, List.cons_append, splitHeaderPhis] at h
    split at h
    · cases h
    · rename_i a more hfilter
      obtain ⟨ha, hout⟩ :=
        List.mem_filter.1 (hfilter ▸ List.mem_cons_self : a ∈ φ.incoming.filter _)
      exact List.forall_mem_cons.2 ⟨⟨a, ha, of_decide_eq_true hout⟩, ih h⟩

/-- The new header phis read what the old ones read, or a merge. -/
theorem Splits.only_phis (h : Splits loop label φs φs' before after merges)
    (houtside : ∀ φ ∈ φs, ∃ a ∈ φ.incoming, a.block ∉ loop)
    (hφs : ∀ φ ∈ φs, (Node.instr (.phi φ)).Only P) :
    ∀ φ' ∈ φs', (Node.instr (.phi φ')).Only fun v => P v ∨ v ∈ merges.map (·.dest) := by
  intro φ' hφ'
  obtain ⟨φ, hφ, hjoins⟩ := exists_of_forall₂ h.phis hφ'
  obtain ⟨hdest, hincoming⟩ := Node.only_phi.1 (hφs φ hφ)
  obtain ⟨x, hincoming', hx⟩ := hjoins.incoming_eq
  refine Node.only_phi.2 ⟨.inl (hjoins.dest_eq ▸ hdest), fun a ha v hv => ?_⟩
  rw [hincoming'] at ha
  rcases mem_of_mem_mergeOutside ha with rfl | ha
  · rcases hx with hsame | ⟨ψ, hψ, rfl, _⟩
    · obtain ⟨a₀, ha₀, hout⟩ := houtside φ hφ
      exact .inl (hincoming a₀ ha₀ v ((hsame a₀ ha₀ hout).trans hv))
    · cases hv
      exact .inr (List.mem_map_of_mem hψ)
  · exact .inl (hincoming a ha v hv)

theorem Splits.only_merges (h : Splits loop label φs φs' before after merges)
    (hφs : ∀ φ ∈ φs, (Node.instr (.phi φ)).Only P) :
    ∀ ψ ∈ merges, (Node.instr (.phi ψ)).Only fun v => P v ∨ v ∈ merges.map (·.dest) := by
  intro ψ hψ
  obtain ⟨φ, hφ, hincoming⟩ := h.source ψ hψ
  refine Node.only_phi.2 ⟨.inr (List.mem_map_of_mem hψ), fun a ha v hv => .inl ?_⟩
  rw [hincoming] at ha
  exact (Node.only_phi.1 (hφs φ hφ)).2 a (List.mem_of_mem_filter ha) v hv

theorem Splits.samePhis (h : Splits loop label φs φs' before after merges) (rest : List Instr) :
    SamePhis (φs.map .phi ++ rest) (φs'.map .phi ++ rest) := by
  have hdests : φs'.map (·.dest) = φs.map (·.dest) := by
    refine List.forall₂_eq_eq_eq ▸ ?_
    rw [List.forall₂_map_left_iff, List.forall₂_map_right_iff]
    exact h.phis.flip.imp fun _ _ hjoins => hjoins.dest_eq
  refine ⟨?_, ?_⟩
  · rw [List.map_append, List.map_append, List.map_map, List.map_map]
    show List.map (fun _ => true) φs' ++ _ = List.map (fun _ => true) φs ++ _
    rw [List.map_const', List.map_const', h.phis.length_eq]
  · rw [phiDestsOf_append, phiDestsOf_append, phiDestsOf_map_phi, phiDestsOf_map_phi, hdests]

end Splits

namespace Func

variable {f g : Func} {header label : Label} {loop : List Label} {merges : List Phi}

/-- Blocks of `f` are there in `g`, with phis where they had phis. -/
def SamePlaces (f g : Func) : Prop :=
  ∀ l b, f.block? l = some b → ∃ b', g.block? l = some b' ∧
    b'.instrs.map (·.isPhi) = b.instrs.map (·.isPhi)

theorem SamePlaces.refl (f : Func) : f.SamePlaces f := fun _ b hb => ⟨b, hb, rfl⟩

/-- `g` has a new block `label` that starts with the phis `merges`; elsewhere phis stand where they
stood. -/
structure PreheaderMade (f g : Func) (label : Label) (merges : List Phi) : Prop extends
    f.AddsPhis g (merges.map (·.dest)) where
  block : ∃ pre, g.block? label = some pre ∧ pre.instrs = merges.map .phi
  places : f.SamePlaces g

/-- Blocks that are redirected are rewritten, their instructions are not. -/
theorem foldl_retarget (sources : List Label) (old new : Label) (f : Func) :
    ∃ k : Label → Block → Block, sources.foldl (fun g p => g.modifyBlock p (·.retarget old new)) f
      = f.rewrite k ∧
      ∀ l b, (k l b).instrs = b.instrs ∧ ∀ P, b.Only P → (k l b).Only P := by
  have hall : ∀ (sources : List Label) (k : Label → Block → Block),
      (∀ l b, (k l b).instrs = b.instrs ∧ ∀ P, b.Only P → (k l b).Only P) →
      ∃ k' : Label → Block → Block,
        sources.foldl (fun g p => g.modifyBlock p (·.retarget old new)) (f.rewrite k)
          = f.rewrite k' ∧
          ∀ l b, (k' l b).instrs = b.instrs ∧ ∀ P, b.Only P → (k' l b).Only P := by
    intro sources
    induction sources with
    | nil => exact fun k hk => ⟨k, rfl, hk⟩
    | cons p sources ih =>
      intro k hk
      rw [List.foldl_cons, modifyBlock_rewrite]
      refine ih _ fun l b => ?_
      split
      · exact ⟨(hk l b).1, fun P hb => ((hk l b).2 P hb).retarget old new⟩
      · exact hk l b
  have hid : f.rewrite (fun _ b => b) = f := by
    refine eq_of_blocks rfl (Table.keys_mapValues _ _) fun l => ?_
    rw [block?_rewrite, Option.map_id']
  obtain ⟨k, hfold, hk⟩ := hall sources (fun _ b => b) fun l b => ⟨rfl, fun P hb => hb⟩
  exact ⟨k, by rw [← hfold, hid], hk⟩

/-- Blocks that keep their phis, and a new block with the merges. -/
theorem preheaderMade_rewrite {φs φs' : List Phi} {after : Table String Int} {pre : Block}
    (fresh : label ∉ f.blocks) (hsplits : Splits loop label φs φs' f.versions after merges)
    (hk : ∀ l b, f.block? l = some b → SamePhis b.instrs (k l b).instrs ∧
      (k l b).Only fun v => f.Occurs v ∨ v ∈ merges.map (·.dest))
    (hpre : pre.instrs = merges.map .phi)
    (honly : pre.Only fun v => f.Occurs v ∨ v ∈ merges.map (·.dest)) :
    f.PreheaderMade
      { f.rewrite k with
        versions := after
        blocks := (f.rewrite k).blocks.insertBefore header label pre } label merges := by
  have fresh' : label ∉ (f.rewrite k).blocks := fun hmem => fresh (Table.mem_mapValues.1 hmem)
  have hrewrite := Only.rewrite (f.only_occurs.imp fun _ hv => .inl hv) fun l b hb => (hk l b hb).2
  have hcode := hrewrite.insertBefore honly header label
  refine
    { only := ⟨hcode.code, hcode.params⟩
      mono := fun v hv n hn => Int.le_trans (hv n hn) (hsplits.le v.name)
      fresh := fun v hv => ?_
      nodup := hsplits.nodup
      phis := ?_
      block := ⟨pre, ?_, hpre⟩
      places := fun l b hb => ⟨k l b, ?_, (hk l b hb).1.places⟩ }
  · obtain ⟨ψ, hψ, rfl⟩ := List.mem_map.1 hv
    obtain ⟨n, hn, hlt, hle⟩ := hsplits.new ψ hψ
    refine ⟨fun hold => absurd (hold n hn) (Int.not_le.2 hlt), fun m hm => ?_⟩
    cases hn.symm.trans hm
    exact hle
  · refine (phiDests_insertBefore fresh' header pre).trans ?_
    rw [phiDests_rewrite fun l b hb => (hk l b hb).1.dests, hpre, phiDestsOf_map_phi]
  · rw [block?, Table.get?_insertBefore fresh', if_pos rfl]
  · have hne : l ≠ label := fun heq => fresh (heq ▸ mem_blocks hb)
    rw [block?, Table.get?_insertBefore fresh', if_neg hne]
    exact block?_rewrite_of_some k hb

end Func

namespace Edit

open Func

variable {f g : Func} {header label : Label} {loop outside : List Label}

/-- What making a preheader does, where it succeeds. -/
theorem Yields.eq_of_makePreheader (h : (makePreheader header loop outside).Yields f label g) :
    ∃ f₁ head, f₁ = outside.foldl (fun g p => g.modifyBlock p (·.retarget header label)) f ∧
      f₁.block? header = some head ∧ label ∉ f.blocks ∧
      (splitHeaderPhis loop label head.instrs f.versions).complete = true ∧
      g =
        let split := splitHeaderPhis loop label head.instrs f.versions
        let f₂ := (f₁.modifyBlock header fun b => { b with instrs := split.instrs }).modifyBlock
          header fun b =>
          { b with preds := mergeOutside (· ∈ loop) label b.preds }
        { f₂ with
          versions := split.versions
          blocks := f₂.blocks.insertBefore header label
            { name := label, instrs := split.merges.map .phi, term := some (.jump header),
              preds := outside } } := by
  have h := (yields_get f).after h
  obtain ⟨_, f₁, hforM, h⟩ := h.of_bind
  obtain ⟨head, _, ⟨hhead, rfl⟩, h⟩ := h.of_bind
  have h := (yields_modify _ _).after h
  dsimp only at h
  split at h
  · obtain ⟨_, _, hfail, _⟩ := h.of_bind
    cases hfail.1
  · rename_i hcomplete
    have h := (yields_modify _ _).after h
    have h := (yields_emit _ _).after h
    obtain ⟨rfl, rfl⟩ := (yields_pure _ _).unique h
    refine ⟨f₁, head, hforM.eq_foldl fun p f f' hp => ?_, getBlock_eq_ok hhead,
      freshLabel_not_mem f _, by simpa using hcomplete, rfl⟩
    obtain ⟨_, _, ⟨_, rfl⟩, hp⟩ := hp.of_bind
    exact ((yields_modify _ _).unique hp).2.symm

theorem Yields.preheaderMade (h : (makePreheader header loop outside).Yields f label g) :
    ∃ merges, f.PreheaderMade g label merges := by
  obtain ⟨f₁, head, hf₁, hhead, fresh, hcomplete, hg⟩ := h.eq_of_makePreheader
  obtain ⟨k, hfold, hk⟩ := foldl_retarget outside header label f
  rw [hfold] at hf₁
  rw [hf₁] at hhead
  obtain ⟨b₀, hb₀, rfl⟩ := of_block?_rewrite hhead
  rw [(hk header b₀).1] at hg hcomplete
  obtain ⟨φs, rest, heq, hrest⟩ := exists_leadingPhis b₀.instrs
  rw [heq] at hg hcomplete
  have houtside := outside_of_complete hcomplete
  obtain ⟨φs', hinstrs, _, hsplits⟩ := splitHeaderPhis_spec label hrest houtside f.versions
  have hφs : ∀ φ ∈ φs, (Node.instr (.phi φ)).Only f.Occurs := fun φ hφ =>
    (f.only_occurs.code hb₀).instrs _ (heq ▸ List.mem_append_left _ (List.mem_map_of_mem hφ))
  simp only [hf₁, modifyBlock_rewrite] at hg
  refine ⟨_, hg ▸ preheaderMade_rewrite fresh hsplits (fun l b hb => ?_) rfl ⟨fun i hi => ?_,
    fun t ht => ?_⟩⟩
  · have honly := (hk l b).2 _ (f.only_occurs.code hb)
    -- At the header the new phis stand for the old ones; elsewhere only targets change.
    by_cases hl : l = header
    · subst hl
      cases hb₀.symm.trans hb
      rw [if_pos rfl, if_pos rfl]
      refine ⟨?_, ⟨fun i hi => ?_, fun t ht => (honly.term t ht).imp fun v hv => .inl hv⟩⟩
      · rw [heq]
        exact hinstrs ▸ hsplits.samePhis rest
      · rcases List.mem_append.1 (hinstrs ▸ hi) with hi | hi
        · obtain ⟨φ', hφ', rfl⟩ := List.mem_map.1 hi
          exact hsplits.only_phis houtside hφs φ' hφ'
        · have hi : i ∈ b₀.instrs := heq ▸ List.mem_append_right _ hi
          exact ((f.only_occurs.code hb₀).instrs i hi).imp fun v hv => .inl hv
    · rw [if_neg hl, if_neg hl]
      exact ⟨(hk l b).1 ▸ .refl _, honly.imp fun v hv => .inl hv⟩
  · obtain ⟨ψ, hψ, rfl⟩ := List.mem_map.1 hi
    exact hsplits.only_merges hφs ψ hψ
  · cases ht
    exact Node.only_jump header

/-- A preheader is there already, or it is made. -/
theorem Yields.of_insertPreheader {made : Bool}
    (h : (insertPreheader header loop).Yields f (label, made) g) :
    made = false ∧ g = f ∨ made = true ∧ ∃ merges, f.PreheaderMade g label merges := by
  obtain ⟨head, _, ⟨_, rfl⟩, h⟩ := h.of_bind
  have hmade : ∀ {outside : List Label},
      (makePreheader header loop outside >>= fun l => pure (l, true)).Yields f (label, made) g →
        made = true ∧ ∃ merges, f.PreheaderMade g label merges := by
    intro outside h
    obtain ⟨l, f', hmake, h⟩ := h.of_bind
    obtain ⟨heq, rfl⟩ := (yields_pure _ _).unique h
    cases heq
    exact ⟨rfl, hmake.preheaderMade⟩
  split at h
  · obtain ⟨_, _, _, h⟩ := h.of_bind
    cases h.1
  · obtain ⟨b, _, ⟨_, rfl⟩, h⟩ := h.of_bind
    split at h
    · obtain ⟨heq, rfl⟩ := (yields_pure _ _).unique h
      cases heq
      exact .inl ⟨rfl, rfl⟩
    · exact .inr (hmade h)
  · exact .inr (hmade h)

end Edit

/-! ## Loop-invariant code motion -/

namespace Func

variable {f g : Func} {new : List Var} {sites : List Site}

theorem AddsPhis.rewrite (h : f.AddsPhis g new)
    (hphis : ∀ l b, g.block? l = some b → phiDestsOf (k l b).instrs = phiDestsOf b.instrs)
    (honly : ∀ l b, b.Only (fun v => f.Occurs v ∨ v ∈ new) → (k l b).Only fun v => f.Occurs v ∨
      v ∈ new) : f.AddsPhis (g.rewrite k) new where
  only := h.only.rewrite fun l b hb => honly l b (h.only.code hb)
  mono := h.mono
  fresh := h.fresh
  nodup := h.nodup
  phis := by rw [phiDests_rewrite hphis]; exact h.phis

/-- Moving instructions that are no phis leaves the phis. The places are those of `f`, and phis
stand there in `g` where they stood in `f`. -/
theorem AddsPhis.moveSites (h : f.AddsPhis g new)
    (hsites : ∀ s ∈ sites, f.HasSite s ∧ s.instr.isPhi = false) (hplaces : f.SamePlaces g)
    (pre : Label) :
    f.AddsPhis ((g.removeSites sites).modifyBlock pre fun b =>
      { b with instrs := b.instrs ++ sites.map (·.instr) })
      new := by
  have hgone : ∀ {l b}, g.block? l = some b → ∀ n ∈ (sites.filter (·.block = l)).map (·.index),
      ∀ i, b.instrs[n]? = some i → i.isPhi = false := by
    intro l b hb n hn i hi
    obtain ⟨s, hs, rfl⟩ := List.mem_map.1 hn
    obtain ⟨hs, hl⟩ := List.mem_filter.1 hs
    obtain ⟨⟨b₀, hb₀, hat⟩, hphi⟩ := hsites s hs
    -- The site names a place of `f`, where in `g` there is no phi either.
    obtain ⟨b', hb', hplace⟩ := hplaces _ b₀ hb₀
    rw [of_decide_eq_true hl, hb] at hb'
    cases hb'
    have hplace := congrArg (·[s.index]?) hplace
    simp only [List.getElem?_map, hi, hat, Option.map_some, Option.some.injEq] at hplace
    exact hplace.trans hphi
  have hremoved : f.AddsPhis (g.removeSites sites) new := by
    refine h.rewrite (fun l b hb => phiDestsOf_removed (hgone hb)) fun l b hb =>
      hb.setInstrs fun i hi => ?_
    obtain ⟨x, hx, rfl⟩ := List.mem_map.1 hi
    exact hb.instrs _ (List.fst_mem_of_mem_zipIdx (List.mem_of_mem_filter hx))
  refine hremoved.rewrite (fun l b hb => ?_) fun l b hb => ?_
  · split
    · have hnone : phiDestsOf (sites.map (·.instr)) = [] := by
        refine phiDestsOf_eq_nil fun i hi => ?_
        obtain ⟨s, hs, rfl⟩ := List.mem_map.1 hi
        exact (hsites s hs).2
      rw [phiDestsOf_append, hnone, List.append_nil]
    · rfl
  · split
    · refine hb.setInstrs fun i hi => ?_
      rcases List.mem_append.1 hi with hi | hi
      · exact hb.instrs i hi
      · obtain ⟨s, hs, rfl⟩ := List.mem_map.1 hi
        obtain ⟨⟨b₀, hb₀, hat⟩, _⟩ := hsites s hs
        exact ((f.only_occurs.code hb₀).instrs _ (List.mem_of_getElem? hat)).imp fun v hv => .inl hv
    · exact hb

theorem isPhi_of_invariant {s : Site} (hs : s ∈ f.invariantSites d loop) :
    s.instr.isPhi = false := by
  obtain ⟨⟨rest, hperm⟩, _⟩ := growInvariants_spec _ _ [] _
  exact isPhi_of_isMovable (List.mem_filter.1 (hperm.subset (List.mem_append_left _ hs))).2

end Func

namespace Edit

open Func

variable {f g : Func}

theorem Yields.addsPhis_of_hoistSites {sites : List Site} {r : Label × Bool}
    (hsites : ∀ s ∈ sites, f.HasSite s ∧ s.instr.isPhi = false)
    (h : (hoistSites loop sites).Yields f r g) : ∃ new, f.AddsPhis g new := by
  obtain ⟨⟨pre, made⟩, f₁, hinsert, h⟩ := h.of_bind
  obtain ⟨_, _, ⟨_, rfl⟩, h⟩ := h.of_bind
  have h := (yields_modify _ _).after h
  have h := (yields_get _).after h
  obtain ⟨_, _, hemit, h⟩ := h.of_bind
  obtain ⟨_, rfl⟩ := (yields_forM_emit _ _ _).unique hemit
  obtain ⟨_, rfl⟩ := (yields_pure _ _).unique h
  rcases hinsert.of_insertPreheader with ⟨_, rfl⟩ | ⟨_, merges, hpre⟩
  · exact ⟨[], (AddsPhis.refl f₁).moveSites hsites (.refl f₁) pre⟩
  · exact ⟨_, hpre.toAddsPhis.moveSites hsites hpre.places pre⟩

theorem Yields.addsPhis_of_hoistLoops {fuel : Nat} {forest : LoopForest} {done : List Label}
    {r : List Label × List Hoisted} (h : (hoistLoops fuel d forest done).Yields f r g) :
    ∃ new, f.AddsPhis g new := by
  induction fuel generalizing f d forest done r with
  | zero =>
    obtain ⟨_, rfl⟩ := (yields_pure _ _).unique h
    exact ⟨[], .refl f⟩
  | succ fuel ih =>
    rw [hoistLoops] at h
    split at h
    · obtain ⟨_, rfl⟩ := (yields_pure _ _).unique h
      exact ⟨[], .refl f⟩
    · rename_i loop _
      have h := (yields_get _).after h
      dsimp only at h
      split at h
      · exact ih h
      · obtain ⟨⟨pre, made⟩, f₁, hmove, h⟩ := h.of_bind
        obtain ⟨new, hnew⟩ := hmove.addsPhis_of_hoistSites fun s hs =>
          ⟨(mem_sites.1 (mem_sites_of_invariant hs)).2, isPhi_of_invariant hs⟩
        have hrest : ∃ d forest r',
            (hoistLoops fuel d forest (loop.header :: done)).Yields f₁ r' g := by
          dsimp only at h
          split at h
          · obtain ⟨d', f₂, hdom, h⟩ := h.of_bind
            obtain ⟨rfl, _⟩ := keeps_dominators (I := (f₁ = ·)) rfl hdom
            obtain ⟨forest', f₂, hloops, h⟩ := h.of_bind
            obtain ⟨rfl, _⟩ := keeps_loops (I := (f₁ = ·)) d' rfl hloops
            obtain ⟨r', _, hrest, h⟩ := h.of_bind
            obtain ⟨_, rfl⟩ := (yields_pure _ _).unique h
            exact ⟨d', forest', r', hrest⟩
          · obtain ⟨r', _, hrest, h⟩ := h.of_bind
            obtain ⟨_, rfl⟩ := (yields_pure _ _).unique h
            exact ⟨d, forest, r', hrest⟩
        obtain ⟨d', forest', r', hrest⟩ := hrest
        obtain ⟨more, hmore⟩ := ih hrest
        exact ⟨new ++ more, hnew.trans hmore⟩

theorem Yields.addsPhis_of_hoist {r : HoistReport} (h : hoist.Yields f r g) :
    ∃ new, f.AddsPhis g new := by
  have h := (yields_get _).after h
  dsimp only at h
  split at h
  · obtain ⟨_, _, hfail, _⟩ := h.of_bind
    cases hfail.1
  · obtain ⟨d, f₁, hdom, h⟩ := h.of_bind
    obtain ⟨rfl, _⟩ := keeps_dominators (I := (f = ·)) rfl hdom
    obtain ⟨forest, f₁, hloops, h⟩ := h.of_bind
    obtain ⟨rfl, _⟩ := keeps_loops (I := (f = ·)) d rfl hloops
    obtain ⟨r', _, hrest, h⟩ := h.of_bind
    obtain ⟨_, rfl⟩ := (yields_pure _ _).unique h
    exact hrest.addsPhis_of_hoistLoops

end Edit

end ThreeAddress
