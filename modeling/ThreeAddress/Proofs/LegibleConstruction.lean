import ThreeAddress.Proofs.LegibleCode

/-!
# SSA construction keeps code that can be written

One lemma for each edit says that it keeps a function presentable, whatever makes it succeed. Only
the deletion of unreachable blocks is told by what it is known to do, since the entry must not be
among them (`enterSsa_presentable`).
-/

namespace ThreeAddress

open Text

variable {x : String} {l : Label} {b : Block}

/-! ## Renaming -/

section Renaming

variable {versions : Table String Int} {defs : Reaching} {instrs : List Instr} {i : Instr}

theorem nonneg_insert (hv : ∀ x, 0 ≤ versions.getD x 0) (x : String) {n : Int} (hn : 0 ≤ n)
    (y : String) : 0 ≤ (versions.insert x n).getD y 0 := by
  rw [Table.getD_insert]
  split
  · exact hn
  · exact hv y

theorem nonneg_next (hv : ∀ x, 0 ≤ versions.getD x 0) (x : String) : 0 ≤ versions.getD x 0 + 1 :=
  Int.add_nonneg (hv x) (Int.zero_le_ofNat 1)

/-- The next version of a name that can be written can be written. -/
theorem Var.Legible.next {v : Var} (h : v.Legible) (hv : ∀ x, 0 ≤ versions.getD x 0) :
    Var.Legible ⟨v.name, some (versions.getD v.name 0 + 1)⟩ := by
  refine ⟨h.name, fun n hn => ?_⟩
  cases hn
  exact nonneg_next hv v.name

def Reaching.Legible (defs : Reaching) : Prop := defs.Only Var.Legible

theorem Reaching.Legible.resolve (h : defs.Legible) {x : Operand} (hx : x.Legible) :
    (defs.resolve x).Legible := by
  cases x with
  | var v =>
    show Operand.Legible (((defs.get? v.name).map Operand.var).getD .undefined)
    cases hv : defs.get? v.name with
    | none => exact Operand.legible_undefined
    | some w => exact (h.get? hv).operand
  | const n => exact hx
  | undefined => exact hx

theorem Reaching.Legible.refusedInstr (h : defs.Legible) (hi : (Node.instr i).Legible) :
    (Node.instr (refusedInstr defs i)).Legible := by
  have hpair : ∀ {x y : Operand}, (∀ z ∈ [x, y], z.Legible) → ∀ z ∈ [defs.resolve x, y],
      z.Legible := by
    intro x y hxy z hz
    rcases List.mem_pair.1 hz with rfl | rfl
    · exact h.resolve (hxy x (.head _))
    · exact hxy _ (.tail _ (.head _))
  cases i with
  | binary d op l r =>
    rw [ThreeAddress.refusedInstr]
    split
    · exact ⟨hi.dest, hpair hi.uses, hi.labels, hi.callees⟩
    · exact hi
  | store a v =>
    rw [ThreeAddress.refusedInstr]
    split
    · exact ⟨hi.dest, hpair hi.uses, hi.labels, hi.callees⟩
    · exact hi
  | _ => exact hi

theorem Reaching.Legible.renameDest (h : defs.Legible) (hi : (Node.instr i).Legible)
    (hv : ∀ x, 0 ≤ versions.getD x 0) :
    (Node.instr (renameDest i versions defs).1).Legible ∧
      (∀ x, 0 ≤ (renameDest i versions defs).2.1.getD x 0) ∧
      Reaching.Legible (renameDest i versions defs).2.2 := by
  unfold ThreeAddress.renameDest
  split
  · exact ⟨hi, hv, h⟩
  · rename_i d hd
    have hfresh := (hi.dest d hd).next hv
    exact ⟨hi.setDest hfresh, nonneg_insert hv d.name (nonneg_next hv d.name), h.push d.name hfresh⟩

theorem Reaching.Legible.renameInstrs (h : defs.Legible) (policy : UndefinedPolicy)
    (hinstrs : ∀ i ∈ instrs, (Node.instr i).Legible) (hv : ∀ x, 0 ≤ versions.getD x 0) :
    (∀ i ∈ (renameInstrs policy instrs versions defs).instrs, (Node.instr i).Legible) ∧
      (∀ x, 0 ≤ (renameInstrs policy instrs versions defs).versions.getD x 0) ∧
      (renameInstrs policy instrs versions defs).defs.Legible := by
  induction instrs generalizing versions defs with
  | nil => exact ⟨hinstrs, hv, h⟩
  | cons i rest ih =>
    obtain ⟨hi, hrest⟩ := List.forall_mem_cons.1 hinstrs
    unfold ThreeAddress.renameInstrs
    dsimp only
    split
    · exact ⟨List.forall_mem_cons.2 ⟨h.refusedInstr hi, hrest⟩, hv, h⟩
    · have hused : (Node.instr (if i.isPhi then i else i.mapUses defs.resolve)).Legible := by
        split
        · exact hi
        · exact hi.mapUses fun x hx => h.resolve hx
      obtain ⟨hhere, hv', h'⟩ := h.renameDest hused hv
      obtain ⟨htail, hversions, hdefs⟩ := ih h' hrest hv'
      exact ⟨List.forall_mem_cons.2 ⟨hhere, htail⟩, hversions, hdefs⟩

theorem mem_setFirst {b : Label} {v : Operand} {args : List PhiArg} {a : PhiArg}
    (h : a ∈ Phi.setFirst b v args) : a ∈ args ∨ a.value = v ∧ ∃ a' ∈ args, a.block = a'.block := by
  induction args with
  | nil => cases h
  | cons a' args ih =>
    unfold Phi.setFirst at h
    split at h
    · rcases List.mem_cons.1 h with rfl | h
      · exact .inr ⟨rfl, a', .head _, rfl⟩
      · exact .inl (.tail _ h)
    · rcases List.mem_cons.1 h with rfl | h
      · exact .inl (.head _)
      · rcases ih h with h | ⟨hvalue, c, hc, hblock⟩
        · exact .inl (.tail _ h)
        · exact .inr ⟨hvalue, c, .tail _ hc, hblock⟩

/-- Instructions stay as they are, or are phis that take what reaches the end of the predecessor. -/
theorem mem_of_fillPhis (h : i ∈ (fillPhis l defs instrs).instrs) :
    i ∈ instrs ∨ ∃ φ, .phi φ ∈ instrs ∧
      i = .phi { φ with
        incoming := Phi.setFirst l (defs.resolve (.var ⟨φ.dest.name, none⟩)) φ.incoming } := by
  induction instrs with
  | nil => exact .inl h
  | cons j rest ih =>
    cases j with
    | phi φ =>
      unfold fillPhis at h
      dsimp only at h
      split at h
      · exact .inl h
      · rename_i φ' hφ'
        unfold Phi.setValue? at hφ'
        split at hφ'
        · cases hφ'
          rcases List.mem_cons.1 h with rfl | h
          · exact .inr ⟨φ, .head _, rfl⟩
          · rcases ih h with h | ⟨ψ, hψ, heq⟩
            · exact .inl (.tail _ h)
            · exact .inr ⟨ψ, .tail _ hψ, heq⟩
        · cases hφ'
    | _ => exact .inl h

theorem Reaching.Legible.fillPhis (h : defs.Legible) (l : Label)
    (hinstrs : ∀ i ∈ instrs, (Node.instr i).Legible) :
    ∀ i ∈ (fillPhis l defs instrs).instrs, (Node.instr i).Legible := by
  intro i hi
  rcases mem_of_fillPhis hi with hi | ⟨φ, hφ, rfl⟩
  · exact hinstrs i hi
  · have hlegible := (hinstrs _ hφ).phi
    refine Phi.Legible.node ⟨hlegible.dest, fun a ha => ?_⟩
    rcases mem_setFirst ha with ha | ⟨hvalue, a', ha', hblock⟩
    · exact hlegible.incoming a ha
    · rw [hvalue, hblock]
      have hname : (Operand.var ⟨φ.dest.name, none⟩).Legible :=
        Var.Legible.operand ⟨hlegible.dest.name, fun n hn => by cases hn⟩
      exact ⟨(hlegible.incoming a' ha').1, h.resolve hname⟩

end Renaming

namespace Edit

open Func

variable {defs : Reaching}

theorem getBlock_keeps (l : Label) :
    (ask (·.getBlock l)).Keeps Presentable fun b => b.name = l ∧ b.Legible :=
  keeps_ask fun _ _ h hb => h.blocks (getBlock_eq_ok hb)

theorem fillSuccessors_keeps (h : defs.Legible) (l : Label) (succs : List Label) :
    (fillSuccessors l defs succs).Keeps Presentable fun _ => True := by
  induction succs with
  | nil => exact keeps_pure trivial
  | cons s succs ih =>
    refine (getBlock_keeps s).bind fun b hb => (keeps_modify fun f hf => ?_).bind fun _ _ => ?_
    · exact hf.setInstrs s (h.fillPhis l hb.2.instrs)
    · split
      · exact keeps_fail _
      · exact ih.bind fun _ _ => keeps_pure trivial

theorem refuseUse_keeps {α : Type} (l : Label) (x : String) :
    (refuseUse l x : Edit α).Keeps Presentable fun _ => False :=
  keeps_get.bind fun _ _ => keeps_fail _

theorem renameBlock_keeps (policy : UndefinedPolicy) (l : Label) (h : defs.Legible) :
    (renameBlock policy l defs).Keeps Presentable fun r => Reaching.Legible r.1 := by
  refine (getBlock_keeps l).bind fun b hb => keeps_get.bind fun g hg => ?_
  obtain ⟨hinstrs, hversions, hdefs⟩ := h.renameInstrs policy hb.2.instrs hg.counters
  refine (keeps_modify fun f hf => ?_).bind fun _ _ => ?_
  · exact (hf.setInstrs l hinstrs).setVersions hversions
  · dsimp only
    split
    · exact (refuseUse_keeps l _).bind fun _ hfalse => hfalse.elim
    · split
      · exact (refuseUse_keeps l _).imp fun _ hfalse => hfalse.elim
      · refine (keeps_modify fun f hf => ?_).bind fun _ _ => ?_
        · exact hf.modifyBlock l fun c _ hc => ⟨rfl, hc.mapTerm fun t ht => ht.mapUses fun x hx =>
            hdefs.resolve hx⟩
        · exact (fillSuccessors_keeps hdefs l _).bind fun _ _ => keeps_pure hdefs

theorem renameAlong_keeps (policy : UndefinedPolicy) (tour : List TreeStep) (h : defs.Legible)
    (pushed : Table Label (List String)) :
    (renameAlong policy tour defs pushed).Keeps Presentable fun _ => True := by
  induction tour generalizing defs pushed with
  | nil => exact keeps_pure trivial
  | cons step tour ih =>
    cases step with
    | leave l => exact ih (h.pops _) _
    | enter l =>
      exact keeps_get.bind fun _ _ => (renameBlock_keeps policy l h).bind fun r hr =>
        (ih hr _).bind fun _ _ => keeps_pure trivial

theorem rename_keeps (policy : UndefinedPolicy) (d : Dominators) :
    (rename policy d).Keeps Presentable fun _ => True := by
  refine (keeps_modify fun f hf => ?_).bind fun _ _ => keeps_get.bind fun g hg => ?_
  · exact hf.setVersions (nonneg_start f.params)
  · refine renameAlong_keeps policy _ (Reaching.only_ofParams fun p hp => ?_) _
    refine ⟨hg.params p hp, fun n hn => ?_⟩
    cases hn
    exact Int.le_refl 0

end Edit

/-! ## Placing phis -/

theorem mem_of_mem_foldl_addDefBlock {assignments : List (String × Label)}
    {sites : Table String (List Label)}
    (h : x ∈ assignments.foldl (fun sites a => addDefBlock sites a.1 a.2) sites) :
    x ∈ sites ∨ x ∈ assignments.map Prod.fst := by
  induction assignments generalizing sites with
  | nil => exact .inl h
  | cons a rest ih =>
    rcases ih h with h | h
    · rcases Table.mem_insert.1 h with rfl | h
      · exact .inr (.head _)
      · exact .inl h
    · exact .inr (.tail _ h)

namespace Func

variable {f : Func}

theorem Legible.isName_assignedIn (h : f.Legible) (hx : x ∈ f.assignedIn l) : isName x = true := by
  unfold assignedIn at hx
  split at hx
  · cases hx
  · rename_i b hb
    obtain ⟨i, hi, hdest⟩ := List.mem_filterMap.1 hx
    obtain ⟨v, hv, rfl⟩ := Option.map_eq_some_iff.1 hdest
    exact (((h.blocks hb).2.instrs i hi).dest v hv).name

theorem Legible.phiSites (h : f.Legible) (order : List Label) (df : Frontiers) :
    ∀ s ∈ f.phiSites order df, isName s.1 = true := by
  intro s hs
  obtain ⟨⟨x, ls⟩, hmem, rfl⟩ := List.mem_map.1 hs
  have hx : x ∈ f.defBlocks order := Table.mem_of_get? (Table.get?_eq_some_iff.2 hmem)
  rcases mem_of_mem_foldl_addDefBlock hx with hx | hx
  · rw [Table.mem_ofList, List.map_map] at hx
    obtain ⟨p, hp, rfl⟩ := List.mem_map.1 hx
    exact h.params p hp
  · obtain ⟨a, ha, rfl⟩ := List.mem_map.1 hx
    obtain ⟨l, _, ha⟩ := List.mem_flatMap.1 ha
    obtain ⟨y, hy, rfl⟩ := List.mem_map.1 ha
    exact h.isName_assignedIn hy

theorem Presentable.placePhis (h : f.Presentable) {sites : List (String × List Label)}
    (hsites : ∀ s ∈ sites, isName s.1 = true) : (f.placePhis sites).Presentable := by
  refine h.rewrite fun l b hb hlegible => ⟨rfl, hlegible.setInstrs fun i hi => ?_⟩
  rcases List.mem_append.1 hi with hi | hi
  · obtain ⟨x, hx, rfl⟩ := List.mem_map.1 hi
    obtain ⟨s, hs, rfl⟩ := List.mem_map.1 hx
    have hname : Var.Legible ⟨s.1, none⟩ :=
      ⟨hsites s (List.mem_of_mem_filter hs), fun n hn => by cases hn⟩
    refine Phi.Legible.node ⟨hname, fun a ha => ?_⟩
    obtain ⟨p, hp, rfl⟩ := List.mem_map.1 ha
    exact ⟨hlegible.preds p hp, hname.operand⟩
  · exact hlegible.instrs i hi

theorem Presentable.setPreds (h : f.Presentable) {edges : List (Label × Label)}
    (hedges : ∀ e ∈ edges, isName e.1 = true) : (f.setPreds edges).Presentable := by
  refine h.rewrite fun l b hb hlegible => ⟨rfl, hlegible.setPreds fun p hp => ?_⟩
  obtain ⟨e, he, rfl⟩ := List.mem_map.1 hp
  exact hedges e (List.mem_of_mem_filter he)

theorem Legible.edges (h : f.Legible) : ∀ e ∈ f.edges, isName e.1 = true := by
  intro e he
  obtain ⟨b, hb, he⟩ := List.mem_flatMap.1 he
  obtain ⟨s, _, rfl⟩ := List.mem_map.1 he
  obtain ⟨l, hl⟩ := Table.mem_values.1 hb
  exact (h.blocks hl).2.name

/-- A new block in front of the entry. -/
theorem Presentable.insertEntry (h : f.Presentable) {label : Label} (fresh : label ∉ f.blocks)
    (hname : b.name = label) (hb : b.Legible) :
    Presentable { f with blocks := f.blocks.insertBefore f.entry label b, entry := label } where
  toLegible := ⟨h.name, h.params, h.params_nodup,
    (h.toLegible.insertBefore hname hb f.entry).blocks, h.counters⟩
  entry_first := by
    rw [Table.head?_keys_insertBefore fresh b h.entry_first, if_pos rfl]

end Func

namespace Edit

open Func

theorem placePhis_keeps (d : Dominators) : (Edit.placePhis d).Keeps Presentable fun _ => True :=
  keeps_get.bind fun _ hg => (keeps_modify fun _ hf => hf.placePhis (hg.phiSites _ _)).bind
    fun _ _ => keeps_pure trivial

theorem link_keeps : link.Keeps Presentable fun _ => True := by
  refine keeps_get.bind fun g hg => (keeps_modify fun f hf => hf.setPreds fun e he => ?_).bind
    fun _ _ => ?_
  · split
    · exact keeps_fail _
    · exact keeps_pure trivial
  · exact hg.edges e (List.takeWhile_subset _ he)

theorem ensureEntry_keeps : ensureEntry.Keeps Presentable fun _ => True := by
  refine keeps_get.bind fun g hg => ?_
  split
  · exact keeps_fail _
  · rename_i old hold
    split
    · exact keeps_pure trivial
    · refine (keeps_modify fun _ _ => ?_).bind fun _ _ => (keeps_emit _).bind fun _ _ =>
        keeps_pure trivial
      obtain ⟨hname, hlegible⟩ := hg.blocks hold
      have hlabel : isName (g.freshLabel "entry") = true := isName_freshLabel g (by decide)
      have hled : (g.modifyBlock g.entry
          (addEntryPred g.params (g.freshLabel "entry"))).Presentable := by
        refine hg.modifyBlock g.entry fun b _ hb => ⟨rfl, ?_⟩
        refine (hb.setPreds fun p hp => ?_).mapPhis fun φ hφ => ⟨hφ.dest, fun a ha => ?_⟩
        · rcases List.mem_append.1 hp with hp | hp
          · exact hb.preds p hp
          · rw [List.mem_singleton.1 hp]
            exact hlabel
        · rcases List.mem_append.1 ha with ha | ha
          · exact hφ.incoming a ha
          · rw [List.mem_singleton.1 ha]
            refine ⟨hlabel, ?_⟩
            unfold entryValue
            split
            · refine Var.Legible.operand ⟨hφ.dest.name, fun n hn => ?_⟩
              cases hn
              exact Int.le_refl 0
            · exact Operand.legible_undefined
      rw [hname]
      refine hled.insertEntry ?_ rfl ⟨hlabel, List.forall_mem_nil _, fun t ht => ?_,
        List.forall_mem_nil _⟩
      · exact fun hmem => g.freshLabel_not_mem "entry" (Table.mem_modify.1 hmem)
      · cases ht
        exact legible_jump (hg.toLegible.isName_label hold)

theorem pruneDeadPhis_keeps : pruneDeadPhis.Keeps Presentable fun _ => True := by
  refine keeps_get.bind fun g hg => (keeps_modify fun _ _ => ?_).bind fun _ _ => ?_
  · exact hg.rewrite fun l b _ hb =>
      ⟨rfl, hb.setInstrs fun i hi => hb.instrs i (List.mem_of_mem_filter hi)⟩
  · split
    · exact (keeps_emit _).bind fun _ _ => keeps_pure trivial
    · exact keeps_pure trivial

end Edit

/-! ## The whole construction -/

theorem Block.Legible.keepPreds (h : b.Legible) (keep : Label → Bool) :
    (b.keepPreds keep).Legible := by
  refine (h.setPreds fun p hp => h.preds p (List.mem_of_mem_filter hp)).mapPhis fun φ hφ =>
    ⟨hφ.dest, fun a ha => ?_⟩
  exact hφ.incoming a (List.mem_of_mem_filter ha)

namespace Func

variable {f : Func}

theorem Presentable.keepBlocks (h : f.Presentable) {keep : Label → Bool}
    (hentry : keep f.entry = true) : (f.keepBlocks keep).Presentable where
  name := h.name
  params := h.params
  params_nodup := h.params_nodup
  blocks hb' := by
    obtain ⟨_, b, hb, rfl⟩ := of_block?_keepBlocks hb'
    obtain ⟨hname, hlegible⟩ := h.blocks hb
    exact ⟨hname, hlegible.keepPreds keep⟩
  counters := h.counters
  entry_first := by
    rw [keys_keepBlocks]
    have hfirst := h.entry_first
    cases hkeys : f.blocks.keys with
    | nil =>
      rw [hkeys] at hfirst
      cases hfirst
    | cons l rest =>
      rw [hkeys] at hfirst
      cases hfirst
      rw [List.filter_cons_of_pos hentry]
      rfl

theorem Source.enterSsa_presentable (h : f.Source) (hf : f.Presentable) {policy : UndefinedPolicy}
    {prune : Bool} {c : Construction} {f' : Func}
    (hyields : (Edit.enterSsa policy prune).Yields f c f') : f'.Presentable := by
  obtain ⟨dead, live, hlive, hremove⟩ := h.wf.removeUnreachable
  have hstart : (f.keepBlocks fun l => decide (l ∈ live)).Presentable :=
    hf.keepBlocks (decide_eq_true ((hlive f.entry).2 Graph.reachable_entry))
  have hrest := (Edit.yields_get f).after hyields
  rw [h.ssa] at hrest
  obtain ⟨dead', f₂, hremove', hrest⟩ := Edit.Yields.of_bind hrest
  obtain ⟨_, rfl⟩ := hremove.unique hremove'
  refine (Edit.Keeps.bind (S := fun _ => True) Edit.ensureEntry_keeps (fun _ _ =>
    ?_) hstart hrest).1
  refine Edit.link_keeps.bind fun _ _ => Edit.keeps_dominators.bind fun d _ =>
    (Edit.placePhis_keeps d).bind fun placed _ =>
    (Edit.rename_keeps policy d).bind fun uses _ => (Edit.keeps_modify fun g hg => ?_).bind
      fun _ _ => ?_
  · exact ⟨⟨hg.name, hg.params, hg.params_nodup, hg.blocks, hg.counters⟩, hg.entry_first⟩
  · dsimp only
    split
    · exact Edit.pruneDeadPhis_keeps.bind fun _ _ => (Edit.keeps_emit _).bind fun _ _ =>
        Edit.keeps_pure trivial
    · refine (Edit.keeps_pure (R := fun _ => True) trivial).bind fun _ _ => ?_
      exact (Edit.keeps_emit _).bind fun _ _ => Edit.keeps_pure trivial

end Func

end ThreeAddress
