import ThreeAddress.Proofs.Construction
import ThreeAddress.Proofs.DeadPhis

/-!
# Bringing a function into SSA form

SSA construction succeeds on every well-formed function without phis and versions. Its result is in
SSA form, and runs as the function did, with one step more in each activation if something jumped to
the entry.
-/

namespace ThreeAddress

namespace Func

variable {f g : Func} {names : Label → List String} {starts : Label → RenamePoint}
  {versions : Table String Int} {d : Dominators}

/-! ## Placing and renaming -/

/-- The prepared function keeps plain names. -/
theorem Plain.prepared {front : List Label} (h : f.Plain) (led : LedThrough f g front) :
    g.Plain := by
  intro n hn
  obtain ⟨l, b', hb', hn⟩ := mem_nodes.1 hn
  rcases led.code hb' with ⟨_, hnil, s, hjump⟩ | ⟨_, b, hb, hinstrs, hterm⟩
  · rw [Block.nodes, hnil, hjump] at hn
    rw [List.mem_singleton.1 hn]
    refine ⟨fun v hv => ?_, fun v hv => ?_⟩ <;> cases hv
  · rw [Block.nodes, hinstrs, hterm] at hn
    exact h n (mem_nodes.2 ⟨l, b, hb, hn⟩)

theorem renamedOn_nil (f : Func) (starts : Label → RenamePoint) (versions : Table String Int) :
    f.renamedOn starts [] versions = f.setVersions versions := by
  refine eq_of_blocks rfl (Table.keys_mapValues _ _) fun l => ?_
  rw [block?_setVersions]
  show (f.rewrite _).block? l = _
  rw [block?_rewrite]
  cases f.block? l with
  | none => rfl
  | some b =>
    rw [Option.map_some, renamedBlock_of_not_mem List.not_mem_nil, mapLeadingPhis_congr (h := id),
      mapLeadingPhis_id]
    exact fun φ _ => φ.fill_nil

/-- The walk over the dominator tree succeeds. -/
theorem Walkable.rename_yields (hf : f.Walkable) (hd : d.Describes f.graph) :
    ∃ uses starts versions,
      (Edit.rename .sentinel d).Yields f uses (f.renamedOn starts d.preorder versions) ∧
      Walked f d (.ofParams f.params) starts d.preorder versions ∧
      Edit.RefusesIf (∃ l ∈ d.preorder, f.LacksDef starts l) (Edit.rename .refuse d)
        (Edit.rename .sentinel d) f := by
  obtain ⟨hpre, mem_pre, _⟩ := Graph.preorder_spec hd
  obtain ⟨hentered, hnested⟩ := Graph.tour_spec hd
  have hnone : Walked f d (.ofParams f.params) (fun _ => ⟨.empty, .ofParams []⟩) []
      (Table.ofList (f.params.map fun p => (p, (0 : Int)))) :=
    ⟨by simp, by simp, .nil, by simp, by simp, nonneg_start f.params⟩
  have hpath : OnPath f (.ofParams f.params) (fun _ => ⟨.empty, .ofParams []⟩) [] []
      (.ofParams f.params) .empty := ⟨by simp, .nil, by simp, fun _ => rfl⟩
  have hblocks : ∀ l ∈ TreeStep.entered d.tour, l ∈ f.blocks := fun l hl =>
    hf.mem_of_reachable ((mem_pre l).1 (hentered ▸ hl))
  obtain ⟨uses, starts, versions, hyields, hwalked, _, hrefuse⟩ :=
    hf.renameAlong_yields hnested (hentered ▸ hpre) hblocks hpath hnone
  rw [List.nil_append, hentered] at hyields hwalked
  rw [hentered] at hrefuse
  rw [renamedOn_nil] at hyields hrefuse
  exact ⟨uses, starts, versions, (Edit.yields_modify _ f).bind ((Edit.yields_get _).bind hyields),
    hwalked, .bind_right (Edit.yields_modify _ f) (.bind_right (Edit.yields_get _) hrefuse)⟩

/-- The prepared function is brought into SSA form. -/
theorem Prepared.construct (h : Prepared f g) (plain : f.Plain) (nodup : f.params.Nodup) :
    ∃ d placed uses names starts versions, Edit.dominators.Yields g d g ∧
      (Edit.placePhis d).Yields g placed (g.phied names) ∧
      (Edit.rename .sentinel d).Yields (g.phied names) uses
        ((g.phied names).renamedOn starts d.preorder versions) ∧
      Building g d names starts versions ∧
      names = phiNames (g.phiSites d.order (g.graph.frontiers d)) ∧
      Edit.RefusesIf (∃ l ∈ d.preorder, (g.phied names).LacksDef starts l) (Edit.rename .refuse d)
        (Edit.rename .sentinel d) (g.phied names) := by
  obtain ⟨d, hdom, hd⟩ := h.wf.dominators
  obtain ⟨front, hled⟩ := h.led
  have nodup : g.params.Nodup := h.params_eq ▸ nodup
  have hphied := h.wf.placePhis h.phiFree (g.phiSites d.order (g.graph.frontiers d))
  have hd' : d.Describes (g.placePhis (g.phiSites d.order (g.graph.frontiers d))).graph := by
    rw [graph_placePhis]
    exact hd
  obtain ⟨uses, starts, versions, hrename, hwalked, hrefuse⟩ := hphied.walkable.rename_yields hd'
  refine ⟨d, sumOf (fun s => s.2.length) (g.phiSites d.order (g.graph.frontiers d)), uses,
    phiNames (g.phiSites d.order (g.graph.frontiers d)), starts, versions,
    Edit.yields_dominators hdom, ?_, hrename, ?_, rfl, hrefuse⟩
  · exact (Edit.yields_get g).bind ((Edit.yields_modify _ g).bind (Edit.yields_pure _ _))
  · exact
      { wf := h.wf
        phiFree := h.phiFree
        plain := plain.prepared hled
        params_nodup := nodup
        reachable := h.reachable
        entry_first := h.entry_first
        describes := hd
        placed := phisPlaced hd nodup
        walked := hwalked }

/-! ## What construction leaves -/

theorem Building.counted (h : Building f d names starts versions) : h.result.Counted where
  nonneg x _ := h.walked.bound_nonneg x
  bound {l v n} hv hn := by
    obtain ⟨m, hm, _, hhigh⟩ := h.version_of_defines hv
    cases hm.symm.trans hn
    exact Int.le_trans hhigh (h.walked.bound l (h.mem_preorder.2 (h.defines_built.1 hv).1) v.name)

theorem Building.regular (h : Building f d names starts versions) : h.result.Regular where
  wf := h.wf_built
  ssa := rfl
  form := h.ssaForm
  counted := h.counted
  reachable l hl := by
    rw [h.graph_built]
    obtain ⟨b', hb'⟩ := exists_block.1 hl
    obtain ⟨b, hb, _⟩ := h.of_block?_built hb'
    exact h.reachable l (mem_blocks hb)
  entry_first l := by
    rw [h.graph_built]
    exact h.entry_first l
  entry_phiFree := h.entry_phiFree
  undefined := h.undefined_acyclic

theorem Regular.withoutDeadPhis (h : f.Regular) : f.withoutDeadPhis.1.Regular where
  wf := h.wf.withoutDeadPhis
  ssa := h.ssa
  form := h.form.withoutDeadPhis h.wf (h.form.phisAgree h.reachable)
  counted := ⟨h.counted.nonneg, fun hv hn => h.counted.bound (defines_of_withoutDeadPhis hv) hn⟩
  reachable l hl := by
    rw [graph_withoutDeadPhis]
    exact h.reachable l (mem_rewrite.1 hl)
  entry_first l := by
    rw [graph_withoutDeadPhis]
    exact h.entry_first l
  entry_phiFree b' hb' := by
    obtain ⟨b, hb, rfl⟩ := of_block?_withoutDeadPhis hb'
    rw [(keepLive_spec (h.wf.tidy hb) _).1, h.entry_phiFree b hb]
    rfl
  undefined := h.undefined.withoutDeadPhis h.wf

theorem pruneDeadPhis_yields (f : Func) :
    Edit.pruneDeadPhis.Yields f f.withoutDeadPhis.2 f.withoutDeadPhis.1 :=
  (Edit.yields_get f).bind ((Edit.yields_modify _ f).bind (.emit_if (Edit.yields_pure _ _)))

/-- With or without pruning. -/
theorem Regular.prune (h : f.Regular) (prune : Bool) :
    ∃ count f', (if prune then Edit.pruneDeadPhis else pure 0 : Edit Nat).Yields f count f' ∧
      f'.Regular ∧
      f'.name = f.name ∧ f'.params = f.params ∧ f.Delays f' 0 := by
  cases prune with
  | false => exact ⟨0, f, Edit.yields_pure 0 f, h, rfl, rfl, h.wf.delays_self⟩
  | true =>
    exact ⟨_, _, pruneDeadPhis_yields f, h.withoutDeadPhis, rfl, rfl,
      (withoutDeadPhis_lockstep h.form.toDefinedOnce h.wf (h.form.phisAgree h.reachable)).delays⟩

/-- What a function is like that SSA construction is meant for. -/
structure Source (f : Func) : Prop where
  wf : f.WellFormed
  phiFree : f.PhiFree
  plain : f.Plain
  params_nodup : f.params.Nodup
  ssa : f.ssa = false

/-- What SSA construction makes of a function, under both policies. -/
theorem Source.build (h : f.Source) :
    ∃ g d names starts versions, Prepared f g ∧ Building g d names starts versions ∧
      names = phiNames (g.phiSites d.order (g.graph.frontiers d)) ∧
      (f.EntryIsTarget → f.Delays g 1) ∧ (¬ f.EntryIsTarget → f.Delays g 0) ∧
      ∀ prune count f',
        (if prune then Edit.pruneDeadPhis else pure 0 : Edit Nat).Yields
          (g.built names starts d.preorder versions) count f' →
        (∃ c, (Edit.enterSsa .sentinel prune).Yields f c f') ∧
          ((Edit.enterSsa .refuse prune).Refuses f ↔ ∃ l ∈ d.preorder,
            (g.phied names).LacksDef starts l) := by
  obtain ⟨dead, g₁, fresh, g₂, g, hremove, hensure, hlink, hprep, hone, hnone⟩ :=
    h.wf.prepare h.phiFree
  obtain ⟨d, placed, uses, names, starts, versions, hdom, hplace, hrename, hbuild, hnames,
      hrefuse⟩ :=
    hprep.construct h.plain h.params_nodup
  refine ⟨g, d, names, starts, versions, hprep, hbuild, hnames, hone, hnone,
    fun prune count f' hprune => ?_⟩
  have hyields : (Edit.enterSsa .sentinel prune).Yields f ⟨(placed : Int) - count, count,
      uses⟩ f' := by
    refine (Edit.yields_get f).bind ?_
    rw [h.ssa]
    refine hremove.bind
      (hensure.bind (hlink.bind (hdom.bind (hplace.bind (hrename.bind ((Edit.yields_modify _ _).bind
      ?_))))))
    exact .ite_bind (hprune.bind ((Edit.yields_emit _ _).bind (Edit.yields_pure _ _)))
  have hif : Edit.RefusesIf (∃ l ∈ d.preorder, (g.phied names).LacksDef starts l)
      (Edit.enterSsa .refuse prune)
      (Edit.enterSsa .sentinel prune) f := by
    refine .bind_right (Edit.yields_get f) ?_
    rw [h.ssa]
    exact .bind_right hremove
      (.bind_right hensure (.bind_right hlink (.bind_right hdom (.bind_right hplace
      (hrefuse.bind_left hrename)))))
  exact ⟨⟨_, hyields⟩, hif.refuses_iff hyields⟩

/-- SSA construction succeeds, and delays each activation by the step through a new entry. -/
theorem Source.enterSsa (h : f.Source) (prune : Bool) :
    ∃ c f', (Edit.enterSsa .sentinel prune).Yields f c f' ∧ f'.Regular ∧ f'.name = f.name ∧
      f'.params = f.params ∧
      (f.EntryIsTarget → f.Delays f' 1) ∧ (¬ f.EntryIsTarget → f.Delays f' 0) := by
  obtain ⟨g, d, names, starts, versions, hprep, hbuild, _, hone, hnone, henter⟩ := h.build
  have hssa : g.ssa = false := hprep.ssa_eq.trans h.ssa
  obtain ⟨count, f', hprune, hregular, hname, hparams, hdelay⟩ := hbuild.regular.prune prune
  have hdelays := (hbuild.lockstep hssa).delays.trans hdelay
  obtain ⟨⟨c, hyields⟩, _⟩ := henter prune count f' hprune
  exact ⟨c, f', hyields, hregular, hname.trans hprep.name_eq, hparams.trans hprep.params_eq,
    fun ht => (hone ht).trans hdelays, fun ht => (hnone ht).trans hdelays⟩

/-- Every name in the code has a version. -/
def Versioned (f : Func) : Prop :=
  ∀ n ∈ f.nodes, (∀ v, n.dest? = some v → v.version ≠ none) ∧
    ∀ v, .var v ∈ n.uses → v.version ≠ none

theorem Regular.versioned (h : f.Regular) : f.Versioned := by
  intro n hn
  obtain ⟨l, b, hb, hn⟩ := mem_nodes.1 hn
  have hl := h.reachable l (mem_blocks hb)
  rcases List.mem_append.1 hn with hn | hn
  · obtain ⟨i, hi, rfl⟩ := List.mem_map.1 hn
    refine ⟨fun v hv => h.form.versioned hl ⟨b, hb, mem_destsOf.2 ⟨i, hi, hv⟩⟩, fun v hv => ?_⟩
    cases hphi : i.isPhi with
    | false =>
      obtain ⟨pre, post, heq⟩ := List.append_of_mem hi
      refine h.form.version_of_availOut hl ((h.form.use hl hb heq hphi hv).imp_right fun hpre =>
        ⟨b, hb, ?_⟩)
      rw [heq, destsOf_append]
      exact List.mem_append_left _ hpre
    | true =>
      obtain ⟨φ, rfl⟩ : ∃ φ, i = .phi φ := by cases i <;> simp_all [Instr.isPhi]
      obtain ⟨a, ha, hval⟩ := List.mem_map.1 hv
      have hφ := (h.wf.tidy hb).phi_mem_iff.1 hi
      have hp : a.block ∈ b.preds := (h.wf.tidy hb).labels_eq φ hφ ▸ List.mem_map_of_mem ha
      obtain ⟨c, hc, _⟩ := block_of_mem_next ((h.wf.mem_preds hb).1 hp)
      have hreach := h.reachable a.block (mem_blocks hc)
      exact h.form.version_of_availOut hreach (h.form.phiUse hl hb hφ ha hreach hval)
  · obtain ⟨t, ht, rfl⟩ := List.mem_map.1 hn
    refine ⟨fun v hv => (by cases hv), fun v hv => ?_⟩
    exact h.form.version_of_availOut hl (h.form.termUse hl hb (Option.mem_toList.1 ht) hv)

/-- SSA construction succeeds on a function that the check of its graph accepts and that has no phis
and no versions. Its result passes the check of SSA form, and is in SSA form in the sense of paths;
nothing jumps to its entry, and all of it can be reached. -/
theorem enterSsa_ssaForm (f : Func) (hssa : f.ssa = false) (hphi : f.PhiFree) (hplain : f.Plain)
    (hparams : f.params.Nodup) (hcfg : f.checkCfg = .ok ()) (prune : Bool) :
    ∃ c f', (Edit.enterSsa .sentinel prune).Yields f c f' ∧ f'.checkSsa = .ok () ∧ f'.SsaForm ∧
      f'.Versioned ∧ (∃ b, f'.block? f'.entry = some b ∧ b.preds = []) ∧
      ∀ l ∈ f'.blocks, f'.graph.Reachable l := by
  obtain ⟨c, f', hyields, hregular, _⟩ := Source.enterSsa ⟨checkCfg_eq_ok.1 hcfg, hphi, hplain,
    hparams, hssa⟩ prune
  refine ⟨c, f', hyields, checkSsa_eq_ok.2 ⟨hregular.ssa, hregular.wf, hregular.form⟩,
    hregular.form, hregular.versioned, ?_, hregular.reachable⟩
  obtain ⟨b, hb⟩ := exists_block.1 hregular.wf.entry_mem
  refine ⟨b, hb, List.eq_nil_iff_forall_not_mem.2 fun p hp => ?_⟩
  exact hregular.entry_first p ((hregular.wf.mem_preds hb).1 hp)

/-- A loop through the entry. -/
def countdown : Func where
  name := "main"
  params := ["n"]
  blocks := Table.ofList [
    ("entry",
      { name := "entry", preds := ["entry"],
        term := some (.branch (.var ⟨"n", none⟩) "entry" "done"),
                instrs := [.binary ⟨"n", none⟩ "sub" (.var ⟨"n", none⟩) (.const 1),
                  .write (.var ⟨"n", none⟩)] }),
    ("done", { name := "done", preds := ["entry"], term := some (.ret none) })]

theorem enterSsa_ssaForm_countdown :
    ∃ c f', (Edit.enterSsa .sentinel true).Yields countdown c f' ∧ f'.checkSsa = .ok () ∧ f'.SsaForm ∧
      f'.Versioned ∧ (∃ b, f'.block? f'.entry = some b ∧ b.preds = []) ∧
      ∀ l ∈ f'.blocks, f'.graph.Reachable l :=
  enterSsa_ssaForm countdown rfl (by decide) (by decide) (by decide) rfl true

/-- A function in SSA form runs as the one that it was made from, in whatever program it takes its
place: the runs end alike, and take as many steps, or one more for each activation of the function
if something that can be reached jumped to its entry. -/
theorem enterSsa_runsAs (f : Func) (hssa : f.ssa = false) (hphi : f.PhiFree) (hplain : f.Plain)
    (hparams : f.params.Nodup) (hcfg : f.checkCfg = .ok ()) (prune : Bool) :
    ∃ c f', (Edit.enterSsa .sentinel prune).Yields f c f' ∧ f'.name = f.name ∧
      ∀ p p' key, Replaces p p' key f f' →
        (f.EntryIsTarget → p.RunsAs p' fun spec => p.activations spec key) ∧
        (¬ f.EntryIsTarget → p.RunsAs p' fun _ => 0) := by
  obtain ⟨c, f', hyields, _, hname, _, hone, hnone⟩ :=
    Source.enterSsa ⟨checkCfg_eq_ok.1 hcfg, hphi, hplain, hparams, hssa⟩ prune
  refine ⟨c, f', hyields, hname, fun p p' key rep => ⟨fun ht => ?_, fun ht => ?_⟩⟩
  · simpa only [Nat.one_mul] using (hone ht).runsAs rep
  · simpa only [Nat.zero_mul] using (hnone ht).runsAs rep

theorem enterSsa_runsAs_countdown :
    ∃ c f', (Edit.enterSsa .sentinel false).Yields countdown c f' ∧ f'.name = "main" ∧
      Program.RunsAs ⟨Table.ofList [("again", countdown)]⟩
        ⟨(Table.ofList [("again", countdown)]).insert "again" f'⟩
        fun spec => Program.activations ⟨Table.ofList [("again", countdown)]⟩ spec "again" := by
  obtain ⟨c, f', hyields, hname, hruns⟩ :=
    enterSsa_runsAs countdown rfl (by decide) (by decide) (by decide) rfl false
  exact ⟨c, f', hyields, hname,
    (hruns _ _ "again" (.insert rfl f')).1 ⟨"entry", Graph.reachable_entry, by decide⟩⟩

end Func

end ThreeAddress
