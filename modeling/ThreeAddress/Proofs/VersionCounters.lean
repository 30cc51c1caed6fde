import ThreeAddress.Proofs.FreshTemporaries
import ThreeAddress.Proofs.SoundTexts

/-!
# Version counters

A function in SSA form comes from a text or from SSA construction, and edits follow
(`Func.Obtained`). A text seeds the counters with the versions that it mentions. Construction starts
them at 0 and hands out all versions itself, so that the definitions that reach a point are known to
the counters wherever renaming is. And all edits draw what is new from the counters. So no version
is above its counter, and whatever is handed out next is new (`Obtained.freshNames`).
-/

namespace ThreeAddress

variable {uses : List (Label × String)} {l : Label}

/-! ## Renaming -/

/-- The counters are at or above the version of the variable. -/
def KnownBy (versions : Table String Int) (v : Var) : Prop := ∀ n, v.version = some n →
    n ≤ versions.getD v.name 0

theorem KnownBy.mono {before after : Table String Int} (h : ∀ x, before.getD x 0 ≤ after.getD x 0)
    {v : Var} (hv : KnownBy before v) : KnownBy after v :=
  fun n hn => Int.le_trans (hv n hn) (h v.name)

section Renaming

variable {versions : Table String Int} {defs : Reaching} {instrs : List Instr}

theorem Renames.known {r : Renamed} (h : Renames instrs versions defs r) :
    ∀ v ∈ destsOf r.instrs, KnownBy r.versions v := by
  intro v hv n hn
  obtain ⟨m, hm, _, hle⟩ := h.fresh v hv
  cases hm.symm.trans hn
  exact hle

/-- In renamed code there is what was on the stacks, what it defines, and the operands of phis. -/
theorem only_renameInstrs {P : Var → Prop} (hdefs : defs.Only P)
    (hnew : ∀ v ∈ destsOf (renameInstrs .sentinel instrs versions defs).instrs, P v)
    (hphis : ∀ i ∈ instrs, i.isPhi = true → ∀ v, .var v ∈ i.uses → P v) :
    ∀ i ∈ (renameInstrs .sentinel instrs versions defs).instrs, (Node.instr i).Only P := by
  intro i hi
  refine Node.only_iff.2 ⟨fun v hv => hnew v (mem_destsOf.2 ⟨i, hi, hv⟩), fun v hv => ?_⟩
  cases hphi : i.isPhi with
  | false =>
    obtain ⟨pre, post, heq⟩ := List.append_of_mem hi
    rcases get?_of_use heq hphi hv with ⟨x, hx⟩ | hv
    · exact hdefs.get? hx
    · refine hnew v ?_
      rw [heq, destsOf_append]
      exact List.mem_append_left _ hv
  | true =>
    obtain ⟨j, hj, hsame⟩ := phi_of_renameInstrs hi hphi
    exact hphis j hj hsame.1 v (hsame.2 ▸ hv)

theorem known_fillPhis (hdefs : defs.Only (KnownBy versions)) (l : Label)
    (hinstrs : ∀ i ∈ instrs, (Node.instr i).Only (KnownBy versions)) :
    ∀ i ∈ (fillPhis l defs instrs).instrs, (Node.instr i).Only (KnownBy versions) := by
  intro i hi
  rcases mem_of_fillPhis hi with hi | ⟨φ, hφ, rfl⟩
  · exact hinstrs i hi
  · obtain ⟨hdest, hincoming⟩ := Node.only_phi.1 (hinstrs _ hφ)
    refine Node.only_phi.2 ⟨hdest, fun a ha v hv => ?_⟩
    rcases mem_setFirst ha with ha | ⟨hvalue, _⟩
    · exact hincoming a ha v hv
    · exact hdefs.resolve (hvalue.symm.trans hv)

end Renaming

namespace Edit

open Func

variable {f g : Func} {defs : Reaching} {versions : Table String Int}

/-- Setting the operands of phis keeps the counters, and they know the function. -/
theorem fillSuccessors_known (hdefs : defs.Only (KnownBy versions)) (l : Label)
    (succs : List Label) :
    (fillSuccessors l defs succs).Keeps (fun g => g.versions = versions ∧ g.Only (KnownBy versions))
      fun _ => True := by
  induction succs with
  | nil => exact keeps_pure trivial
  | cons s succs ih =>
    refine (keeps_ask (R := fun b => b.Only (KnownBy versions)) fun _ _ hg hb =>
      hg.2.code (getBlock_eq_ok hb)).bind
      fun b hb => (keeps_modify fun g hg => ?_).bind fun _ _ => ?_
    · exact ⟨hg.1, hg.2.modifyBlock s fun c hc =>
        (hg.2.code hc).setInstrs (known_fillPhis hdefs l hb.instrs)⟩
    · split
      · exact keeps_fail _
      · exact ih.bind fun _ _ => keeps_pure trivial

/-- If the counters know a function and the stacks, they do after a block was renamed. -/
theorem Yields.known_of_renameBlock {r : Reaching × List String}
    (h : (renameBlock .sentinel l defs).Yields f r g) (hf : f.Only (KnownBy f.versions))
    (hdefs : defs.Only (KnownBy f.versions)) :
    g.Only (KnownBy g.versions) ∧ r.1.Only (KnownBy g.versions) := by
  obtain ⟨b, _, hask, h⟩ := h.of_bind
  obtain ⟨hb, rfl⟩ := hask.of_ask
  have h := (yields_get _).after h
  have hrenames := renames b.instrs f.versions defs
  have hmono : ∀ v, KnownBy f.versions v → KnownBy _ v := fun v => .mono hrenames.mono
  have hinstrs := only_renameInstrs (hdefs.imp hmono) hrenames.known fun i hi _ v hv =>
    hmono v ((Node.only_iff.1 ((hf.code (getBlock_eq_ok hb)).instrs i hi)).2 v hv)
  have hdefs' := hrenames.only (hdefs.imp hmono) hrenames.known
  have hrefused := hrenames.refused
  generalize renameInstrs .sentinel b.instrs f.versions defs = renamed at *
  have h := (yields_modify _ _).after h
  dsimp only at h
  rw [hrefused] at h
  have h := (yields_modify _ _).after h
  obtain ⟨_, g', hfill, h⟩ := h.of_bind
  obtain ⟨rfl, rfl⟩ := (yields_pure _ _).unique h
  have hcode := (hf.imp hmono).modifyBlock l fun c hc => ((hf.imp hmono).code hc).setInstrs hinstrs
  have hcounted : Only (KnownBy renamed.versions)
      { f.modifyBlock l fun c => { c with instrs := renamed.instrs } with
        versions := renamed.versions } :=
    ⟨hcode.code, hcode.params⟩
  have hterm := hcounted.modifyBlock l fun c hc =>
    (hcounted.code hc).mapTerm (g := (·.mapUses renamed.defs.resolve)) fun t ht =>
      ((hcounted.code hc).term t ht).mapUses fun x _ v hv => hdefs'.resolve hv
  obtain ⟨⟨hversions, hknown⟩, _⟩ := fillSuccessors_known hdefs' l b.successors ⟨rfl, hterm⟩ hfill
  rw [hversions]
  exact ⟨hknown, hdefs'⟩

/-- Along the walk the counters know the function and the stacks. -/
theorem Yields.known_of_renameAlong {tour : List TreeStep} {pushed : Table Label (List String)}
    (h : (renameAlong .sentinel tour defs pushed).Yields f uses g)
    (hf : f.Only (KnownBy f.versions)) (hdefs : defs.Only (KnownBy f.versions)) :
    g.Only (KnownBy g.versions) := by
  induction tour generalizing f defs pushed uses with
  | nil =>
    obtain ⟨_, rfl⟩ := (yields_pure _ _).unique h
    exact hf
  | cons step tour ih =>
    cases step with
    | leave l => exact ih h hf (hdefs.pops _)
    | enter l =>
      have h := (yields_get _).after h
      obtain ⟨r, f₁, hblock, h⟩ := h.of_bind
      obtain ⟨more, f₂, hrest, h⟩ := h.of_bind
      obtain ⟨_, rfl⟩ := (yields_pure _ _).unique h
      obtain ⟨hf₁, hr⟩ := hblock.known_of_renameBlock hf hdefs
      exact ih hrest hf₁ hr

/-- Renaming starts with counters at 0. -/
theorem Yields.old_of_rename {d : Dominators} (h : (rename .sentinel d).Yields f uses g)
    (hf : f.Only (KnownBy .empty)) : g.Only g.Old := by
  have h := (yields_modify _ _).after h
  have h := (yields_get _).after h
  have hstart : ∀ v, KnownBy .empty v →
      KnownBy (Table.ofList (f.params.map fun p => (p, (0 : Int)))) v :=
    fun v hv n hn => Int.le_trans (hv n hn) (nonneg_start f.params v.name)
  have hf' := hf.imp hstart
  exact h.known_of_renameAlong ⟨hf'.code, hf'.params⟩ (Reaching.only_ofParams hf'.params)

end Edit

/-! ## Where functions in SSA form come from -/

namespace Func

variable {f g : Func} {versions : Table String Int}

/-- Names without versions need no counters, and parameters arrive with version 0. -/
theorem Plain.known (h : f.Plain) : f.Only (KnownBy .empty) := by
  refine ⟨fun hb => Block.only_iff_nodes.2 fun n hn => ?_, fun p _ k hk => ?_⟩
  · obtain ⟨hdest, huses⟩ := h n (mem_nodes.2 ⟨_, _, hb, hn⟩)
    refine Node.only_iff.2 ⟨fun v hv k hk => ?_, fun v hv k hk => ?_⟩
    · cases (hdest v hv).symm.trans hk
    · cases (huses v hv).symm.trans hk
  · cases hk
    exact Int.le_refl 0

theorem Only.placePhis (h : f.Only (KnownBy versions)) (sites : List (String × List Label)) :
    (f.placePhis sites).Only (KnownBy versions) := by
  refine h.rewrite fun l b hb => (h.code hb).setInstrs fun i hi => ?_
  rcases List.mem_append.1 hi with hi | hi
  · obtain ⟨x, _, rfl⟩ := List.mem_map.1 hi
    have hblank : KnownBy versions ⟨x, none⟩ := fun n hn => by cases hn
    refine Node.only_phi.2 ⟨hblank, fun a ha v hv => ?_⟩
    obtain ⟨p, _, rfl⟩ := List.mem_map.1 ha
    cases hv
    exact hblank
  · exact (h.code hb).instrs i hi

theorem placePhis_known (d : Dominators) :
    (Edit.placePhis d).Keeps (Only (KnownBy versions)) fun _ => True :=
  Edit.keeps_get.bind fun _ _ => (Edit.keeps_modify fun _ hf => hf.placePhis _).bind fun _ _ =>
    Edit.keeps_pure trivial

section Checked

variable {d : Dominators} {starts : Label → RenamePoint}

/-- Phis that are placed list the predecessors as they were linked; others may list them in another
order. -/
theorem WellFormed.walkable_placePhis (wf : f.WellFormed) (sites : List (String × List Label)) :
    (f.relinked.placePhis sites).Walkable := by
  have hgraph : (f.relinked.placePhis sites).graph = f.graph :=
    (graph_placePhis _ _).trans (graph_relinked f)
  have hblock : ∀ {l b'}, (f.relinked.placePhis sites).block? l = some b' →
      ∃ (b : Block) (names : List String), f.block? l = some b ∧ b'.term = b.term ∧
      b'.instrs = (names.map (blankPhi · (f.sourcesOf l)) ++ b.phis).map .phi ++ b.body := by
    intro l b' hb'
    obtain ⟨_, hb₁, rfl⟩ := of_block?_rewrite hb'
    obtain ⟨b, hb, rfl⟩ := of_block?_relinked hb₁
    refine ⟨b, (sites.filter fun s => decide (l ∈ s.2)).map Prod.fst, hb, rfl, ?_⟩
    rw [List.map_append, List.map_map, List.append_assoc, ← (wf.tidy hb).instrs_eq]
    rfl
  have hphis : ∀ {b b' : Block} {φs : List Phi}, b'.instrs = φs.map .phi ++ b.body →
      b'.phis = φs ∧ b'.body = b.body := by
    intro b b' φs hinstrs
    have hbody : ∀ i ∈ b.body, i.isPhi = false := fun i hi => b.isPhi_of_mem_body hi
    rw [Block.phis, Block.body, hinstrs]
    exact ⟨leadingPhis_append hbody, filter_phis_append hbody⟩
  refine ⟨Table.mem_mapValues.2 (Table.mem_mapValues.2 wf.entry_mem), fun hb' => ?_,
    fun hb' s hs => ?_, fun hb' => ?_, fun {l b'} hb' φ hφ => ?_⟩
  · obtain ⟨b, _, hb, hterm, _⟩ := hblock hb'
    rw [hterm]
    exact wf.closed hb
  · obtain ⟨b, _, hb, hterm, _⟩ := hblock hb'
    rw [Block.successors, hterm] at hs
    exact Table.mem_mapValues.2 (Table.mem_mapValues.2 (wf.targets hb s hs))
  · obtain ⟨b, names, _, _, hinstrs⟩ := hblock hb'
    obtain ⟨hlead, hbody⟩ := hphis hinstrs
    rw [hlead, hbody, hinstrs]
  · obtain ⟨b, names, hb, _, hinstrs⟩ := hblock hb'
    rw [(hphis hinstrs).1] at hφ
    rw [Covers, hgraph]
    rcases List.mem_append.1 hφ with hφ | hφ
    · obtain ⟨x, _, rfl⟩ := List.mem_map.1 hφ
      rw [labels_blankPhi]
      exact ⟨f.nodup_sourcesOf l, fun _ => mem_sourcesOf⟩
    · rw [(wf.tidy hb).labels_eq φ hφ]
      exact wf.covers hb

/-- The counters know what renaming a block defines. -/
theorem Walked.known_renamedAt {atEntry : Reaching} {done : List Label}
    (h : Walked f d atEntry starts done versions) (hl : l ∈ done) :
    ∀ v ∈ destsOf (f.renamedAt starts l).instrs, KnownBy versions v := fun v hv =>
  .mono (h.bound l hl) ((renames _ _ _).known v hv)

/-- Along the dominator tree, the counters know what is on the stacks. -/
theorem Walked.known_defs (h : Walked f d (.ofParams f.params) starts d.preorder versions)
    (hd : d.Describes f.graph) (hl : f.graph.Reachable l) :
    (starts l).defs.Only (KnownBy versions) := by
  have mem_pre := (Graph.preorder_spec hd).2.1
  refine hl.alongTree (P := fun l => (starts l).defs.Only (KnownBy versions)) hd ?_
    fun b a hb ha ih => ?_
  · have hsame := h.defs_same f.graph.entry ((mem_pre _).2 Graph.reachable_entry)
    rw [Graph.idom?_entry hd] at hsame
    refine hsame.only (Reaching.only_ofParams fun p _ n hn => ?_)
    cases hn
    exact h.bound_nonneg p
  · have hsame := h.defs_same b ((mem_pre b).2 hb)
    rw [ha] at hsame
    exact hsame.only ((renames _ _ _).only ih
      (h.known_renamedAt (h.parents b ((mem_pre b).2 hb) a ha)))

/-- Once all blocks were renamed, all versions are from the counters. -/
theorem Walkable.known_renamedOn (hf : f.Walkable) (hreach : ∀ l ∈ f.blocks, f.graph.Reachable l)
    (hd : d.Describes f.graph) (h : Walked f d (.ofParams f.params) starts d.preorder versions) :
    (f.renamedOn starts d.preorder versions).Only (KnownBy versions) := by
  have mem_pre := (Graph.preorder_spec hd).2.1
  have hends : ∀ {p}, f.graph.Reachable p → (f.endDefs starts p).Only (KnownBy versions) :=
    fun hp => (renames _ _ _).only (h.known_defs hd hp) (h.known_renamedAt ((mem_pre _).2 hp))
  refine ⟨fun {l b'} hb' => ?_, fun p _ n hn => ?_⟩
  · obtain ⟨b, hb, rfl⟩ := of_block?_rewrite hb'
    have hl := hreach l (mem_blocks hb)
    have hstart : starts l = ⟨(starts l).versions, (starts l).defs⟩ := rfl
    have hfilled := congrArg Renamed.instrs
      (renameInstrs_filled hb hstart (f.endDefs starts) d.preorder)
    dsimp only at hfilled
    rw [renamedBlock_of_mem ((mem_pre l).2 hl)]
    refine ⟨?_, fun t ht => ?_⟩
    · show ∀ i ∈ mapLeadingPhis _ _, _
      rw [← hfilled]
      refine only_renameInstrs (h.known_defs hd hl) ?_ fun i hi hphi v hv => ?_
      · rw [hfilled, destsOf_mapLeadingPhis (g := Phi.fill (f.endDefs starts) d.preorder) fun _ =>
          rfl]
        exact h.known_renamedAt ((mem_pre l).2 hl)
      · -- All predecessors were renamed, so each operand was set.
        rw [hf.lead hb, mapLeadingPhis_append _ fun i hi => b.isPhi_of_mem_body hi] at hi
        rcases List.mem_append.1 hi with hi | hi
        · obtain ⟨_, hfill, rfl⟩ := List.mem_map.1 hi
          obtain ⟨φ, hφ, rfl⟩ := List.mem_map.1 hfill
          obtain ⟨_, hset, hv⟩ := List.mem_map.1 hv
          obtain ⟨a, ha, rfl⟩ := List.mem_map.1 hset
          have hedge := ((hf.covers hb φ hφ).2 a.block).1 (List.mem_map_of_mem ha)
          obtain ⟨c, hc, _⟩ := block_of_mem_next hedge
          have hpred := hreach a.block (mem_blocks hc)
          rw [if_pos ((mem_pre a.block).2 hpred)] at hv
          exact (hends hpred).resolve hv
        · cases (b.isPhi_of_mem_body hi).symm.trans hphi
    · obtain ⟨t', _, rfl⟩ := Option.map_eq_some_iff.1 ht
      refine Node.only_iff.2 ⟨fun v hv => (by cases hv), fun v hv => ?_⟩
      rw [show (Node.term (t'.mapUses _)).uses = _ from Terminator.uses_mapUses _ _] at hv
      obtain ⟨y, _, hy⟩ := List.mem_map.1 hv
      exact (hends hl).resolve hy
  · cases hn
    exact h.bound_nonneg p

variable {f₁ f₂ : Func} {dead : List Label} {fresh : Option Label}

/-- A checked function stays well-formed, and all that is left of it can be reached. -/
theorem WellFormed.of_prepared (wf : f.WellFormed)
    (hremove : Edit.removeUnreachable.Yields f dead f₁)
    (hensure : Edit.ensureEntry.Yields f₁ fresh f₂) :
    f₂.WellFormed ∧ ∀ l ∈ f₂.blocks, f₂.graph.Reachable l := by
  obtain ⟨_, live, mem_live, hlive⟩ := wf.removeUnreachable
  obtain ⟨_, rfl⟩ := hlive.unique hremove
  obtain ⟨wf₁, hreach⟩ := wf.keepReachable fun l => decide_eq_true_iff.trans (mem_live l)
  obtain ⟨b, hb⟩ := exists_block.1 wf₁.entry_mem
  by_cases hpreds : b.preds = []
  · obtain ⟨_, rfl⟩ := (ensureEntry_of_no_preds hb hpreds).unique hensure
    exact ⟨wf₁, hreach⟩
  · have hfresh := freshLabel_not_mem (f.keepBlocks fun l => decide (l ∈ live)) "entry"
    obtain ⟨_, rfl⟩ := (wf₁.ensureEntry_of_preds hb hpreds).unique hensure
    exact ⟨wf₁.withEntry hfresh, wf₁.reachable_withEntry hfresh hreach⟩

/-- In a function whose blocks can all be reached, nothing is left of the versions that it had. -/
theorem WellFormed.old_of_rename {f₃ f₄ : Func} {placed : Nat} (wf : f.WellFormed)
    (hreach : ∀ l ∈ f.blocks, f.graph.Reachable l) (hlink : Edit.link.Yields f () f₁)
    (hdominators : Edit.dominators.Yields f₁ d f₂) (hplace : (Edit.placePhis d).Yields f₂ placed f₃)
    (hrename : (Edit.rename .sentinel d).Yields f₃ uses f₄) : f₄.Only f₄.Old := by
  obtain ⟨_, rfl⟩ := wf.link.unique hlink
  obtain ⟨d', hd', hdescribes⟩ := wf.dominators
  have hd' : f.relinked.dominators = .ok d' := by
    rw [Func.dominators, graph_relinked]
    exact hd'
  obtain ⟨rfl, rfl⟩ := (Edit.yields_dominators hd').unique hdominators
  have hplace := (Edit.yields_get _).after hplace
  dsimp only at hplace
  have hplace := (Edit.yields_modify _ _).after hplace
  obtain ⟨_, rfl⟩ := (Edit.yields_pure _ _).unique hplace
  generalize f.relinked.phiSites d'.order (f.relinked.graph.frontiers d') = sites at hrename
  have hgraph := (graph_placePhis f.relinked sites).trans (graph_relinked f)
  have hwalk := wf.walkable_placePhis sites
  rw [← hgraph] at hdescribes
  obtain ⟨_, starts, versions, hyields, hwalked, _⟩ := hwalk.rename_yields hdescribes
  obtain ⟨_, rfl⟩ := hyields.unique hrename
  refine hwalk.known_renamedOn (fun l hl => ?_) hdescribes hwalked
  obtain ⟨_, hb⟩ := exists_block.1 hl
  obtain ⟨_, hb, _⟩ := of_block?_rewrite hb
  obtain ⟨_, hb, _⟩ := of_block?_relinked hb
  rw [hgraph]
  exact hreach l (mem_blocks hb)

end Checked

/-- Before renaming, no version is above 0 or all are to be renamed; after it the counters know all
versions. -/
theorem old_of_enterSsa {policy : UndefinedPolicy} {prune : Bool} {c : Construction}
    (hf : f.Plain ∨ f.checkCfg = .ok ()) (h : (Edit.enterSsa policy prune).Yields f c g) :
    g.Only g.Old := by
  have h := (Edit.yields_get f).after h.sentinel_of_enterSsa
  dsimp only at h
  split at h
  · obtain ⟨_, _, hfail, _⟩ := Edit.Yields.of_bind h
    cases hfail.1
  · obtain ⟨_, f₁, hremove, h⟩ := Edit.Yields.of_bind h
    obtain ⟨_, f₂, hensure, h⟩ := h.of_bind
    obtain ⟨_, f₃, hlink, h⟩ := h.of_bind
    obtain ⟨d, f₄, hdominators, h⟩ := h.of_bind
    obtain ⟨placed, f₅, hplace, h⟩ := h.of_bind
    obtain ⟨uses, f₆, hrename, h⟩ := h.of_bind
    have hold : f₆.Only f₆.Old := by
      rcases hf with hplain | hcfg
      · have hwithin := (Edit.removeUnreachable_within (.refl f) hremove).1
        have hwithin := (Edit.ensureEntry_within hwithin hensure).1
        have hwithin := (Edit.link_within hwithin hlink).1
        have hwithin := (Edit.keeps_dominators hwithin hdominators).1
        have hplaced := (placePhis_known d (hwithin.only.imp (only_iff.1 hplain.known)) hplace).1
        exact hrename.old_of_rename hplaced
      · obtain ⟨wf₂, hreach⟩ := (checkCfg_eq_ok.1 hcfg).of_prepared hremove hensure
        exact wf₂.old_of_rename hreach hlink hdominators hplace hrename
    have h := (Edit.yields_modify _ _).after h
    have hssa : Only f₆.Old { f₆ with ssa := true } := ⟨hold.code, hold.params⟩
    have hrest := fun hkeeps : Edit.Keeps _ (Within { f₆ with ssa := true }) (fun _ => True) =>
      (hkeeps (.refl _) h).1
    refine Draws.old (Within.draws (hrest ?_)) hssa
    split
    · exact Edit.pruneDeadPhis_within.bind fun _ _ => (Edit.keeps_emit _).bind fun _ _ =>
        Edit.keeps_pure trivial
    · refine (Edit.keeps_pure (R := fun _ => True) trivial).bind fun _ _ => ?_
      exact (Edit.keeps_emit _).bind fun _ _ => Edit.keeps_pure trivial

/-- A text seeds the counters with the versions that it mentions. -/
theorem old_of_parse {source key : String} {p : Program} (hp : Text.parse source = .ok p)
    (hf : p.function? key = some f) (hssa : f.ssa = true) : f.Only f.Old := by
  obtain ⟨_, hprintable, hlaid⟩ := parse_printable hp hf
  have hversions := hlaid.versions
  rw [if_pos hssa] at hversions
  obtain ⟨hnonneg, hbound⟩ := Text.seedVersions_spec f.params f.nodes hprintable.params_nodup
  refine only_iff.2 fun v hv => ?_
  show KnownBy f.versions v
  rw [hversions]
  rcases hv with ⟨n, hn, hv⟩ | ⟨p, _, rfl⟩
  · exact hbound n hn v hv
  · intro k hk
    cases hk
    exact hnonneg p

end Func

/-! ## Edits of functions in SSA form -/

/-- The passes on functions in SSA form, and the edits of the graph that they are made of. -/
inductive SsaEdit where
  | propagateConstants
  | hoist
  | pruneDeadPhis
  | insertPreheader (header : Label) (loop : List Label)
  | splitEdge (src dst : Label) (name : Option String)
  | foldBranch (l : Label) (taken : Bool)

namespace SsaEdit

open Func

/-- Makes the edit; what it returns is dropped. -/
def run : SsaEdit → Edit Unit
  | propagateConstants => do
    let _ ← Edit.propagateConstants
    return ()
  | hoist => do
    let _ ← Edit.hoist
    return ()
  | pruneDeadPhis => do
    let _ ← Edit.pruneDeadPhis
    return ()
  | insertPreheader header loop => do
    let _ ← Edit.insertPreheader header loop
    return ()
  | splitEdge src dst name => do
    let _ ← Edit.splitEdge src dst name
    return ()
  | foldBranch l taken => do
    let _ ← Edit.foldBranch l taken
    return ()

/-- Every edit draws what is new from the counters. -/
theorem draws {e : SsaEdit} {f g : Func} (h : e.run.Yields f () g) : ∃ new, f.Draws g new := by
  have hdrop : ∀ {α : Type} {m : Edit α}, (m >>= fun _ => pure ()).Yields f () g →
      ∃ a, m.Yields f a g := by
    intro α m hm
    obtain ⟨a, _, ha, hpure⟩ := hm.of_bind
    obtain ⟨_, rfl⟩ := (Edit.yields_pure _ _).unique hpure
    exact ⟨a, ha⟩
  have hwithin : ∀ {α : Type} {m : Edit α}, m.Keeps f.Within (fun _ => True) →
      (m >>= fun _ => pure ()).Yields f () g → ∃ new, f.Draws g new := by
    intro α m hkeeps hm
    obtain ⟨a, hm⟩ := hdrop hm
    exact ⟨[], (hkeeps (.refl f) hm).1.draws⟩
  cases e with
  | propagateConstants => exact hwithin Edit.propagateConstants_within h
  | pruneDeadPhis => exact hwithin Edit.pruneDeadPhis_within h
  | splitEdge src dst name => exact hwithin (Edit.splitEdge_within src dst name) h
  | foldBranch l taken => exact hwithin (Edit.foldBranch_within l taken) h
  | hoist =>
    obtain ⟨_, h⟩ := hdrop h
    obtain ⟨new, hnew⟩ := h.addsPhis_of_hoist
    exact ⟨new, hnew.toDraws⟩
  | insertPreheader header loop =>
    obtain ⟨⟨label, made⟩, h⟩ := hdrop h
    rcases h.of_insertPreheader with ⟨_, rfl⟩ | ⟨_, merges, hpre⟩
    · exact ⟨[], .refl g⟩
    · exact ⟨_, hpre.toDraws⟩

end SsaEdit

namespace Func

variable {f g : Func}

/-- A function in SSA form as one comes by it: it is read from a text, or built from a function that
has no versions or passes the check of the graph; then edits are made that succeed. -/
inductive Obtained : Func → Prop
  | read {source key : String} {p : Program} {f : Func} :
    Text.parse source = .ok p → p.function? key = some f → f.ssa = true → Obtained f
  | built {policy : UndefinedPolicy} {prune : Bool} {c : Construction} {f₀ f : Func} :
    f₀.Plain ∨ f₀.checkCfg = .ok () → (Edit.enterSsa policy prune).Yields f₀ c f → Obtained f
  | edited {e : SsaEdit} {f g : Func} : Obtained f → e.run.Yields f () g → Obtained g

/-- The counters of a function in SSA form are at or above all versions. -/
theorem Obtained.old (h : f.Obtained) : f.Only f.Old := by
  induction h with
  | read hp hf hssa => exact old_of_parse hp hf hssa
  | built hf h => exact old_of_enterSsa hf h
  | edited _ h ih =>
    obtain ⟨new, hdraws⟩ := SsaEdit.draws h
    exact hdraws.old ih

/-- What is handed out next is new, whoever asks for it. -/
structure FreshNames (f : Func) : Prop where
  /-- No variable has a version above the counter of its name. -/
  bound : ∀ v n, f.Occurs v → v.version = some n → n ≤ f.lastVersion v.name
  next : ∀ base, ¬ f.Occurs (f.freshVar base).1
  /-- The phis of a preheader that is made have results that are new and differ. -/
  preheader : ∀ {header : Label} {loop : List Label} {label : Label} {g : Func},
    (Edit.insertPreheader header loop).Yields f (label, true) g →
      ∃ (pre : Block) (merges : List Phi), g.block? label = some pre ∧
      pre.instrs = merges.map .phi ∧
        (merges.map (·.dest)).Nodup ∧ ∀ φ ∈ merges, ¬ f.Occurs φ.dest
  /-- So have the phis of all preheaders that code motion makes, and it makes no others. -/
  motion : ∀ {r : HoistReport} {g : Func}, Edit.hoist.Yields f r g →
    ∃ new, g.phiDests.Perm (f.phiDests ++ new) ∧ new.Nodup ∧ ∀ v ∈ new, ¬ f.Occurs v
  /-- SSA destruction makes as many temporaries as it reports. They differ, and they are the
  variables that are new when the phis have become copies. -/
  temporaries : ∀ {r : Destruction} {g : Func}, Edit.leaveSsa.Yields f r g →
    ∃ (splits : Nat) (f₁ : Func) (lowered : Destruction) (f₂ : Func) (temps : List Var),
      (Edit.isolatePhis f.blocks.keys).Yields f splits f₁ ∧
      (Edit.lowerBlocks f₁.blocks.keys).Yields f₁ lowered f₂ ∧ g = f₂.named ∧ temps.Nodup ∧
      temps.length = r.temporaries ∧ ∀ v, v ∈ temps ↔ f₂.Occurs v ∧ ¬ f.Occurs v

/-- Version counters make fresh names fresh. -/
theorem Obtained.freshNames (h : f.Obtained) : f.FreshNames := by
  have hold := h.old
  refine ⟨fun v n hv hn => only_iff.1 hold v hv n hn, fun base hocc => ?_, fun hpre => ?_,
    fun hhoist => ?_, fun hleave => ?_⟩
  · exact f.not_old_freshVar base (only_iff.1 hold _ hocc)
  · rcases hpre.of_insertPreheader with ⟨hfalse, _⟩ | ⟨_, merges, hpre⟩
    · cases hfalse
    · obtain ⟨pre, hblock, hinstrs⟩ := hpre.block
      exact ⟨pre, merges, hblock, hinstrs, hpre.nodup,
        fun φ hφ => hpre.not_occurs hold (List.mem_map_of_mem hφ)⟩
  · obtain ⟨new, hnew⟩ := hhoist.addsPhis_of_hoist
    exact ⟨new, hnew.phis, hnew.nodup, fun v hv => hnew.not_occurs hold hv⟩
  · exact hleave.temporaries hold

/-- A loop that is entered from two blocks, with different values, and swaps two variables. -/
def weaveText : String :=
  "function main(n) \x7b
  branch n$0, p, q
  p:
  jump loop
  q:
  jump loop
  loop:
  x$1 = phi [p: 1, q: 2, loop: y$1]
  y$1 = phi [p: 3, q: 4, loop: x$1]
  branch x$1, loop, out
  out:
  \x7d"

/-- The function of that text. -/
def weave : Func where
  name := "main"
  params := ["n"]
  blocks := Table.ofList [
    ("entry", { name := "entry", term := some (.branch (.var ⟨"n", some 0⟩) "p" "q") }),
    ("p", { name := "p", preds := ["entry"], term := some (.jump "loop") }),
    ("q", { name := "q", preds := ["entry"], term := some (.jump "loop") }),
    ("loop",
      { name := "loop", preds := ["p", "q", "loop"],
        term := some (.branch (.var ⟨"x", some 1⟩) "loop" "out"),
               instrs := [.phi ⟨⟨"x", some 1⟩,
                 [⟨"p", .const 1⟩, ⟨"q", .const 2⟩, ⟨"loop", .var ⟨"y", some 1⟩⟩]⟩,
                          .phi ⟨⟨"y", some 1⟩,
                            [⟨"p", .const 3⟩, ⟨"q", .const 4⟩, ⟨"loop", .var ⟨"x", some 1⟩⟩]⟩] }),
    ("out", { name := "out", preds := ["loop"], term := some (.ret none) })]
  ssa := true
  versions := Table.ofList [("n", 0), ("x", 1), ("y", 1)]

/-- The preheader merges the values of both variables, and the swap takes a temporary. -/
theorem Obtained.freshNames_weave :
    Text.parse weaveText = .ok ⟨Table.ofList [("main", weave)]⟩ ∧ weave.FreshNames ∧
      ∃ g d h, (Edit.insertPreheader "loop" ["loop"]).Yields weave ("loop.preheader", true) g ∧
      g.FreshNames ∧
        g.phiDests.length = 4 ∧ Edit.leaveSsa.Yields g d h ∧ d.temporaries = 1 := by
  have hread : Text.parse weaveText = .ok ⟨Table.ofList [("main", weave)]⟩ := by cbv
  have hmain : Program.function? ⟨Table.ofList [("main", weave)]⟩ "main" = some weave := rfl
  have hobtained : weave.Obtained := .read hread hmain rfl
  have hpre : (Edit.insertPreheader "loop" ["loop"]).Yields weave ("loop.preheader", true)
      (Edit.insertPreheader "loop" ["loop"] weave).func := ⟨rfl, rfl⟩
  have hedited : Obtained (Edit.insertPreheader "loop" ["loop"] weave).func :=
    .edited (e := .insertPreheader "loop" ["loop"]) hobtained (hpre.bind (Edit.yields_pure () _))
  refine ⟨hread, hobtained.freshNames, _, ⟨1, 9, 1, 4⟩, _, hpre,
    hedited.freshNames, by decide +kernel, ⟨?_, rfl⟩, rfl⟩
  decide +kernel

end Func

end ThreeAddress
