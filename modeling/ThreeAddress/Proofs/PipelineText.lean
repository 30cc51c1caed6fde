import ThreeAddress.Proofs.LegiblePasses
import ThreeAddress.Proofs.PrintedRuns
import ThreeAddress.Proofs.RoundTrip
import ThreeAddress.Proofs.WholePrograms

/-!
# Printing what the pipeline leaves

A function that is read from a text and is not in SSA form can be written again after each stage:
the names that stages make are names, and the entry stays in front. What comes out of the pipeline
is therefore read back from its text, with the same code and the same runs
(`Program.optimize_readBack`).
-/

namespace ThreeAddress

open Text

variable {done : List (Func × FunctionReport)} {c : Construction} {p : Program} {fs : List Func}
  {opts : Options} {key : String}

namespace Func

variable {f f' : Func}

/-- Without versions, what can be spelled is legible. -/
theorem Plain.legible (h : f.Plain) {n : Node} (hn : n ∈ f.nodes) (hs : n.Spelled) : n.Legible := by
  have hvar : ∀ v, n.dest? = some v ∨ .var v ∈ n.uses → v.Legible := by
    intro v hv
    have hversion : v.version = none := hv.elim ((h n hn).1 v) ((h n hn).2 v)
    have hspelled := hs.vars v (Node.mem_vars.2 hv)
    unfold Var.Spelled at hspelled
    rw [hversion] at hspelled
    refine ⟨hspelled, fun k hk => ?_⟩
    rw [hversion] at hk
    cases hk
  refine ⟨fun v hv => hvar v (.inl hv), fun x hx v hv => hvar v (.inr (hv ▸ hx)), hs.labels,
    hs.callees⟩

/-- A function that was read and is not in SSA form is presentable. -/
theorem Printable.presentable (h : f.Printable) (hlaid : f.LaidOut) (hsource : f.Source) :
    f.Presentable where
  name := h.spelled.name
  params := h.spelled.params
  params_nodup := h.params_nodup
  blocks {l b} hb := by
    have hspelled := h.spelled.blocks hb
    have hnode : ∀ n ∈ b.nodes, n.Legible := fun n hn =>
      hsource.plain.legible (mem_nodes.2 ⟨l, b, hb, hn⟩) (hspelled.nodes n hn)
    refine ⟨h.name_eq hb, hspelled.name, fun i hi => hnode _ ?_, fun t ht => hnode _ ?_,
      hspelled.preds⟩
    · exact List.mem_append_left _ (List.mem_map_of_mem hi)
    · exact List.mem_append_right _ (List.mem_map_of_mem (Option.mem_toList.2 ht))
  counters x := by
    have hversions := hlaid.versions
    rw [hsource.ssa] at hversions
    rw [lastVersion, hversions]
    exact Int.le_refl 0
  entry_first := hlaid.entry_first

/-- Nothing leads to the entry of a function that was brought into SSA form. -/
theorem Regular.headed (h : f.Regular) (hf : f.Presentable) : f.Headed f.entry where
  toPresentable := hf
  entry_eq := rfl
  free b hb := by
    refine List.eq_nil_iff_forall_not_mem.2 fun p hp => ?_
    exact h.entry_first p ((h.wf.mem_preds hb).1 hp)

/-- What holds of a function between the stages. -/
structure Staged (opts : Options) (e : Label) (f : Func) : Prop where
  fit : f.Fit opts
  headed : f.Headed e

theorem Source.enterSsa_regular (h : f.Source) {policy : UndefinedPolicy} {prune : Bool}
    (hyields : (Edit.enterSsa policy prune).Yields f c f') : f'.Regular := by
  obtain ⟨c', g, hg, hregular, _⟩ := h.enterSsa prune
  cases policy with
  | sentinel =>
    obtain ⟨_, rfl⟩ := hg.unique hyields
    exact hregular
  | refuse =>
    rcases (Edit.enterSsa_refuse prune).yields hg with hrefuses | hg
    · exact absurd hyields hrefuses.not_yields
    · obtain ⟨_, rfl⟩ := hg.unique hyields
      exact hregular

end Func

/-! ## Stages -/

namespace Edit

open Func

variable {f f' : Func} {e : Label} {report : FunctionReport} {I : Func → Prop}

theorem check_keeps : check.Keeps I fun _ => True := by
  refine keeps_get.bind fun g _ => ?_
  split
  · exact (keeps_ask fun _ _ _ _ => trivial).bind fun _ _ => keeps_dominators.bind fun _ _ =>
      keeps_ask fun _ _ _ _ => trivial
  · exact keeps_ask fun _ _ _ _ => trivial

theorem checkAfter_keeps (opts : Options) (stage : Stage) :
    (checkAfter opts stage).Keeps I fun _ => True := by
  unfold checkAfter
  split
  · exact check_keeps.mapFault _
  · exact keeps_pure trivial

theorem constructStage_headed (h : f.Source) (hf : f.Presentable)
    (hyields : (constructStage opts).Yields f c f') : f'.Headed f'.entry := by
  have hyields := (yields_get f).after hyields
  rw [h.ssa] at hyields
  obtain ⟨built, f₁, henter, hyields⟩ := hyields.of_bind
  have hheaded := (h.enterSsa_regular henter).headed (h.enterSsa_presentable hf henter)
  have hrest : (do
      checkAfter opts .construction
      return built : Edit Construction).Keeps (· = f₁) fun _ => True :=
    (checkAfter_keeps opts _).bind fun _ _ => keeps_pure trivial
  rw [(hrest rfl hyields).1]
  exact hheaded

theorem constantsStage_keeps : (constantsStage opts).Keeps (Staged opts e) fun _ => True := by
  intro f report f' hf hyields
  refine ⟨⟨((constantsStage_leaves hf.fit).of_outcome hyields).1, ?_⟩, trivial⟩
  unfold constantsStage at hyields
  cases hopt : opts.constants with
  | false =>
    rw [hopt] at hyields
    obtain ⟨_, rfl⟩ := (yields_pure none f).unique hyields
    exact hf.headed
  | true =>
    rw [hopt] at hyields
    obtain ⟨r, f₁, hpropagate, hyields⟩ := hyields.of_bind
    obtain ⟨report', hreport⟩ := hf.fit.toIsSsa.propagateConstants
    obtain ⟨_, rfl⟩ := hreport.unique hpropagate
    have hentry : e ∈ f.facts.blocks := hf.headed.entry_eq ▸ hf.fit.wf.facts_solves.entry
    have hrest := (checkAfter_keeps opts .constants).bind fun _ _ =>
      keeps_pure (I := Headed e) (R := fun _ => True) (a := some r.2) trivial
    exact (hrest (hf.headed.propagated hentry) hyields).1

theorem motionStage_keeps : (motionStage opts).Keeps (Staged opts e) fun _ => True := by
  intro f report f' hf hyields
  refine ⟨⟨((motionStage_leaves hf.fit).of_outcome hyields).1, ?_⟩, trivial⟩
  have hkeeps : (motionStage opts).Keeps (Headed e) fun _ => True := by
    unfold motionStage
    split
    · exact keeps_pure trivial
    · exact hoist_keeps.bind fun _ _ => (checkAfter_keeps opts _).bind fun _ _ => keeps_pure trivial
  exact (hkeeps hf.headed hyields).1

theorem optimizeRounds_keeps (n : Nat) :
    (optimizeRounds opts n).Keeps (Staged opts e) fun _ => True := by
  induction n with
  | zero => exact keeps_pure trivial
  | succ n ih =>
    refine constantsStage_keeps.bind fun constants _ => motionStage_keeps.bind fun motion _ => ?_
    dsimp only
    split
    · exact ih.bind fun _ _ => keeps_pure trivial
    · exact keeps_pure trivial

theorem leaveStage_keeps (opts : Options) : (leaveStage opts).Keeps (Headed e) fun _ => True := by
  unfold leaveStage
  split
  · exact keeps_pure trivial
  · exact leaveSsa_keeps.bind fun _ _ => (checkAfter_keeps opts _).bind fun _ _ =>
      keeps_pure trivial

/-- What comes out of the pipeline is presentable. -/
theorem optimize_presentable (h : f.Source) (hf : f.Presentable)
    (hyields : (optimize opts).Yields f report f') : f'.Presentable := by
  have hyields := (yields_get f).after hyields
  obtain ⟨_, f₁, hcheck, hyields⟩ := hyields.of_bind
  obtain rfl := (checkAfter_keeps (I := (· = f)) opts _ rfl hcheck).1
  obtain ⟨built, f₂, hconstruct, hyields⟩ := hyields.of_bind
  have hstaged : Staged opts f₂.entry f₂ := by
    refine ⟨?_, constructStage_headed h hf hconstruct⟩
    rcases constructStage_leaves (.inl h) with ⟨_, hrefuses⟩ | hleaves
    · exact absurd hconstruct hrefuses.not_yields
    · exact (hleaves.of_outcome hconstruct).1
  have hleave : ∀ rounds : List RoundReport, (do
      let destruction ← leaveStage opts
      emit (.functionDone f₁.name rounds.length)
      return ⟨f₁.name, built.phis, built.pruned, built.undefinedUses.length, rounds, destruction⟩ :
        Edit FunctionReport).Keeps (Headed f₂.entry) fun _ => True := fun _ =>
    (leaveStage_keeps opts).bind fun _ _ => (keeps_emit _).bind fun _ _ => keeps_pure trivial
  dsimp only at hyields
  split at hyields
  · obtain ⟨rounds, f₃, hrounds, hyields⟩ := hyields.of_bind
    exact (hleave rounds (optimizeRounds_keeps _ hstaged hrounds).1.headed hyields).1.toPresentable
  · obtain ⟨rounds, f₃, hrounds, hyields⟩ := hyields.of_bind
    obtain ⟨rfl, rfl⟩ := (yields_pure [] f₂).unique hrounds
    exact (hleave [] hstaged.headed hyields).1.toPresentable

/-- Its text shows all that its runs depend on. -/
theorem optimize_faithful (h : f.Source) (hf : f.Presentable)
    (hyields : (optimize opts).Yields f report f') :
    f'.name = f.name ∧ f'.Faithful ∧ (opts.leaveSsa = true → f'.nodes.any isSsaNode = false) := by
  have hleaves : (optimize opts).Leaves (Processed opts) f := by
    rcases optimize_leaves (.inl h) with ⟨_, hrefuses⟩ | hleaves
    · exact absurd hyields hrefuses.not_yields
    · exact hleaves
  obtain ⟨hprocessed, hacts⟩ := hleaves.of_outcome hyields
  have hplain : opts.leaveSsa = true → f'.nodes.any isSsaNode = false := fun hopt =>
    any_isSsaNode_eq_false.2 (hprocessed.left hopt).2
  refine ⟨hacts.name_eq, ⟨optimize_presentable h hf hyields, hprocessed.wf, ?_⟩, hplain⟩
  cases hopt : opts.leaveSsa with
  | false => exact .inl (hprocessed.inSsa hopt).toIsSsa
  | true => exact .inr ((hprocessed.left hopt).1.trans (hplain hopt).symm)

end Edit

/-! ## Programs -/

theorem optimizeAll_yields (h : (optimizeAll opts fs).1 = .ok done) :
    List.Forall₂ (fun f d => (Edit.optimize opts).Yields f d.2 d.1) fs done := by
  induction fs generalizing done with
  | nil =>
    cases h
    exact .nil
  | cons f fs ih =>
    unfold optimizeAll at h
    cases hresult : (Edit.optimize opts f).result with
    | error e =>
      simp only [hresult] at h
      cases h
    | ok report =>
      cases hrest : (optimizeAll opts fs).1 with
      | error e =>
        simp only [hresult, hrest] at h
        cases h
      | ok others =>
        simp only [hresult, hrest] at h
        cases h
        exact .cons ⟨hresult, rfl⟩ (ih hrest)

/-- If each function is replaced by one with its name and `P`, all functions have `P` in the end. -/
theorem function?_setFunctions {P : Func → Prop}
    (h : List.Forall₂ (fun f d => d.1.name = f.name ∧ P d.1) fs done)
    (hp : ∀ {key g}, p.function? key = some g → g.name = key ∧ (g ∈ fs ∨ P g)) {g : Func}
    (hg : (done.foldl (fun p d => p.setFunction d.1) p).function? key = some g) :
    g.name = key ∧ P g := by
  induction h generalizing p with
  | nil => exact ⟨(hp hg).1, (hp hg).2.resolve_left List.not_mem_nil⟩
  | @cons f d fs done hd _ ih =>
    refine ih (fun {x c} hc => ?_) hg
    have hset : (p.setFunction d.1).function? x = if x
        = d.1.name then some d.1 else p.function? x :=
      Table.get?_insert _ _ _ _
    rw [hset] at hc
    split at hc
    · rename_i hx
      cases hc
      exact ⟨hx.symm, .inr hd.2⟩
    · rename_i hx
      obtain ⟨hname, hc⟩ := hp hc
      refine ⟨hname, hc.imp_left fun hmem => (List.mem_cons.1 hmem).resolve_left ?_⟩
      rintro rfl
      exact hx (hname.symm.trans hd.1.symm)

namespace Program

/-- The functions that the pipeline leaves of a program that was read without SSA form. -/
theorem optimize_functions {source : String} (hp : parse source = .ok p)
    (hssa : ∀ f ∈ p.functions.values, f.ssa = false) {p' : Program} {reports : List FunctionReport}
    (hopt : (p.optimize opts).result = .ok (p', reports)) {f : Func}
    (hf : p'.function? key = some f) :
    f.name = key ∧ f.Faithful ∧ (opts.leaveSsa = true → f.nodes.any isSsaNode = false) := by
  have hprocessed : ∀ {key f f' report}, p.function? key = some f →
      (Edit.optimize opts).Yields f report f' →
      f'.name = f.name ∧ f'.Faithful ∧ (opts.leaveSsa = true → f'.nodes.any isSsaNode = false) := by
    intro key f f' report hf hyields
    obtain ⟨_, hprintable, hlaid⟩ := parse_printable hp hf
    have hsource := (parse_spec hp hf).2.source (hssa f (Table.mem_values.2 ⟨key, hf⟩))
    exact Edit.optimize_faithful hsource (hprintable.presentable hlaid hsource) hyields
  unfold optimize at hopt
  cases hdone : (optimizeAll opts p.functions.values).1 with
  | error e =>
    simp only [hdone] at hopt
    cases hopt
  | ok done =>
    simp only [hdone] at hopt
    cases hopt
    have hall : List.Forall₂ (fun f d => (∃ key, p.function? key = some f) ∧
        (Edit.optimize opts).Yields f d.2 d.1)
        p.functions.values done :=
      (List.forall₂_and_left _ _).2 ⟨fun f hf => Table.mem_values.1 hf, optimizeAll_yields hdone⟩
    refine function?_setFunctions (P := fun f => f.Faithful ∧
      (opts.leaveSsa = true → f.nodes.any isSsaNode = false))
      (hall.imp fun f d h => ?_) (fun {x g} hg => ?_) hf
    · obtain ⟨⟨key, hkey⟩, hyields⟩ := h
      exact hprocessed hkey hyields
    · exact ⟨(parse_spec hp hg).1, .inl (Table.mem_values.2 ⟨x, hg⟩)⟩

theorem Faithful.print_reread (h : p.Faithful)
    (hnodes : ∀ f ∈ p.functions.values, f.nodes.any isSsaNode = false) :
    p.reread.print false = p.print false := by
  have hentries : ∀ f ∈ p.reread.functions.values, f.entry ∈ f.blocks := by
    intro f hf
    obtain ⟨key, hkey⟩ := Table.mem_values.1 hf
    obtain ⟨g, hg, rfl⟩ := Option.map_eq_some_iff.1 ((p.function?_reread key).symm.trans hkey)
    have hreordered := (h hg).2.reordered
    show g.reread.entry ∈ g.reread.blocks.keys
    rw [hreordered.entry_eq, hreordered.labels_eq]
    exact (h hg).2.wf.entry_mem
  have hprintable : p.Printable := h.printable
  rw [print_eq hentries, hprintable.print_eq, h.render_reread hnodes]

/-- What the pipeline leaves of a program survives printing and reading. Take a program that is read
with no function in SSA form, and any options with which the pipeline returns a program. That
program can be printed, with predecessors or without, and both texts are read as one and the same
program, which has the same functions, parameters and blocks in the same order and the same code up
to the order of phi operands. Every run of it has the same result, output, memory and number of
steps. If functions are taken out of SSA form in the end, it also prints as before. -/
theorem optimize_readBack (source : String) (p : Program) (hp : parse source = .ok p)
    (hssa : ∀ f ∈ p.functions.values, f.ssa = false) (opts : Options) (p' : Program)
    (reports : List FunctionReport) (hopt : (p.optimize opts).result = .ok (p', reports)) :
    ∃ q, (∀ showPreds, ∃ text, p'.print showPreds = .ok text ∧ parse text = .ok q) ∧
      p'.Reordered q ∧ (∀ spec, q.run spec = p'.run spec) ∧
      (opts.leaveSsa = true → q.print false = p'.print false) := by
  have hfunctions : ∀ {key f}, p'.function? key = some f →
      f.name = key ∧ f.Faithful ∧ (opts.leaveSsa = true → f.nodes.any isSsaNode = false) :=
    fun hf => optimize_functions hp hssa hopt hf
  have hfaithful : p'.Faithful := fun hf => ⟨(hfunctions hf).1, (hfunctions hf).2.1⟩
  have hprintable : p'.Printable := hfaithful.printable
  refine ⟨p'.reread, fun showPreds => ?_, hfaithful.reordered, run_reread hfaithful,
    fun hleave => ?_⟩
  · exact ⟨_, hprintable.print_eq showPreds, hprintable.parse_render showPreds⟩
  · refine hfaithful.print_reread fun f hf => ?_
    obtain ⟨key, hkey⟩ := Table.mem_values.1 hf
    exact (hfunctions hkey).2.2 hleave

theorem optimize_readBack_countdown :
    parse countdownText = .ok ⟨Table.ofList [("main", Func.countdown)]⟩ ∧
      ∃ p' reports, (Program.optimize ⟨Table.ofList [("main", Func.countdown)]⟩
        (.ofLevel .all)).result
          = .ok (p', reports) ∧
        ∃ q, (∀ showPreds, ∃ text, p'.print showPreds = .ok text ∧ parse text = .ok q) ∧
      p'.Reordered q ∧ (∀ spec, q.run spec = p'.run spec) ∧ q.print false = p'.print false := by
  have hread : parse countdownText = .ok ⟨Table.ofList [("main", Func.countdown)]⟩ := by cbv
  have hsource : ∀ f ∈ (Program.functions ⟨Table.ofList [("main", Func.countdown)]⟩).values,
      f.Source ∨ f.Fit (.ofLevel .all) := by
    intro f hf
    obtain ⟨key, hkey⟩ := Table.mem_values.1 hf
    obtain rfl : f = Func.countdown := List.mem_singleton.1 hf
    exact .inl ((parse_spec hread hkey).2.source rfl)
  refine ⟨hread, ?_⟩
  rcases optimize_spec (fun hf => (parse_spec hread hf).1) hsource with
    ⟨hpolicy, _⟩ | ⟨p', reports, hresult, _⟩
  · cases hpolicy
  · obtain ⟨q, hq, hsame, hruns, hprint⟩ :=
      optimize_readBack countdownText _ hread (by decide) _ p' reports hresult
    exact ⟨p', reports, hresult, q, hq, hsame, hruns, hprint rfl⟩

end Program

end ThreeAddress
