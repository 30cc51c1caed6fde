import ThreeAddress.Pipeline
import ThreeAddress.Proofs.ConstantPropagation
import ThreeAddress.Proofs.EnterSsa
import ThreeAddress.Proofs.LeaveSsa
import ThreeAddress.Proofs.LoopMotion

/-!
# One function in the pipeline

Each stage succeeds on a function that fits its options, passes its check, and leaves a function
that fits as well and acts as the one before. A function that is not in SSA form comes to fit when
it is brought there, unless a use is refused. `Edit.optimize_leaves` puts the stages together.
-/

namespace ThreeAddress

variable {f : Func}

/-! ## What the stages keep -/

namespace Func

variable {f' f'' : Func} {opts : Options}

/-- `f'` has the name of `f`, and acts as `f` in every program. -/
structure ActsAs (f f' : Func) : Prop where
  name_eq : f'.name = f.name
  interchangeable : f.Interchangeable f'

theorem ActsAs.refl (wf : f.WellFormed) : f.ActsAs f := ⟨rfl, wf.delays_self.interchangeable⟩

theorem ActsAs.trans (h : f.ActsAs f') (h' : f'.ActsAs f'') : f.ActsAs f'' :=
  ⟨h'.name_eq.trans h.name_eq, h.interchangeable.trans h'.interchangeable⟩

/-- What the stages ask of a function in SSA form, each for something else: constants are found
where nothing is merged at the entry, a loop gets a preheader unless it starts at the entry, and an
undefined operand needs no copy where control comes by only once. -/
structure Suits (opts : Options) (f : Func) : Prop where
  entryPhiFree : opts.constants = true → f.EntryPhiFree
  entry : opts.motion = true → ¬ f.EntryIsTarget
  undefined : opts.leaveSsa = true → f.UndefinedAcyclic

/-- A function in SSA form that the stages can deal with. -/
structure Fit (opts : Options) (f : Func) : Prop extends InSsa f, Suits opts f

theorem Regular.fit (h : f.Regular) (opts : Options) : f.Fit opts :=
  ⟨h.toInSsa, fun _ => h.entry_phiFree, fun _ => h.not_entryIsTarget, fun _ => h.undefined⟩

theorem EntryIsTarget.of_propagated {s : Facts} (h : f.IsSsa)
    (ht : (f.propagated s).EntryIsTarget) : f.EntryIsTarget := by
  obtain ⟨p, hp, hnext⟩ := ht
  exact ⟨p, (subgraph_propagated h).reachable hp, (subgraph_propagated h).next p _ hnext⟩

theorem Fit.propagated (h : f.Fit opts) (hopt : opts.constants = true) :
    (f.propagated f.facts).Fit opts where
  toIsSsa := h.toIsSsa.propagated h.wf.facts_solves (h.entryPhiFree hopt)
  counted := h.counted.propagated h.wf
  entryPhiFree _ := (h.entryPhiFree hopt).propagated h.wf
  entry hmotion ht := h.entry hmotion (.of_propagated h.toIsSsa ht)
  undefined hleave := (h.undefined hleave).propagated h.toIsSsa

theorem Improves.fit (h : f.Improves f') (hf : f.Fit opts) : f'.Fit opts :=
  ⟨h.inSsa, fun hopt => h.entryPhiFree (hf.entryPhiFree hopt), fun _ => h.entry,
    fun hopt => h.undefined (hf.undefined hopt)⟩

/-- What the pipeline leaves: a function in SSA form, or one that shows nothing of it. -/
structure Processed (opts : Options) (f : Func) : Prop where
  wf : f.WellFormed
  inSsa : opts.leaveSsa = false → f.InSsa
  left : opts.leaveSsa = true → f.ssa = false ∧ f.PhiFree ∧ f.Plain

end Func

namespace Edit

open Func

variable {α β : Type} {m : Edit α} {P Q : Func → Prop} {f' : Func} {opts : Options}

/-- The edit succeeds, and leaves a function with `P` that acts as the one before. -/
def Leaves (m : Edit α) (P : Func → Prop) (f : Func) : Prop := ∃ a f', m.Yields f a f' ∧ P f' ∧
    f.ActsAs f'

theorem Leaves.bind {k : α → Edit β} (h : m.Leaves P f) (hk : ∀ a f', P f' → (k a).Leaves Q f') :
    (m >>= k).Leaves Q f := by
  obtain ⟨a, f₁, hm, hP, hfirst⟩ := h
  obtain ⟨b, f₂, hyields, hQ, hsecond⟩ := hk a f₁ hP
  exact ⟨b, f₂, hm.bind hyields, hQ, hfirst.trans hsecond⟩

/-- Parts that change nothing. -/
theorem Leaves.of_yields {a : α} {k : α → Edit β} (hm : m.Yields f a f) (hk : (k a).Leaves Q f) :
    (m >>= k).Leaves Q f := by
  obtain ⟨b, f', hyields, hQ, hacts⟩ := hk
  exact ⟨b, f', hm.bind hyields, hQ, hacts⟩

/-- Whatever comes of the edit is what it leaves. -/
theorem Leaves.of_outcome {a : α} (h : m.Leaves P f) (hyields : m.Yields f a f') :
    P f' ∧ f.ActsAs f' := by
  obtain ⟨b, f₁, hm, hP, hacts⟩ := h
  obtain ⟨_, rfl⟩ := hm.unique hyields
  exact ⟨hP, hacts⟩

theorem leaves_pure (a : α) (wf : f.WellFormed) (hP : P f) : (pure a : Edit α).Leaves P f :=
  ⟨a, f, yields_pure a f, hP, .refl wf⟩

/-! ## Checks -/

theorem yields_check (h : f.check = .ok ()) : Edit.check.Yields f () f := by
  refine (yields_get f).bind ?_
  unfold Func.check at h
  split at h
  · rename_i hssa
    rw [if_pos hssa]
    unfold checkSsa at h
    obtain ⟨_, hgraph, h⟩ := bind_eq_ok.1 h
    obtain ⟨d, hd, hvalues⟩ := bind_eq_ok.1 h
    exact (yields_ask hgraph).bind ((yields_dominators hd).bind (yields_ask hvalues))
  · rename_i hssa
    rw [if_neg hssa]
    exact yields_ask h

theorem yields_checkAfter (opts : Options) (stage : Stage) (h : f.check = .ok ()) :
    (checkAfter opts stage).Yields f () f := by
  unfold checkAfter
  split
  · exact yields_mapFault (yields_check h)
  · exact yields_pure () f

end Edit

theorem Func.IsSsa.check (h : f.IsSsa) : f.check = .ok () := by
  rw [Func.check, if_pos h.ssa]
  exact isSsa_iff.1 h

theorem Func.WellFormed.check (h : f.WellFormed) (hssa : f.ssa = false) : f.check = .ok () := by
  rw [Func.check, if_neg (Bool.eq_false_iff.1 hssa)]
  exact checkCfg_eq_ok.2 h

namespace Edit

open Func

variable {opts : Options}

/-! ## Stages -/

theorem constantsStage_leaves (h : f.Fit opts) : (constantsStage opts).Leaves (Fit opts) f := by
  unfold constantsStage
  cases hopt : opts.constants with
  | false => exact leaves_pure none h.wf h
  | true =>
    have sol := h.wf.facts_solves
    obtain ⟨report, hyields⟩ := h.toIsSsa.propagateConstants
    have hfit := h.propagated hopt
    refine ⟨some report, _,
      hyields.bind ((yields_checkAfter opts _ hfit.toIsSsa.check).bind (yields_pure _ _)), hfit,
      rfl, ?_⟩
    exact (propagated_simulation sol h.toIsSsa (h.entryPhiFree hopt)).interchangeable pace_noMore

theorem motionStage_leaves (h : f.Fit opts) : (motionStage opts).Leaves (Fit opts) f := by
  unfold motionStage
  cases hopt : opts.motion with
  | false => exact leaves_pure none h.wf h
  | true =>
    obtain ⟨report, f', hyields, himproves⟩ := hoist_improves h.toInSsa (h.entry hopt)
    refine ⟨some report, f', ?_, himproves.fit h, himproves.name_eq, himproves.interchangeable⟩
    exact hyields.bind ((yields_checkAfter opts _ himproves.inSsa.toIsSsa.check).bind
      (yields_pure _ _))

/-- Any number of rounds. -/
theorem optimizeRounds_leaves (n : Nat) (h : f.Fit opts) :
    (optimizeRounds opts n).Leaves (Fit opts) f := by
  induction n generalizing f with
  | zero => exact leaves_pure [] h.wf h
  | succ n ih =>
    refine (constantsStage_leaves h).bind fun constants f₁ h₁ =>
      (motionStage_leaves h₁).bind fun motion f₂ h₂ => ?_
    dsimp only
    split
    · exact (ih h₂).bind fun rounds f₃ h₃ => leaves_pure _ h₃.wf h₃
    · exact leaves_pure _ h₂.wf h₂

theorem leaveStage_leaves (h : f.Fit opts) : (leaveStage opts).Leaves (Processed opts) f := by
  unfold leaveStage
  cases hopt : opts.leaveSsa with
  | false =>
    refine leaves_pure none h.wf ⟨h.wf, fun _ => h.toInSsa, fun htrue => ?_⟩
    rw [hopt] at htrue
    cases htrue
  | true =>
    obtain ⟨result, f', hyields, hleaves⟩ := h.toInSsa.leaveSsa (h.undefined hopt)
    have hprocessed : f'.Processed opts := by
      refine ⟨hleaves.wf, fun hfalse => ?_, fun _ => ⟨hleaves.ssa, hleaves.phiFree, hleaves.plain⟩⟩
      rw [hopt] at hfalse
      cases hfalse
    refine ⟨some result, f', ?_, hprocessed, hleaves.name_eq, hleaves.interchangeable⟩
    exact hyields.bind ((yields_checkAfter opts _ (hleaves.wf.check hleaves.ssa)).bind
      (yields_pure _ _))

/-- A function that is not in SSA form is brought there, unless a use is refused. -/
theorem constructStage_leaves (h : f.Source ∨ f.Fit opts) :
    (opts.policy = .refuse ∧ (constructStage opts).Refuses f) ∨
      (constructStage opts).Leaves (Fit opts) f := by
  unfold constructStage
  rcases h with h | h
  · obtain ⟨c, f', hyields, hregular, hname, _, hone, hnone⟩ := h.enterSsa opts.prune
    have hacts : f.ActsAs f' := by
      refine ⟨hname, ?_⟩
      by_cases ht : f.EntryIsTarget
      · exact (hone ht).interchangeable
      · exact (hnone ht).interchangeable
    have hleaves : ∀ policy, (enterSsa policy opts.prune).Yields f c f' →
        (enterSsa policy opts.prune >>= fun built => checkAfter opts .construction >>=
          fun _ => pure built).Leaves
          (Fit opts) f := fun policy hpolicy =>
      ⟨c, f', hpolicy.bind ((yields_checkAfter opts _ hregular.toIsSsa.check).bind
        (yields_pure _ _)), hregular.fit opts, hacts⟩
    have hssa := h.ssa
    cases hpolicy : opts.policy with
    | sentinel =>
      refine .inr (.of_yields (yields_get f) ?_)
      rw [hssa]
      exact hleaves .sentinel hyields
    | refuse =>
      rcases (enterSsa_refuse opts.prune).yields hyields with hrefuses | hyields
      · refine .inl ⟨rfl, .of_yields (yields_get f) ?_⟩
        rw [hssa]
        exact hrefuses.bind _
      · refine .inr (.of_yields (yields_get f) ?_)
        rw [hssa]
        exact hleaves .refuse hyields
  · refine .inr (.of_yields (yields_get f) ?_)
    rw [h.ssa]
    exact leaves_pure _ h.wf h

/-- All stages: unless a use is refused, a function comes out that acts as the one that went in. -/
theorem optimize_leaves (h : f.Source ∨ f.Fit opts) :
    (opts.policy = .refuse ∧ (optimize opts).Refuses f) ∨
      (optimize opts).Leaves (Processed opts) f := by
  have hcheck : f.check = .ok () := h.elim (fun h => h.wf.check h.ssa) fun h => h.toIsSsa.check
  rcases constructStage_leaves h with ⟨hpolicy, hrefuses⟩ | hleaves
  · refine .inl ⟨hpolicy,
      .of_yields (yields_get f) (.of_yields (yields_checkAfter opts _ hcheck) ?_)⟩
    exact hrefuses.bind _
  · refine .inr (.of_yields (yields_get f) (.of_yields (yields_checkAfter opts _ hcheck) ?_))
    refine hleaves.bind fun built f₁ h₁ => ?_
    dsimp only
    split
    · refine (optimizeRounds_leaves opts.rounds h₁).bind fun rounds f₂ h₂ => ?_
      refine (leaveStage_leaves h₂).bind fun destruction f₃ h₃ => ?_
      exact .of_yields (yields_emit _ f₃) (leaves_pure _ h₃.wf h₃)
    · refine .of_yields (yields_pure [] f₁) ((leaveStage_leaves h₁).bind fun destruction f₃ h₃ =>
        ?_)
      exact .of_yields (yields_emit _ f₃) (leaves_pure _ h₃.wf h₃)

end Edit

end ThreeAddress
