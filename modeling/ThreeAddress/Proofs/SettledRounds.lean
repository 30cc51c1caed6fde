import Mathlib
import ThreeAddress.Proofs.ExhaustedLoops
import ThreeAddress.Proofs.Reading
import ThreeAddress.Proofs.Stages
import ThreeAddress.Proofs.VaryingMotion

/-!
# One round of optimization is enough

A function is settled once nothing in it is constant and no loop has invariant code left.

1. A round settles a function (`constantsStage_varies`, `motionStage_settles`): constants are
   propagated first, and code that is moved afterwards makes no new ones.
2. On a settled function the stages change nothing, and say so (`constantsStage_idle`,
   `motionStage_idle`).

So a second round is run only to find that there is nothing to do, and there is no third
(`optimizeRounds_settles`).
-/

namespace ThreeAddress

/-- A function that the stages leave as it is. -/
structure Func.Settled (opts : Options) (f : Func) : Prop extends Func.Fit opts f where
  reachable : ∀ l ∈ f.blocks, f.graph.Reachable l
  varies : opts.constants = true → f.Varies
  exhausted : opts.motion = true → ∀ x, f.graph.IsHeader x → f.Exhausted x []

/-- Everything that was asked for was run in the round, and changed nothing. -/
structure RoundReport.Idle (opts : Options) (r : RoundReport) : Prop where
  constants : r.constants.map (·.changed) = if opts.constants then some false else none
  motion : r.motion.map (·.changed) = if opts.motion then some false else none

theorem RoundReport.Idle.changed_eq {opts : Options} {r : RoundReport} (h : r.Idle opts) :
    r.changed = false := by
  have hany : ∀ {o : Option Bool} {c : Bool}, (o = if c then some false else none) →
      o.any id = false := by
    rintro _ c rfl
    cases c <;> rfl
  have hconstants := hany h.constants
  have hmotion := hany h.motion
  rw [Option.any_map] at hconstants hmotion
  exact Bool.or_eq_false_iff.2 ⟨hconstants, hmotion⟩

namespace Edit

open Func

variable {f : Func} {opts : Options}

/-! ## A settled function -/

theorem constantsStage_idle (h : f.Settled opts) :
    ∃ r, (constantsStage opts).Yields f r f ∧
      r.map (·.changed) = if opts.constants then some false else none := by
  unfold constantsStage
  cases hopt : opts.constants with
  | false => exact ⟨none, yields_pure none f, rfl⟩
  | true =>
    obtain ⟨report, hyields, hsame⟩ := (h.varies hopt).propagateConstants h.toIsSsa h.reachable
    refine ⟨some report,
      hyields.bind ((yields_checkAfter opts _ h.toIsSsa.check).bind (yields_pure _ _)), ?_⟩
    exact congrArg some hsame

theorem motionStage_idle (h : f.Settled opts) :
    ∃ r, (motionStage opts).Yields f r f ∧
      r.map (·.changed) = if opts.motion then some false else none := by
  unfold motionStage
  cases hopt : opts.motion with
  | false => exact ⟨none, yields_pure none f, rfl⟩
  | true =>
    obtain ⟨report, hyields, hsame⟩ := hoist_of_exhausted h.toIsSsa (h.exhausted hopt)
    refine ⟨some report,
      hyields.bind ((yields_checkAfter opts _ h.toIsSsa.check).bind (yields_pure _ _)), ?_⟩
    exact congrArg some hsame

/-- Of any number of rounds, one is run, and it is idle. -/
theorem optimizeRounds_idle (h : f.Settled opts) (n : Nat) :
    ∃ rounds, (optimizeRounds opts n).Yields f rounds f ∧ rounds.length = min n 1 ∧ ∀ r ∈ rounds,
      r.Idle opts := by
  cases n with
  | zero => exact ⟨[], yields_pure [] f, rfl, fun r hr => (by cases hr)⟩
  | succ n =>
    obtain ⟨constants, hconstants, hsame⟩ := constantsStage_idle h
    obtain ⟨motion, hmotion, hsame'⟩ := motionStage_idle h
    have hidle : RoundReport.Idle opts ⟨constants, motion⟩ := ⟨hsame, hsame'⟩
    refine ⟨[⟨constants, motion⟩], hconstants.bind (hmotion.bind ?_), ?_,
      List.forall_mem_singleton.2 hidle⟩
    · dsimp only
      rw [hidle.changed_eq]
      exact yields_pure _ f
    · rw [List.length_singleton, Nat.min_eq_right (Nat.succ_pos n)]

/-! ## The first round -/

theorem constantsStage_varies (h : f.Fit opts) (hreach : ∀ l ∈ f.blocks, f.graph.Reachable l) :
    ∃ r f', (constantsStage opts).Yields f r f' ∧ f'.Fit opts ∧
      (∀ l ∈ f'.blocks, f'.graph.Reachable l) ∧
      (opts.constants = true → f'.Varies) := by
  unfold constantsStage
  cases hopt : opts.constants with
  | false => exact ⟨none, f, yields_pure none f, h, hreach, fun hopt => (by cases hopt)⟩
  | true =>
    obtain ⟨report, hyields⟩ := h.toIsSsa.propagateConstants
    have hfit := h.propagated hopt
    refine ⟨some report, _,
      hyields.bind ((yields_checkAfter opts _ hfit.toIsSsa.check).bind (yields_pure _ _)), hfit,
      fun l hl => reachable_propagated h.wf.facts_solves h.wf hl, fun _ => ?_⟩
    exact h.toIsSsa.varies_propagated (h.entryPhiFree hopt) hreach

theorem motionStage_settles (h : f.Fit opts) (hreach : ∀ l ∈ f.blocks, f.graph.Reachable l)
    (hvaries : opts.constants = true → f.Varies) :
    ∃ r f', (motionStage opts).Yields f r f' ∧ f'.Settled opts := by
  unfold motionStage
  cases hopt : opts.motion with
  | false =>
    refine ⟨none, f, yields_pure none f, h, hreach, hvaries, fun hmotion => ?_⟩
    rw [hopt] at hmotion
    cases hmotion
  | true =>
    have hentry := h.entry hopt
    obtain ⟨report, f', hyields, hhoists⟩ := hoist_hoists h.toInSsa hentry
    have hfit := (hhoists.improves h.toInSsa hentry).fit h
    refine ⟨some report, f',
      hyields.bind ((yields_checkAfter opts _ hfit.toIsSsa.check).bind (yields_pure _ _)), hfit,
      hhoists.reachable h.toInSsa hentry hreach, fun hconstants => ?_, fun _ => ?_⟩
    · exact hhoists.varies h.toInSsa hentry hreach (hvaries hconstants)
    · exact hhoists.exhausted h.toInSsa hentry (doneWith_nil f)

/-- However many rounds there may be, the first one settles the function, and if it changed
anything, a second one finds nothing to do. -/
theorem optimizeRounds_settles (h : f.Fit opts) (hreach : ∀ l ∈ f.blocks, f.graph.Reachable l) :
    ∃ first f', f'.Fit opts ∧ ∀ n, ∃ later,
      (optimizeRounds opts (n + 1)).Yields f (first :: later) f' ∧
      later.length = (if first.changed then min n 1 else 0) ∧ ∀ r ∈ later, r.Idle opts := by
  obtain ⟨constants, f₁, hconstants, hfit, hreach₁, hvaries⟩ := constantsStage_varies h hreach
  obtain ⟨motion, f₂, hmotion, hsettled⟩ := motionStage_settles hfit hreach₁ hvaries
  refine ⟨⟨constants, motion⟩, f₂, hsettled.toFit, fun n => ?_⟩
  cases hchanged : RoundReport.changed ⟨constants, motion⟩ with
  | false =>
    refine ⟨[], hconstants.bind (hmotion.bind ?_), rfl, fun r hr => (by cases hr)⟩
    dsimp only
    rw [hchanged]
    exact yields_pure _ f₂
  | true =>
    obtain ⟨later, hlater, hlength, hidle⟩ := optimizeRounds_idle hsettled n
    refine ⟨later, hconstants.bind (hmotion.bind ?_), hlength, hidle⟩
    dsimp only
    rw [hchanged]
    exact hlater.bind (yields_pure _ f₂)

/-! ## The pipeline -/

/-- A round does not look at how many are allowed. -/
theorem optimizeRounds_setRounds (opts : Options) (n : Nat) (hn : 0 < n) (k : Nat) :
    optimizeRounds { opts with rounds := n, rounds_pos := hn } k = optimizeRounds opts k := by
  induction k with
  | zero => rfl
  | succ k ih =>
    simp only [optimizeRounds, ih]
    rfl

/-- Where no use is refused, a function comes into SSA form. -/
theorem constructStage_regular (h : f.Source)
    (hbuilt : (enterSsa opts.policy opts.prune f).result.isOk) :
    ∃ built f', (constructStage opts).Yields f built f' ∧ f'.Regular := by
  obtain ⟨built, f', hyields, hregular, _⟩ := h.enterSsa opts.prune
  have henter : (enterSsa opts.policy opts.prune).Yields f built f' := by
    cases hpolicy : opts.policy with
    | sentinel => exact hyields
    | refuse =>
      rcases (enterSsa_refuse opts.prune).yields hyields with ⟨e, he, _⟩ | hyields
      · rw [hpolicy, he] at hbuilt
        cases hbuilt
      · exact hyields
  refine ⟨built, f', (yields_get f).bind ?_, hregular⟩
  rw [h.ssa]
  exact henter.bind ((yields_checkAfter opts _ hregular.toIsSsa.check).bind (yields_pure _ _))

end Edit

namespace Func

/-- A function that is read and not in SSA form is optimized in one round. With any options that ask
for an optimization and do not refuse one of its uses, the function that comes out does not depend
on how many rounds are allowed, and nor does the report, up to the rounds after the first. If the
first round changed nothing, it is the only one. Otherwise there is a second, if one is allowed, in
which everything that was asked for is run again and changes nothing. -/
theorem optimize_rounds_settle (source : String) (p : Program) (hp : Text.parse source = .ok p)
    (f : Func) (hf : f ∈ p.functions.values) (hssa : f.ssa = false) (opts : Options)
    (hopt : opts.constants = true ∨ opts.motion = true)
    (hbuilt : (Edit.enterSsa opts.policy opts.prune f).result.isOk) :
    ∃ (f' : Func) (report : FunctionReport) (first : RoundReport), ∀ n (hn : 0 < n),
      ∃ later : List RoundReport,
        (Edit.optimize { opts with rounds := n, rounds_pos := hn }).Yields f
          { report with rounds := first :: later } f' ∧
        (first :: later).length = (if first.changed then min n 2 else 1) ∧
        ∀ r ∈ later, r.Idle opts := by
  obtain ⟨key, hkey⟩ := Table.mem_values.1 hf
  have hsource := (Text.parse_spec hp hkey).2.source hssa
  obtain ⟨built, f₁, hbuild, hregular⟩ := Edit.constructStage_regular hsource hbuilt
  obtain ⟨first, f₂, hfit, hrounds⟩ :=
    Edit.optimizeRounds_settles (hregular.fit opts) hregular.reachable
  obtain ⟨destruction, f₃, hleave, _⟩ := Edit.leaveStage_leaves hfit
  refine ⟨f₃, ⟨f.name, built.phis, built.pruned, built.undefinedUses.length, [], destruction⟩,
    first, fun n hn => ?_⟩
  obtain ⟨later, hlater, hlength, hidle⟩ := hrounds (n - 1)
  rw [Nat.sub_add_cancel hn] at hlater
  have hon : (opts.constants || opts.motion) = true := by simpa using hopt
  have hcheck := Edit.yields_checkAfter opts .parsing (hsource.wf.check hssa)
  refine ⟨later, (Edit.yields_get f).bind (hcheck.bind (hbuild.bind ?_)), ?_, hidle⟩
  · dsimp only
    rw [if_pos hon, Edit.optimizeRounds_setRounds]
    exact hlater.bind (hleave.bind ((Edit.yields_emit _ f₃).bind (Edit.yields_pure _ f₃)))
  · rw [List.length_cons, hlength]
    split <;> omega

/-- The text of a loop that counts down by a constant, and squares the same number in each round. -/
def squaresText : String :=
  "function main(n, m) \x7b
  entry:
  k = add 1, 1
  jump loop
  loop:
  n = sub n, k
  s = mul m, m
  write s
  branch n, loop, done
  done:
  return
  \x7d"

/-- The function of that text. -/
def squares : Func where
  name := "main"
  params := ["n", "m"]
  blocks := Table.ofList [
    ("entry", { name := "entry", term := some (.jump "loop"),
                instrs := [.binary ⟨"k", none⟩ "add" (.const 1) (.const 1)] }),
    ("loop",
      { name := "loop", preds := ["entry", "loop"],
        term := some (.branch (.var ⟨"n", none⟩) "loop" "done"),
               instrs := [.binary ⟨"n", none⟩ "sub" (.var ⟨"n", none⟩) (.var ⟨"k", none⟩),
                          .binary ⟨"s", none⟩ "mul" (.var ⟨"m", none⟩) (.var ⟨"m", none⟩),
                          .write (.var ⟨"s", none⟩)] }),
    ("done", { name := "done", preds := ["loop"], term := some (.ret none) })]

/-- All optimizations, where uses without a definition are refused. -/
def strictOptions : Options :=
    { constants := true, motion := true, policy := .refuse, rounds_pos := Nat.one_pos }

theorem optimize_rounds_settle_squares :
    Text.parse squaresText = .ok ⟨Table.ofList [("main", squares)]⟩ ∧ squares.ssa = false ∧
      (Edit.enterSsa .refuse false squares).result.isOk ∧
      ∃ (f' : Func) (report : FunctionReport) (first second : RoundReport),
        (Edit.optimize strictOptions).Yields squares { report with rounds := [first] } f' ∧
        (Edit.optimize { strictOptions with rounds := 5, rounds_pos := Nat.succ_pos 4 }).Yields
          squares { report with rounds := [first, second] } f' ∧
        first.changed = true ∧ second.changed = false := by
  have hread : Text.parse squaresText = .ok ⟨Table.ofList [("main", squares)]⟩ := by cbv
  have hbuilt : (Edit.enterSsa .refuse false squares).result.isOk := by decide +kernel
  have hrun : (Edit.optimize strictOptions squares).result.toOption.map
      (fun r => r.rounds.map (·.changed))
      = some [true] := by decide +kernel
  obtain ⟨f', report, first, h⟩ := optimize_rounds_settle squaresText _ hread squares (.head _) rfl
    strictOptions (.inl rfl) hbuilt
  obtain ⟨rest, hone, _⟩ := h 1 Nat.one_pos
  obtain ⟨later, hfive, hlength, hidle⟩ := h 5 (Nat.succ_pos 4)
  rw [show (Edit.optimize strictOptions squares).result = _ from hone.1] at hrun
  obtain ⟨hchanged, rfl⟩ : first.changed = true ∧ rest = [] := by simpa [Except.toOption] using hrun
  rw [hchanged] at hlength
  obtain ⟨second, rfl⟩ := List.length_eq_one_iff.1 (Nat.succ.inj hlength)
  have hsame := (hidle second (.head _)).changed_eq
  exact ⟨hread, rfl, hbuilt, f', report, first, second, hone, hfive, hchanged, hsame⟩

end Func

end ThreeAddress
