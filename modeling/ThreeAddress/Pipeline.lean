import ThreeAddress.Constants.Propagation
import ThreeAddress.Func.Check
import ThreeAddress.Hoist
import ThreeAddress.Ssa.Construction
import ThreeAddress.Ssa.Destruction

/-!
# The pipeline

Each function is brought into SSA form, unless it is there already, optimized in rounds, and taken
out of SSA form. A round that changes nothing is the last one. Unless that is switched off, the
function is checked after each stage; what the check finds broken is reported with the name of the
stage.
-/

namespace ThreeAddress

/-! ## Options -/

/-- Which optimizations run. -/
inductive OptLevel where
  | none | constants | motion | all
deriving DecidableEq

/-- The level with the given name. -/
def OptLevel.ofName? : String → Option OptLevel
  | "none" => some none
  | "const_prop" => some constants
  | "loop_inv" => some motion
  | "all" => some all
  | _ => .none

/-- The policy with the given name. -/
def UndefinedPolicy.ofName? : String → Option UndefinedPolicy
  | "sentinel" => some sentinel
  | "error" => some refuse
  | _ => none

/-- How the pipeline runs. -/
structure Options where
  /-- Whether constants are propagated. -/
  constants : Bool := false
  /-- Whether invariant code is moved out of loops. -/
  motion : Bool := false
  /-- The most rounds of optimization. -/
  rounds : Nat := 1
  /-- What becomes of uses that no definition reaches. -/
  policy : UndefinedPolicy := .sentinel
  /-- Whether dead phis are deleted. -/
  prune : Bool := false
  /-- Whether functions are checked after each stage. -/
  verify : Bool := true
  /-- Whether functions are taken out of SSA form. -/
  leaveSsa : Bool := true
  /-- There is at least one round. -/
  rounds_pos : 0 < rounds := by omega

/-- The options of a level. -/
def Options.ofLevel (level : OptLevel) : Options :=
  { constants := decide (level = .constants ∨ level = .all),
    motion := decide (level = .motion ∨ level = .all) }

/-- Options before they are checked. What is not given follows from the level. -/
structure Settings where
  level : String := "none"
  constants : Option Bool := none
  motion : Option Bool := none
  rounds : Int := 1
  policy : String := "sentinel"
  prune : Bool := false
  verify : Bool := true
  leaveSsa : Bool := true

/-- Why settings are refused. -/
inductive SettingsError where
  | unknownLevel (name : String)
  | tooFewRounds
  | unknownPolicy (name : String)
deriving DecidableEq

/-- The text that reports the refusal. -/
def SettingsError.message : SettingsError → String
  | unknownLevel l => s!"unknown optimization level '{l}'"
  | tooFewRounds => "rounds must be at least 1"
  | unknownPolicy p => s!"unknown undefined-value policy '{p}'"

/-- Checks settings: the level, then the rounds, then the policy. -/
def Settings.options (s : Settings) : Except SettingsError Options :=
  match OptLevel.ofName? s.level with
  | none => .error (.unknownLevel s.level)
  | some level =>
    if h : 0 < s.rounds.toNat then
      match UndefinedPolicy.ofName? s.policy with
      | none => .error (.unknownPolicy s.policy)
      | some policy =>
        let preset := Options.ofLevel level
        .ok
          { constants := s.constants.getD preset.constants
            motion := s.motion.getD preset.motion
            rounds := s.rounds.toNat
            policy
            prune := s.prune
            verify := s.verify
            leaveSsa := s.leaveSsa
            rounds_pos := h }
    else .error .tooFewRounds

/-! ## Reports -/

/-- What one round of optimization did. -/
structure RoundReport where
  /-- Constant propagation, if it ran. -/
  constants : Option ConstantsReport
  /-- Code motion, if it ran. -/
  motion : Option HoistReport
deriving DecidableEq

/-- Whether the round changed anything. -/
def RoundReport.changed (r : RoundReport) : Bool :=
  r.constants.any (·.changed) || r.motion.any (·.changed)

/-- What the pipeline did to a function. -/
structure FunctionReport where
  /-- The function. -/
  name : String
  /-- The number of phis that SSA construction placed, less the number of those found dead. -/
  phisPlaced : Int
  /-- The number of dead phis that it deleted. -/
  phisPruned : Nat
  /-- The number of uses that no definition reaches. -/
  undefinedUses : Nat
  /-- The rounds of optimization. -/
  rounds : List RoundReport
  /-- SSA destruction, if it ran. -/
  destruction : Option Destruction
deriving DecidableEq

namespace FunctionReport

/-- What constant propagation did, round by round. -/
def constants (r : FunctionReport) : List ConstantsReport := r.rounds.filterMap (·.constants)

/-- What code motion did, round by round. -/
def motion (r : FunctionReport) : List HoistReport := r.rounds.filterMap (·.motion)

/-- The line on SSA construction and the rounds. -/
def summary (r : FunctionReport) : String :=
  let name := r.name
  let placed := renderInt r.phisPlaced
  let pruned := r.phisPruned.repr
  let undefinedUses := r.undefinedUses.repr
  let rounds := r.rounds.length.repr
  s!"function {name}: {placed} phis placed"
    ++ (if r.phisPruned = 0 then "" else s!" ({pruned} pruned)")
    ++ (if r.undefinedUses = 0 then "" else s!", {undefinedUses} undefined uses")
    ++ s!", {rounds} optimization rounds"

/-- The line on SSA destruction. -/
def destructionLine (name : String) (d : Destruction) : String :=
  let phis := d.phisRemoved.repr
  let copies := d.copies.repr
  let temporaries := d.temporaries.repr
  let splits := d.splitEdges.repr
  s!"ssa-destruct {name}: {phis} phis removed, {copies} copies, {temporaries} temporaries, {splits} edges split"

/-- The text of the report. -/
def render (r : FunctionReport) : String :=
  String.intercalate "\n"
    (r.summary :: r.constants.map (·.render) ++ r.motion.map (·.render)
      ++ r.destruction.toList.map (destructionLine r.name))

end FunctionReport

/-- The text of several reports. -/
def renderReports (reports : List FunctionReport) : String :=
    String.intercalate "\n" (reports.map (·.render))

/-! ## Stages -/

/-- A fault as it is reported by the check after a stage. -/
def Fault.afterStage (stage : Stage) : Fault → Fault
  | violation cause => violation (.after stage cause)
  | e => e

namespace Edit

/-- Checks a function after a stage, if checks are on. -/
def checkAfter (opts : Options) (stage : Stage) : Edit Unit :=
  if opts.verify then check.mapFault (.afterStage stage) else pure ()

/-- Brings a function into SSA form, if it is not there. -/
def constructStage (opts : Options) : Edit Construction := do
  if (← get).ssa then return ⟨0, 0, []⟩
  let built ← enterSsa opts.policy opts.prune
  checkAfter opts .construction
  return built

/-- Propagates constants, if that is asked for. -/
def constantsStage (opts : Options) : Edit (Option ConstantsReport) := do
  if !opts.constants then return none
  let (_, report) ← propagateConstants
  checkAfter opts .constants
  return some report

/-- Moves invariant code, if that is asked for. -/
def motionStage (opts : Options) : Edit (Option HoistReport) := do
  if !opts.motion then return none
  let report ← hoist
  checkAfter opts .motion
  return some report

/-- Optimizes in up to `n` rounds. -/
def optimizeRounds (opts : Options) : (n : Nat) → Edit (List RoundReport)
  | 0 => return []
  | n + 1 => do
    let constants ← constantsStage opts
    let motion ← motionStage opts
    let report : RoundReport := ⟨constants, motion⟩
    if report.changed then return report :: (← optimizeRounds opts n)
    else return [report]

/-- Takes a function out of SSA form, if that is asked for. -/
def leaveStage (opts : Options) : Edit (Option Destruction) := do
  if !opts.leaveSsa then return none
  let result ← leaveSsa
  checkAfter opts .destruction
  return some result

/-- Takes a function through the pipeline. -/
def optimize (opts : Options) : Edit FunctionReport := do
  let name := (← get).name
  checkAfter opts .parsing
  let built ← constructStage opts
  let rounds ← if opts.constants || opts.motion then optimizeRounds opts opts.rounds else pure []
  let destruction ← leaveStage opts
  emit (.functionDone name rounds.length)
  return ⟨name, built.phis, built.pruned, built.undefinedUses.length, rounds, destruction⟩

end Edit

/-! ## Programs -/

/-- What the pipeline leaves of a program. -/
structure Optimized where
  /-- The program and the reports on its functions, or the first fault. -/
  result : Except Fault (Program × List FunctionReport)
  /-- What was reported, in order. -/
  log : List Event

/-- Takes functions through the pipeline, one after the other. -/
def optimizeAll (opts : Options) : List Func →
    Except Fault (List (Func × FunctionReport)) × List Event
  | [] => (.ok [], [])
  | f :: rest =>
    let first := Edit.optimize opts f
    match first.result with
    | .error e => (.error e, first.log)
    | .ok report =>
      let (others, log) := optimizeAll opts rest
      (others.map fun done => (first.func, report) :: done, first.log ++ log)

/-- Takes a program through the pipeline. -/
def Program.optimize (p : Program) (opts : Options) : Optimized :=
  let (result, log) := optimizeAll opts p.functions.values
  let finish (done : List (Func × FunctionReport)) : Program × List FunctionReport :=
    (done.foldl (fun p d => p.setFunction d.1) p, done.map Prod.snd)
  ⟨result.map finish, log⟩

end ThreeAddress
