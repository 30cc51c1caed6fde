import Std.Data.TreeMap
import ThreeAddress.Func
import ThreeAddress.Word

/-!
# Running programs

A machine that runs programs in or out of SSA form. Variables and memory cells read as 0 until they
are written; `read` takes the next input (0 once there is none), `write` appends to the output. The
phis of a block are evaluated together when control enters it, by the edge on which it came. Memory
is shared by all calls.

A step runs one instruction other than a phi, or one terminator together with the entry into the
block that follows. Every step costs one unit of the budget, so the budget bounds the run.
-/

namespace ThreeAddress

/-- Why a run ends without a value. -/
inductive RunError where
  /-- The budget of steps is used up. -/
  | stepLimit (limit : Int) (function : String)
  /-- Too many activations at a time. -/
  | depthLimit (limit : Int) (function : String)
  /-- A function is called that is not in the program. -/
  | unknownCallee (name : String)
  /-- An operation has no result. -/
  | arithmetic (function : String) (block : Label) (cause : EvalError)
  /-- Control reached the end of a block without a terminator. -/
  | openBlock (function : String) (block : Label)
  /-- The function is not well formed. -/
  | fault (cause : Fault)
deriving DecidableEq

/-- The text that reports the error. -/
def RunError.message : RunError → String
  | stepLimit n f =>
    let limit := renderInt n
    s!"step limit {limit} exceeded in '{f}'"
  | depthLimit n f =>
    let limit := renderInt n
    s!"call depth limit {limit} exceeded in '{f}'"
  | unknownCallee f => s!"call to unknown function '{f}'"
  | arithmetic f b cause => f ++ "/" ++ b ++ ": " ++ cause.message
  | openBlock f b => f ++ "/" ++ b ++ ": block has no terminator"
  | fault cause => cause.message

/-- The values of the variables that were assigned in an activation. -/
abbrev Env := Table Var Int

/-- The value of an operand. -/
def Env.value (env : Env) : Operand → Int
  | .const n => n
  | .var v => env.getD v 0
  | .undefined => 0

/-- Memory cells by address. -/
abbrev Memory := Std.TreeMap Int Int

/-- An activation of a function. -/
structure Frame where
  /-- The function. -/
  func : Func
  /-- The block that control is in. -/
  block : Label
  /-- The instructions of the block still to run. -/
  code : List Instr
  /-- The terminator of the block. -/
  term : Option Terminator
  /-- The variables. -/
  env : Env

/-- An activation that waits for a call to return. -/
structure Caller where
  /-- The activation, as it goes on after the call. -/
  frame : Frame
  /-- The variable that takes the result. -/
  dest : Option Var

/-- A machine at work. -/
structure State where
  /-- The activation that runs. -/
  frame : Frame
  /-- The activations that wait, the latest first. -/
  callers : List Caller
  /-- The memory. -/
  memory : Memory
  /-- The inputs not read so far. -/
  inputs : List Int
  /-- What was written so far. -/
  output : Array Int

/-- What a step leads to. -/
inductive Progress where
  /-- The run goes on. -/
  | running (s : State)
  /-- The first activation returned. -/
  | returned (value : Option Int) (s : State)
  /-- The run failed. -/
  | failed (e : RunError) (s : State)

/-! ## Entering blocks and functions -/

/-- The values of the phis of a block that is entered from `prev`. -/
def phiValues (env : Env) (prev : Label) : List Phi → Except RunError (List (Var × Int))
  | [] => .ok []
  | φ :: φs =>
    match φ.valueFrom? prev with
    | none => .error (.fault (.violation (.missingOperand φ.dest prev)))
    | some x => do
      let rest ← phiValues env prev φs
      return (φ.dest, env.value x) :: rest

/-- Assigns values to variables, one after the other. -/
def Env.assign (env : Env) (values : List (Var × Int)) : Env :=
    values.foldl (fun env a => env.insert a.1 a.2) env

/-- Enters a block, from `prev` or at the start of an activation. -/
def Frame.enter (f : Func) (env : Env) (prev : Option Label) (l : Label) : Except RunError Frame :=
  match f.block? l with
  | none => .error (.fault (.malformed (.unknownBlock f.name l)))
  | some b => do
    let values ← match prev with
      | none => .ok []
      | some p => phiValues env p b.phis
    return ⟨f, l, b.body, b.term, env.assign values⟩

/-- The variables of an activation at its start: missing arguments are 0, surplus ones are
dropped. -/
def bindParams (f : Func) (args : List Int) : Env :=
  let version := if f.ssa then some 0 else none
  Env.assign .empty (f.params.zipIdx.map fun p => (⟨p.1, version⟩, (args[p.2]?.map wrap).getD 0))

/-- Starts an activation with `depth` others waiting for it. -/
def Program.activate (p : Program) (maxDepth : Int) (name : String) (args : List Int)
    (depth : Nat) :
    Except RunError Frame :=
  match p.function? name with
  | none => .error (.unknownCallee name)
  | some f =>
    if (depth : Int) > maxDepth then .error (.depthLimit maxDepth name)
    else Frame.enter f (bindParams f args) none f.entry

/-! ## Steps -/

/-- The state after the running activation assigned a variable and goes on with `code`. -/
def State.assign (s : State) (code : List Instr) (d : Var) (n : Int) : State :=
  { s with frame := { s.frame with code, env := s.frame.env.insert d n } }

/-- Runs an instruction, with `code` left after it. -/
def State.runInstr (p : Program) (maxDepth : Int) (s : State) (i : Instr) (code : List Instr) :
    Progress :=
  let fr := s.frame
  let value := fr.env.value
  match i with
  | .binary d op l r =>
    match evalBinary op (value l) (value r) with
    | .ok n => .running (s.assign code d n)
    | .error e => .failed (.arithmetic fr.func.name fr.block e) s
  | .unary d op x =>
    match evalUnary op (value x) with
    | .ok n => .running (s.assign code d n)
    | .error e => .failed (.arithmetic fr.func.name fr.block e) s
  | .copy d x => .running (s.assign code d (value x))
  | .load d a => .running (s.assign code d (s.memory.getD (value a) 0))
  | .store a v => .running
    { s with frame := { fr with code }, memory := s.memory.insert (value a) (value v) }
  | .call d callee args =>
    match p.activate maxDepth callee (args.map value) (s.callers.length + 1) with
    | .ok frame => .running { s with frame, callers := ⟨{ fr with code }, d⟩ :: s.callers }
    | .error e => .failed e s
  | .read d =>
    match s.inputs with
    | [] => .running (s.assign code d 0)
    | n :: inputs => .running { s.assign code d (wrap n) with inputs }
  | .write v => .running { s with frame := { fr with code }, output := s.output.push (value v) }
  -- Phis were evaluated on entry.
  | .phi _ => .running { s with frame := { fr with code } }

/-- Goes on at another block. -/
def State.goto (s : State) (l : Label) : Progress :=
  let fr := s.frame
  match Frame.enter fr.func fr.env (some fr.block) l with
  | .ok frame => .running { s with frame }
  | .error e => .failed e s

/-- Ends the running activation. -/
def State.leave (s : State) (value : Option Int) : Progress :=
  match s.callers with
  | [] => .returned value s
  | ⟨fr, d⟩ :: callers =>
    let env := match d with
      | none => fr.env
      | some d => fr.env.insert d (value.getD 0)
    .running { s with frame := { fr with env }, callers }

/-- Runs the terminator of the block. -/
def State.runTerm (s : State) : Progress :=
  let fr := s.frame
  match fr.term with
  | none => .failed (.openBlock fr.func.name fr.block) s
  | some (.jump t) => s.goto t
  | some (.branch c t e) => s.goto (if fr.env.value c ≠ 0 then t else e)
  | some (.ret v) => s.leave (v.map fr.env.value)

/-- One step of the machine. -/
def State.step (p : Program) (maxDepth : Int) (s : State) : Progress :=
  match s.frame.code with
  | i :: code => s.runInstr p maxDepth i code
  | [] => s.runTerm

/-! ## Runs -/

/-- How a run ended, and what it left. -/
structure RunResult where
  /-- The value returned, or why there is none. -/
  result : Except RunError (Option Int)
  /-- What was written. -/
  output : Array Int
  /-- The memory at the end. -/
  memory : Memory
  /-- The number of steps begun. -/
  steps : Nat

/-- Runs on for at most `budget` steps, after `done` steps; `limit` is the budget that the run
started with. -/
def State.run (p : Program) (maxDepth limit : Int) : (budget done : Nat) → State → RunResult
  | 0, done, s => ⟨.error (.stepLimit limit s.frame.func.name), s.output, s.memory, done + 1⟩
  | budget + 1, done, s =>
    match s.step p maxDepth with
    | .running s' => run p maxDepth limit budget (done + 1) s'
    | .returned v s' => ⟨.ok v, s'.output, s'.memory, done + 1⟩
    | .failed e s' => ⟨.error e, s'.output, s'.memory, done + 1⟩

/-- What a run is given. -/
structure RunSpec where
  /-- The function to start with. -/
  entry : String := "main"
  /-- Its arguments. -/
  args : List Int := []
  /-- The values for `read`. -/
  inputs : List Int := []
  /-- The budget of steps; below zero it is as good as zero. -/
  maxSteps : Int := 1000000
  /-- How many activations may wait at a time; below zero not even the first can start. -/
  maxDepth : Int := 256

/-- Runs a program. -/
def Program.run (p : Program) (spec : RunSpec) : RunResult :=
  match p.activate spec.maxDepth spec.entry spec.args 0 with
  | .error e => ⟨.error e, #[], ∅, 0⟩
  | .ok frame => State.run p spec.maxDepth spec.maxSteps spec.maxSteps.toNat 0 ⟨frame, [], ∅,
    spec.inputs, #[]⟩

end ThreeAddress
