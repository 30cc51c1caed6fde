import ThreeAddress.Fault
import ThreeAddress.Word

/-!
# Events

What the passes report as they go: an event is a fact about one function, with a level, the part of
the compiler that reports it and a text. `Event.render` is the line that a log shows.
-/

namespace ThreeAddress

/-- How detailed an event is. -/
inductive Level where
  | debug | info
deriving DecidableEq

/-- What happened. -/
inductive Event where
  /-- Blocks that cannot be reached were deleted. -/
  | unreachableRemoved (function : String) (blocks : List Label)
  /-- A new entry without predecessors was made. -/
  | entryMade (function : String) (label : Label)
  /-- A preheader was made for a loop. -/
  | preheaderMade (function : String) (label header : Label)
  /-- Dominators were computed. -/
  | dominatorsFound (function : String) (passes blocks : Nat)
  /-- Edges go back without making a loop. -/
  | irreducible (function : String) (edges : List (Label × Label))
  /-- SSA construction placed phis. -/
  | phisPlaced (function : String) (placed pruned : Nat)
  /-- Dead phis were deleted. -/
  | phisPruned (function : String) (count : Nat)
  /-- A division by zero was left in the code. -/
  | divisionKept (mnemonic : String)
  /-- An operation without meaning was left in the code. -/
  | opcodeKept (cause : EvalError)
  /-- A branch on a constant became a jump. -/
  | branchFolded (function : String) (block kept : Label)
  /-- Constant propagation ended. -/
  | constantsFound (function : String) (constants replaced removed : Nat)
  /-- An instruction was moved out of a loop. -/
  | hoisted (function text : String) (source preheader : Label)
  /-- SSA destruction ended. -/
  | destructed (function : String) (phis copies temporaries splits : Nat)
  /-- The pipeline is done with a function. -/
  | functionDone (function : String) (rounds : Nat)
  /-- A run returned a value. -/
  | returned (value : Int)
deriving DecidableEq

namespace Event

/-- The level of the event. -/
def level : Event → Level
  | functionDone .. | returned _ => .info
  | _ => .debug

/-- The part of the compiler that reports the event. -/
def logger : Event → String
  | unreachableRemoved .. | entryMade .. | preheaderMade .. => "ssamid.cfg"
  | dominatorsFound .. => "ssamid.analysis.dom"
  | irreducible .. => "ssamid.analysis.loops"
  | phisPlaced .. => "ssamid.ssa.builder"
  | phisPruned .. => "ssamid.ssa.cleanup"
  | divisionKept _ | opcodeKept _ | branchFolded .. | constantsFound .. => "ssamid.opt.const_prop"
  | hoisted .. => "ssamid.opt.licm"
  | destructed .. => "ssamid.ssa.destruct"
  | functionDone .. => "ssamid.pipeline"
  | returned _ => "ssamid.driver"

/-- The text of the event. -/
def message : Event → String
  | unreachableRemoved f bs => s!"{f}: removed unreachable blocks " ++ String.intercalate ", " bs
  | entryMade f l => s!"{f}: synthesized entry block {l}"
  | preheaderMade f l h => s!"{f}: synthesized preheader {l} for loop at {h}"
  | dominatorsFound f p n =>
    let passes := p.repr
    let blocks := n.repr
    s!"{f}: dominators converged in {passes} passes over {blocks} blocks"
  | irreducible f es => s!"{f}: irreducible edges ignored: " ++ Text.quotedPairs es
  | phisPlaced f n k =>
    let placed := n.repr
    let pruned := k.repr
    s!"{f}: placed {placed} phis ({pruned} pruned)"
  | phisPruned f n =>
    let count := n.repr
    s!"{f}: pruned {count} dead phis"
  | divisionKept op => s!"{op} by zero left unfolded"
  | opcodeKept cause => cause.message ++ "; treated as overdefined"
  | branchFolded f b kept => s!"{f}: folded branch in {b} to {kept}"
  | constantsFound f c u r =>
    let constants := c.repr
    let replaced := u.repr
    let removed := r.repr
    s!"{f}: {constants} constants, {replaced} uses rewritten, {removed} removed"
  | hoisted f text b pre => s!"{f}: hoisted '{text}' from {b} to {pre}"
  | destructed f p c t s =>
    let phis := p.repr
    let copies := c.repr
    let temporaries := t.repr
    let splits := s.repr
    s!"{f}: destructed {phis} phis with {copies} copies ({temporaries} temporaries, {splits} split edges)"
  | functionDone f n =>
    let rounds := n.repr
    s!"{f}: done ({rounds} rounds)"
  | returned v => "returned " ++ renderInt v

/-- The line that a log shows. -/
def render (e : Event) : String :=
  let level := match e.level with
    | .debug => "DEBUG"
    | .info => "INFO"
  level ++ ": " ++ e.logger ++ ": " ++ e.message

end Event

end ThreeAddress
