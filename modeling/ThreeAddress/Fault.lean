import ThreeAddress.Operand
import ThreeAddress.Text.Quoted

/-!
# Faults

Why an operation on a function fails. `Malformed` is a graph that is none (a missing entry, an edge
to nowhere), `Violation` is bookkeeping that does not fit the graph or the form, and `Fault` holds
these two and the causes that are neither. The wording of each cause stands in its `message`, and
`function?` and `block?` say what it is about.
-/

namespace ThreeAddress

open Text (quotedList)

/-- The control-flow graph is not well formed. -/
inductive Malformed where
  /-- The entry is no block of the function. -/
  | noEntry (function : String) (entry : Label)
  /-- A block is looked up that is not there. -/
  | unknownBlock (function : String) (block : Label)
  /-- A terminator names a block that is not there. -/
  | danglingTarget (function : String) (block target : Label)
  /-- A block has no terminator. -/
  | openBlock (function : String) (block : Label)
  /-- Every edge into the loop header comes from inside the loop. -/
  | noEnteringEdge (function : String) (header : Label)
  /-- The dominator sets still changed in the last pass allowed. -/
  | notConverged (function : String) (limit : Nat)
  /-- A function is looked up that is not in the program. -/
  | unknownFunction (name : String)
deriving DecidableEq

namespace Malformed

/-- The text that reports the cause. -/
def message : Malformed → String
  | noEntry f e => s!"function {f}: entry block '{e}' does not exist"
  | unknownBlock f b => s!"function {f}: unknown block '{b}'"
  | danglingTarget f b t => s!"function {f}: block '{b}' targets unknown block '{t}'"
  | openBlock f b => s!"function {f}: block '{b}' has no terminator"
  | noEnteringEdge f h => s!"function {f}: loop header '{h}' has no entering edge"
  | notConverged f n =>
    let limit := n.repr
    s!"function {f}: dominator computation did not converge after {limit} passes"
  | unknownFunction f => s!"unknown function '{f}'"

/-- The function that the cause is about. -/
def function? : Malformed → Option String
  | noEntry f _ | unknownBlock f _ | danglingTarget f _ _ | openBlock f _ | noEnteringEdge f _
  | notConverged f _ => some f
  | unknownFunction _ => none

/-- The block that the cause is about. -/
def block? : Malformed → Option Label
  | unknownBlock _ b | danglingTarget _ b _ | openBlock _ b | noEnteringEdge _ b => some b
  | noEntry .. | notConverged .. | unknownFunction _ => none

end Malformed

/-- The steps of the pipeline after which a function is checked. -/
inductive Stage where
  | parsing | construction | constants | motion | destruction
deriving DecidableEq

/-- What a stage is called in a diagnostic. -/
def Stage.title : Stage → String
  | parsing => "parsing"
  | construction => "SSA construction"
  | constants => "constant propagation"
  | motion => "loop-invariant code motion"
  | destruction => "SSA destruction"

/-- A consistency rule is broken. -/
inductive Violation where
  /-- A function to be converted into SSA form is in it. -/
  | alreadySsa (function : String)
  /-- A function that should be in SSA form is not. -/
  | notSsa (function : String)
  /-- Constant propagation of a function outside SSA form. -/
  | constantsNeedSsa (function : String)
  /-- Code motion in a function outside SSA form. -/
  | motionNeedsSsa (function : String)
  /-- A destination is set on a node that has none. -/
  | definesNothing (kind : String)
  /-- A phi has no operand for a predecessor. -/
  | missingOperand (dest : Var) (pred : Label)
  /-- A block is added under a name that is in use. -/
  | blockExists (function : String) (block : Label)
  /-- An edge to be split is not there. -/
  | noEdge (function : String) (src dst : Label)
  /-- A block to be folded does not branch. -/
  | notBranch (function : String) (block : Label)
  /-- A block does not bear the name it is registered under. -/
  | misnamed (function : String) (key name : Label)
  /-- A predecessor list does not follow the terminators. -/
  | wrongPreds (function : String) (block : Label) (preds edges : List Label)
  /-- A phi follows another instruction. -/
  | latePhi (function : String) (block : Label) (dest : Var)
  /-- The operands of a phi do not follow the predecessor list. -/
  | wrongOperands (function : String) (block : Label) (dest : Var) (operands preds : List Label)
  /-- A name without version is defined. -/
  | unversionedDef (function : String) (block : Label) (name : String)
  /-- A value has two definitions. -/
  | definedTwice (function : String) (value : Var) (first second : Label)
  /-- A name without version is used. -/
  | unversionedUse (function : String) (block : Label) (name : String)
  /-- A value without definition is used. -/
  | undefinedValue (function : String) (block : Label) (value : Var)
  /-- A value is used above its definition in the same block. -/
  | useBeforeDef (function : String) (block : Label) (value : Var)
  /-- A value is used where its definition need not have run. -/
  | notDominated (function : String) (block : Label) (value : Var) (home : Label)
  /-- A check between two steps of the pipeline failed. -/
  | after (stage : Stage) (cause : Violation)
deriving DecidableEq

namespace Violation

/-- The text that reports the cause. -/
def message : Violation → String
  | alreadySsa f => s!"function {f} is already in SSA form"
  | notSsa f => s!"function {f} is not in SSA form"
  | constantsNeedSsa f => s!"constant propagation needs SSA form ({f})"
  | motionNeedsSsa f => s!"LICM needs SSA form ({f})"
  | definesNothing k => s!"{k} defines no value"
  | missingOperand d p =>
    let dest := d.render
    s!"phi for {dest} has no operand for predecessor {p}"
  | blockExists f b => s!"function {f}: block '{b}' already exists"
  | noEdge f s d => s!"function {f}: no edge {s} -> {d}"
  | notBranch f b => s!"function {f}: block '{b}' does not end in a branch"
  | misnamed f k n => s!"function {f}: block registered as '{k}' is named '{n}'"
  | wrongPreds f b ps es =>
    let preds := quotedList ps
    let edges := quotedList es
    s!"function {f}: predecessors of '{b}' are {preds}, edges say {edges}"
  | latePhi f b d =>
    let dest := d.render
    s!"function {f}: phi for {dest} follows a non-phi in '{b}'"
  | wrongOperands f b d os ps =>
    let dest := d.render
    let operands := quotedList os
    let preds := quotedList ps
    s!"function {f}: phi for {dest} in '{b}' has operands for {operands}, predecessors are {preds}"
  | unversionedDef f _ n => s!"function {f}: definition of unversioned name '{n}'"
  | definedTwice f v b₁ b₂ =>
    let value := v.render
    s!"function {f}: SSA value {value} defined twice (in {b₁} and {b₂})"
  | unversionedUse f b n => s!"function {f}: use of unversioned name '{n}' in '{b}'"
  | undefinedValue f b v =>
    let value := v.render
    s!"function {f}: use of undefined SSA value {value} in '{b}'"
  | useBeforeDef f b v =>
    let value := v.render
    s!"function {f}: use of {value} before its definition in '{b}'"
  | notDominated f b v home =>
    let value := v.render
    s!"function {f}: use of {value} in '{b}' is not dominated by its definition in '{home}'"
  | after stage cause => "after " ++ stage.title ++ ": " ++ cause.message

/-- The function that the cause is about. -/
def function? : Violation → Option String
  | alreadySsa f | notSsa f | constantsNeedSsa f | motionNeedsSsa f | blockExists f _ | noEdge f _ _
  | notBranch f _ | misnamed f _ _ | wrongPreds f _ _ _ | latePhi f _ _ | wrongOperands f _ _ _ _
  | unversionedDef f _ _ | definedTwice f _ _ _ | unversionedUse f _ _ | undefinedValue f _ _
  | useBeforeDef f _ _ | notDominated f _ _ _ => some f
  | definesNothing _ | missingOperand .. => none
  | after _ cause => cause.function?

/-- The block that the cause is about. -/
def block? : Violation → Option Label
  | noEdge _ b _ | notBranch _ b | misnamed _ b _ | wrongPreds _ b _ _ | latePhi _ b _
  | wrongOperands _ b _ _ _ | unversionedDef _ b _ | definedTwice _ _ _ b | unversionedUse _ b _
  | undefinedValue _ b _ | useBeforeDef _ b _ | notDominated _ b _ _ => some b
  | alreadySsa _ | notSsa _ | constantsNeedSsa _ | motionNeedsSsa _ | definesNothing _
  | missingOperand .. | blockExists .. => none
  | after _ cause => cause.block?

end Violation

/-- Why an operation on a function fails. -/
inductive Fault where
  | malformed (cause : Malformed)
  | violation (cause : Violation)
  /-- A use that no definition reaches, where such uses are refused. -/
  | undefinedUse (function : String) (block : Label) (name : String)
  /-- A phi of a loop header has no operand from outside the loop. -/
  | noOutsideOperand
  /-- A part of a block is asked for at a place that the block does not have. -/
  | noSuchPlace (index : Int)
  /-- A label that was taken to name a block names none: the entry, or a block of dominators
  computed before. -/
  | staleLabel (block : Label)
deriving DecidableEq

/-- The text that reports the fault. -/
def Fault.message : Fault → String
  | malformed cause => cause.message
  | violation cause => cause.message
  | undefinedUse f b x => s!"function {f}: '{x}' is used in block {b} before any definition"
  | noOutsideOperand => "phi of a loop header has no operand from outside the loop"
  | noSuchPlace i => "no place " ++ renderInt i ++ " in the block"
  | staleLabel b => s!"no block '{b}'"

/-- Whether the fault is one of the program, which a diagnostic reports. The others are misuses. -/
def Fault.isDiagnostic : Fault → Bool
  | malformed _ | violation _ | undefinedUse .. => true
  | noOutsideOperand | noSuchPlace _ | staleLabel _ => false

end ThreeAddress
