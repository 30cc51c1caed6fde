import ThreeAddress.Edit

/-!
# Checks

`checkCfg` accepts a function whose blocks bear the names they are registered under, end in a
terminator and target each other, whose predecessor lists follow the terminators, and whose phis
lead their blocks with one operand per predecessor in order.

`checkSsa` also asks for SSA form: each value has one definition, no name lacks a version, each use
is dominated by its definition, and each phi operand is available at the end of its predecessor.
-/

namespace ThreeAddress

/-- Checks one after the other, up to the first that fails. -/
def checkAll {α ε : Type} (check : α → Except ε Unit) : List α → Except ε Unit
  | [] => .ok ()
  | a :: rest =>
    match check a with
    | .ok () => checkAll check rest
    | .error e => .error e

/-- Nothing is said unless `p` fails. -/
def require {ε : Type} (p : Prop) [Decidable p] (e : ε) : Except ε Unit :=
    if p then .ok () else .error e

namespace Func

/-! ## The graph -/

/-- Checks name, terminator and targets of a block. -/
def checkEnds (f : Func) (l : Label) (b : Block) : Except Fault Unit := do
  require (b.name = l) (.violation (.misnamed f.name l b.name))
  require (b.term ≠ none) (.malformed (.openBlock f.name l))
  checkAll (fun s => require (s ∈ f.blocks) (.malformed (.danglingTarget f.name l s))) b.successors

/-- The blocks whose terminators name `l`. -/
def sourcesOf (f : Func) (l : Label) : List Label := f.graph.predsWithin f.blocks.keys l

/-- Checks the predecessor list of a block. -/
def checkPreds (f : Func) (l : Label) (b : Block) : Except Fault Unit :=
  let sources := f.sourcesOf l
  require (b.preds.isPerm sources)
    (.violation (.wrongPreds f.name l b.preds (sortBy (fun a b => decide (a ≤ b)) sources)))

/-- Checks that phis lead their block and list its predecessors in order. -/
def checkPhis (f : Func) (l : Label) (preds : List Label) : (phisOver : Bool) → List Instr →
    Except Fault Unit
  | _, [] => .ok ()
  | true, .phi φ :: _ => .error (.violation (.latePhi f.name l φ.dest))
  | false, .phi φ :: rest => do
    require (φ.labels = preds) (.violation (.wrongOperands f.name l φ.dest φ.labels preds))
    checkPhis f l preds false rest
  | _, _ :: rest => checkPhis f l preds true rest

/-- Checks the graph of a function. -/
def checkCfg (f : Func) : Except Fault Unit := do
  require (f.entry ∈ f.blocks) (.malformed (.noEntry f.name f.entry))
  checkAll (fun e => f.checkEnds e.1 e.2) f.blocks.entries
  checkAll (fun (e : Label × Block) => do
    f.checkPreds e.1 e.2
    f.checkPhis e.1 e.2.preds false e.2.instrs) f.blocks.entries

/-! ## SSA form -/

/-- Where a value is defined: a block and a place in it. Parameters have place 0 of the entry, the
instruction at index `i` has place `i + 1`. -/
abbrev Sites := Table Var (Label × Nat)

/-- Adds a definition. -/
def addSite (f : Func) (sites : Sites) (v : Var) (l : Label) (place : Nat) : Except Fault Sites :=
  match v.version, sites.get? v with
  | none, _ => .error (.violation (.unversionedDef f.name l v.name))
  | some _, some (first, _) => .error (.violation (.definedTwice f.name v first l))
  | some _, none => .ok (sites.insert v (l, place))

/-- Adds the definitions of the parameters. -/
def paramSites (f : Func) (sites : Sites) : List String → Except Fault Sites
  | [] => .ok sites
  | p :: params => do
    let sites ← f.addSite sites ⟨p, some 0⟩ f.entry 0
    paramSites f sites params

/-- Adds the definitions of the instructions of a block, from place `place` on. -/
def instrSites (f : Func) (l : Label) (sites : Sites) (place : Nat) : List Instr →
    Except Fault Sites
  | [] => .ok sites
  | i :: rest => do
    let sites ← match i.dest? with
      | none => .ok sites
      | some d => f.addSite sites d l place
    instrSites f l sites (place + 1) rest

/-- Adds the definitions of blocks. -/
def blockSites (f : Func) (sites : Sites) : List Label → Except Fault Sites
  | [] => .ok sites
  | l :: rest => do
    let b ← f.recallBlock l
    let sites ← f.instrSites l sites 1 b.instrs
    blockSites f sites rest

/-- Checks a use at a place of a block. -/
def checkUse (f : Func) (d : Dominators) (sites : Sites) (l : Label) (place : Nat) : Operand →
    Except Fault Unit
  | .var v =>
    match v.version, sites.get? v with
    | none, _ => .error (.violation (.unversionedUse f.name l v.name))
    | some _, none => .error (.violation (.undefinedValue f.name l v))
    | some _, some (home, at') =>
      if home = l then require (at' < place) (.violation (.useBeforeDef f.name l v))
      else require (d.dominates home l = true) (.violation (.notDominated f.name l v home))
  | _ => .ok ()

/-- Checks a phi operand: it has to be available at the end of its predecessor, if that can be
reached. -/
def checkPhiArg (f : Func) (d : Dominators) (sites : Sites) (preds : List Label) (a : PhiArg) :
    Except Fault Unit :=
  if a.block ∈ preds ∧ d.isReachable a.block then do
    let b ← f.recallBlock a.block
    f.checkUse d sites a.block (b.instrs.length + 2) a.value
  else .ok ()

/-- Checks the uses of instructions, from place `place` on. -/
def checkInstrs (f : Func) (d : Dominators) (sites : Sites) (l : Label) (preds : List Label)
    (place : Nat) :
    List Instr → Except Fault Unit
  | [] => .ok ()
  | i :: rest => do
    match i with
      | .phi φ => checkAll (f.checkPhiArg d sites preds) φ.incoming
      | _ => checkAll (f.checkUse d sites l place) i.uses
    checkInstrs f d sites l preds (place + 1) rest

/-- Checks the uses of a block. -/
def checkBlock (f : Func) (d : Dominators) (sites : Sites) (l : Label) : Except Fault Unit := do
  let b ← f.recallBlock l
  f.checkInstrs d sites l b.preds 1 b.instrs
  match b.term with
  | none => .ok ()
  | some t => checkAll (f.checkUse d sites l (b.instrs.length + 1)) t.uses

/-- Checks definitions and uses against the given dominators. -/
def checkValues (f : Func) (d : Dominators) : Except Fault Unit := do
  let sites ← f.paramSites .empty f.params
  let sites ← f.blockSites sites d.order
  checkAll (f.checkBlock d sites) d.order

/-- What is checked before dominators are needed. -/
def checkSsaGraph (f : Func) : Except Fault Unit := do
  require (f.ssa = true) (.violation (.notSsa f.name))
  f.checkCfg

/-- Checks SSA form. -/
def checkSsa (f : Func) : Except Fault Unit := do
  f.checkSsaGraph
  f.checkValues (← f.dominators)

/-- Checks SSA form against dominators that were computed before. -/
def checkSsaWith (f : Func) (d : Dominators) : Except Fault Unit := do
  f.checkSsaGraph
  f.checkValues d

/-- Checks a function according to its form. -/
def check (f : Func) : Except Fault Unit := if f.ssa then f.checkSsa else f.checkCfg

end Func

/-- Checks every function of a program. -/
def Program.check (p : Program) : Except Fault Unit := checkAll Func.check p.functions.values

namespace Edit

/-- Checks a function according to its form; computing dominators is reported. -/
def check : Edit Unit := do
  let f ← get
  if f.ssa then
    ask Func.checkSsaGraph
    let d ← dominators
    ask (·.checkValues d)
  else ask Func.checkCfg

end Edit

end ThreeAddress
