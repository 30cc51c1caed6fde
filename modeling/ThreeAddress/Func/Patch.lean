import ThreeAddress.Func

/-!
# Patches

Changes to single parts of a block: a node, the place of an instruction, an operand of a phi. A part
is named by an index, which counts from the start, or from the end if it is below zero. A patch
keeps no bookkeeping in step; it is for those who build or break a function by hand.
-/

namespace ThreeAddress

/-- The node defining `d` in the place of what it defines. -/
def Node.setDest (d : Var) (n : Node) : Except Fault Node :=
  match n.dest?, n with
  | some _, .instr i => .ok (.instr (i.setDest d))
  | _, _ => .error (.violation (.definesNothing n.kind))

namespace Phi

/-- The operand for predecessor `p`, which has to be there. -/
def getValue (φ : Phi) (p : Label) : Except Fault Operand :=
  match φ.valueFrom? p with
  | some x => .ok x
  | none => .error (.violation (.missingOperand φ.dest p))

/-- Sets the operand for predecessor `p`, which has to be there. -/
def setValue (φ : Phi) (p : Label) (x : Operand) : Except Fault Phi :=
  match φ.setValue? p x with
  | some φ' => .ok φ'
  | none => .error (.violation (.missingOperand φ.dest p))

end Phi

/-! ## Places -/

/-- The place that an index means among `n` places, counted from the end if it is below zero. -/
def placeOf? (n : Nat) (i : Int) : Option Nat :=
  let k := if i < 0 then i + n else i
  if 0 ≤ k ∧ k < n then some k.toNat else none

/-- The place among `n` before which an index lets something be put: below zero it counts from the
end, and from far below it is the start. -/
def insertionPlace (n : Nat) (i : Int) : Nat := (if i < 0 then i + n else i).toNat

/-- What a list holds at the place that an index means, with that place. -/
def itemAt {α : Type} (l : List α) (i : Int) : Except Fault (Nat × α) :=
  match placeOf? l.length i with
  | none => .error (.noSuchPlace i)
  | some n =>
    match l[n]? with
    | none => .error (.noSuchPlace i)
    | some a => .ok (n, a)

namespace Block

/-- Puts an instruction before the place that an index means, or at the end. -/
def insertInstr (b : Block) (i : Int) (new : Instr) : Block :=
  let n := insertionPlace b.instrs.length i
  { b with instrs := b.instrs.take n ++ new :: b.instrs.drop n }

/-- Takes away the instruction at the place that an index means. -/
def removeInstr (b : Block) (i : Int) : Except Fault Block := do
  let (n, _) ← itemAt b.instrs i
  return { b with instrs := b.instrs.eraseIdx n }

/-- Puts a node in the place of the one at place `n`; a terminator always goes to the end. -/
def setNode (b : Block) (n : Nat) : Node → Block
  | .instr i => { b with instrs := b.instrs.set n i }
  | .term t => { b with term := some t }

/-- Changes the node at the place that an index means. -/
def patchNode (b : Block) (i : Int) (g : Node → Except Fault Node) : Except Fault Block := do
  let (n, node) ← itemAt b.nodes i
  return b.setNode n (← g node)

/-- The leading phi at the place that an index means. -/
def phiAt (b : Block) (i : Int) : Except Fault Phi := (itemAt b.phis i).map Prod.snd

/-- Changes the leading phi at the place that an index means. -/
def patchPhi (b : Block) (i : Int) (g : Phi → Except Fault Phi) : Except Fault Block := do
  let (n, φ) ← itemAt b.phis i
  return b.setNode n (.instr (.phi (← g φ)))

end Block

/-- Changes the block registered under `l`, which has to be there. -/
def Func.patchBlock (f : Func) (l : Label) (g : Block → Except Fault Block) :
    Except Fault Func := do
  let b ← g (← f.getBlock l)
  return f.modifyBlock l fun _ => b

end ThreeAddress
