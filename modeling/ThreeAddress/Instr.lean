import ThreeAddress.Operand

/-!
# Instructions and terminators

An instruction computes or transfers one value; a terminator ends a block and names the blocks that
may follow. Instructions are values: an edit replaces them.
-/

namespace ThreeAddress

/-- What a phi takes when control comes from `block`. -/
structure PhiArg where
  /-- The predecessor. -/
  block : Label
  /-- The operand for it. -/
  value : Operand
deriving DecidableEq

/-- The definition of `dest` by the edge on which control enters the block. -/
structure Phi where
  /-- The variable defined. -/
  dest : Var
  /-- One operand for each predecessor, in the order of the block's predecessor list. -/
  incoming : List PhiArg
deriving DecidableEq

namespace Phi

/-- The operand for predecessor `b`; the first one, should there be several. -/
def valueFrom? (φ : Phi) (b : Label) : Option Operand :=
  (φ.incoming.find? (·.block = b)).map (·.value)

/-- Replaces the value of the first operand for `b`. -/
def setFirst (b : Label) (v : Operand) : List PhiArg → List PhiArg
  | [] => []
  | a :: rest => if a.block = b then { a with value := v } :: rest else a :: setFirst b v rest

/-- Sets the operand for predecessor `b`; `none` if there is none to set. -/
def setValue? (φ : Phi) (b : Label) (v : Operand) : Option Phi :=
  if φ.incoming.any (·.block = b) then some { φ with incoming := setFirst b v φ.incoming } else none

/-- Drops every operand for predecessor `b`. -/
def removeIncoming (φ : Phi) (b : Label) : Phi :=
  { φ with incoming := φ.incoming.filter (·.block ≠ b) }

/-- Lets the operands for `old` stand for `new`. -/
def renameIncoming (φ : Phi) (old new : Label) : Phi :=
  { φ with
    incoming := φ.incoming.map fun a => if a.block = old then { a with block := new } else a }

/-- The predecessors that the phi has operands for. -/
def labels (φ : Phi) : List Label := φ.incoming.map (·.block)

end Phi

/-- An instruction inside a block. -/
inductive Instr where
  /-- An operation on two operands, `dest = op left, right`. -/
  | binary (dest : Var) (op : String) (left right : Operand)
  /-- An operation on one operand, `dest = op operand`. -/
  | unary (dest : Var) (op : String) (operand : Operand)
  /-- A copy, `dest = src`. -/
  | copy (dest : Var) (src : Operand)
  /-- A memory cell is read, `dest = load address`. -/
  | load (dest : Var) (address : Operand)
  /-- A memory cell is written, `store address, value`. -/
  | store (address value : Operand)
  /-- A call, `dest = call callee(args)`, or one as a statement. -/
  | call (dest : Option Var) (callee : String) (args : List Operand)
  /-- The next input value is read, `dest = read`. -/
  | read (dest : Var)
  /-- A value is appended to the output, `write value`. -/
  | write (value : Operand)
  /-- A phi, `dest = phi [...]`. -/
  | phi (φ : Phi)
deriving DecidableEq

/-- The end of a block. -/
inductive Terminator where
  /-- Control goes on at `target`. -/
  | jump (target : Label)
  /-- Control goes to `thenTarget` if `cond` is not zero, to `elseTarget` otherwise. -/
  | branch (cond : Operand) (thenTarget elseTarget : Label)
  /-- The activation ends. -/
  | ret (value : Option Operand)
deriving DecidableEq

namespace Instr

/-- The variable that the instruction defines. -/
def dest? : Instr → Option Var
  | binary d .. | unary d .. | copy d _ | load d _ | read d => some d
  | call d .. => d
  | phi φ => some φ.dest
  | store .. | write _ => none

/-- The operands that the instruction reads, those of a phi included. -/
def uses : Instr → List Operand
  | binary _ _ l r => [l, r]
  | unary _ _ x | copy _ x | load _ x | write x => [x]
  | store a v => [a, v]
  | call _ _ args => args
  | read _ => []
  | phi φ => φ.incoming.map (·.value)

/-- Replaces every operand that the instruction reads. -/
def mapUses (f : Operand → Operand) : Instr → Instr
  | binary d op l r => binary d op (f l) (f r)
  | unary d op x => unary d op (f x)
  | copy d x => copy d (f x)
  | load d a => load d (f a)
  | store a v => store (f a) (f v)
  | call d g args => call d g (args.map f)
  | read d => read d
  | write v => write (f v)
  | phi φ => phi { φ with incoming := φ.incoming.map fun a => { a with value := f a.value } }

/-- Makes the instruction define `d`; one that defines nothing stays as it is. -/
def setDest (d : Var) : Instr → Instr
  | binary _ op l r => binary d op l r
  | unary _ op x => unary d op x
  | copy _ x => copy d x
  | load _ a => load d a
  | call (some _) g args => call (some d) g args
  | read _ => read d
  | phi φ => phi { φ with dest := d }
  | i => i

/-- Whether the instruction is a phi. -/
def isPhi : Instr → Bool
  | phi _ => true
  | _ => false

/-- Whether the instruction can be observed beyond what it defines. -/
def hasSideEffects : Instr → Bool
  | store .. | call .. | read _ | write _ => true
  | _ => false

/-- The kind of an instruction, as reports name it. -/
def kind : Instr → String
  | binary .. => "BinaryOp"
  | unary .. => "UnaryOp"
  | copy .. => "Copy"
  | load .. => "Load"
  | store .. => "Store"
  | call .. => "Call"
  | read _ => "Read"
  | write _ => "Write"
  | phi _ => "Phi"

end Instr

namespace Terminator

/-- The operands that the terminator reads. -/
def uses : Terminator → List Operand
  | jump _ | ret none => []
  | branch c _ _ => [c]
  | ret (some v) => [v]

/-- Replaces every operand that the terminator reads. -/
def mapUses (f : Operand → Operand) : Terminator → Terminator
  | jump t => jump t
  | branch c t e => branch (f c) t e
  | ret v => ret (v.map f)

/-- The distinct blocks that may follow, in order. -/
def targets : Terminator → List Label
  | jump t => [t]
  | branch _ t e => if t = e then [t] else [t, e]
  | ret _ => []

/-- Redirects every edge that points at `old` to `new`. -/
def retarget (old new : Label) : Terminator → Terminator
  | jump t => jump (if t = old then new else t)
  | branch c t e => branch c (if t = old then new else t) (if e = old then new else e)
  | ret v => ret v

/-- The kind of a terminator, as reports name it. -/
def kind : Terminator → String
  | jump _ => "Jump"
  | branch .. => "Branch"
  | ret _ => "Return"

end Terminator

/-- An instruction or a terminator. -/
inductive Node where
  | instr (i : Instr)
  | term (t : Terminator)
deriving DecidableEq

namespace Node

/-- The variable that the node defines. -/
def dest? : Node → Option Var
  | instr i => i.dest?
  | term _ => none

/-- The operands that the node reads. -/
def uses : Node → List Operand
  | instr i => i.uses
  | term t => t.uses

/-- The variables that the node defines or reads, the defined one first. -/
def vars (n : Node) : List Var := n.dest?.toList ++ n.uses.filterMap Operand.var?

/-- Replaces every operand that the node reads. -/
def mapUses (f : Operand → Operand) : Node → Node
  | instr i => instr (i.mapUses f)
  | term t => term (t.mapUses f)

/-- Whether the node can be observed beyond what it defines. -/
def hasSideEffects : Node → Bool
  | instr i => i.hasSideEffects
  | term _ => true

/-- The kind of a node, as reports name it. -/
def kind : Node → String
  | instr i => i.kind
  | term t => t.kind

end Node

end ThreeAddress
