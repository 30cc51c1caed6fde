import Mathlib.Data.Set.Function
import ThreeAddress.Proofs.PlainNaming

/-!
# Plain names keep variables apart

A function gets plain names by one map from variables to names: every definition and every use goes
through the same map, and nothing else changes (`withPlainNames_eq_renamedBy`). If all variables
have versions, the map tells apart all that occur, whatever the names look like:
`Func.withPlainNames_injOn`.
-/

namespace ThreeAddress

/-! ## Renaming -/

variable (name : Var → String)

/-- The operand with its variable renamed; the undefined one reads as 0. -/
def Operand.renamedBy : Operand → Operand
  | const n => const n
  | var v => var ⟨name v, none⟩
  | undefined => const 0

/-- The instruction with all its variables renamed. -/
def Instr.renamedBy : Instr → Instr
  | binary d op l r => binary ⟨name d, none⟩ op (l.renamedBy name) (r.renamedBy name)
  | unary d op x => unary ⟨name d, none⟩ op (x.renamedBy name)
  | copy d x => copy ⟨name d, none⟩ (x.renamedBy name)
  | load d a => load ⟨name d, none⟩ (a.renamedBy name)
  | store a v => store (a.renamedBy name) (v.renamedBy name)
  | call d g args => call (d.map fun d => ⟨name d, none⟩) g (args.map (·.renamedBy name))
  | read d => read ⟨name d, none⟩
  | write v => write (v.renamedBy name)
  | phi φ => phi ⟨⟨name φ.dest, none⟩, φ.incoming.map fun a => ⟨a.block, a.value.renamedBy name⟩⟩

/-- The terminator with all its variables renamed. -/
def Terminator.renamedBy : Terminator → Terminator
  | jump t => jump t
  | branch c t e => branch (c.renamedBy name) t e
  | ret v => ret (v.map (·.renamedBy name))

/-- The block with all its variables renamed. -/
def Block.renamedBy (b : Block) : Block :=
  { b with instrs := b.instrs.map (·.renamedBy name), term := b.term.map (·.renamedBy name) }

/-- The function with all variables in its code renamed. -/
def Func.renamedBy (f : Func) : Func := f.mapBlocks (·.renamedBy name)

/-! ## Plain names are a renaming -/

namespace Naming

variable (naming : Naming)

/-- The plain name of a variable. -/
def nameOf (v : Var) : String := (naming.plain v).name

theorem plain_eq (v : Var) : naming.plain v = ⟨naming.nameOf v, none⟩ := by
  rw [← naming.not_versioned_plain v]
  rfl

theorem plainOperand_eq (x : Operand) : naming.plainOperand x = x.renamedBy naming.nameOf := by
  cases x with
  | const n => rfl
  | var v => exact congrArg Operand.var (naming.plain_eq v)
  | undefined => rfl

theorem plainInstr_eq (i : Instr) : naming.plainInstr i = i.renamedBy naming.nameOf := by
  have hoperand : naming.plainOperand = Operand.renamedBy naming.nameOf :=
    funext naming.plainOperand_eq
  cases i with
  | call d g args =>
    cases d <;> simp [plainInstr, Instr.mapUses, Instr.dest?, Instr.setDest, Instr.renamedBy,
      hoperand, plain_eq]
  | _ =>
    simp [plainInstr, Instr.mapUses, Instr.dest?, Instr.setDest, Instr.renamedBy, hoperand,
      plain_eq]

theorem plainTerm_eq (t : Terminator) :
    t.mapUses naming.plainOperand = t.renamedBy naming.nameOf := by
  have hoperand : naming.plainOperand = Operand.renamedBy naming.nameOf :=
    funext naming.plainOperand_eq
  cases t <;> rw [hoperand] <;> rfl

theorem plainBlock_eq (b : Block) : naming.plainBlock b = b.renamedBy naming.nameOf := by
  have hinstr : naming.plainInstr = Instr.renamedBy naming.nameOf := funext naming.plainInstr_eq
  have hterm : (fun t : Terminator => t.mapUses naming.plainOperand)
      = Terminator.renamedBy naming.nameOf :=
    funext naming.plainTerm_eq
  rw [plainBlock, hinstr, hterm]
  rfl

end Naming

namespace Func

/-- Every definition and use goes through the map from variables to plain names. -/
theorem withPlainNames_eq_renamedBy (f : Func) :
    f.withPlainNames = f.renamedBy (Naming.ofFunc f).nameOf :=
  congrArg f.mapBlocks (funext (Naming.ofFunc f).plainBlock_eq)

/-! ## Variables that occur -/

/-- The variable is defined or used in the function, or is a parameter as it arrives. -/
def Occurs (f : Func) (v : Var) : Prop := (∃ n ∈ f.nodes, v ∈ n.vars) ∨ ∃ p ∈ f.params,
    v = ⟨p, some 0⟩

theorem Occurs.mentions {f : Func} (hversioned : ∀ n ∈ f.nodes, ∀ v ∈ n.vars, v.version ≠ none)
    {v : Var} (h : f.Occurs v) : f.Mentions v := by
  rcases h with ⟨n, hn, hv⟩ | ⟨p, hp, rfl⟩
  · exact mentions_of_node hn hv (hversioned n hn v hv)
  · exact mentions_param hp

/-- If all variables of a function have versions, then its plain names come from one map, which has
a name for every variable that occurs. Different variables have different names, whatever they are
called; the values of the parameters have the parameters' own; and the function with plain names is
the one in which every definition and use is renamed by this map. -/
theorem withPlainNames_injOn (f : Func)
    (hversioned : ∀ n ∈ f.nodes, ∀ v ∈ n.vars, v.version ≠ none) :
    ∃ name : Var → String,
      (∀ v, f.Occurs v → ∃ n, v.version = some n ∧
        (Naming.ofFunc f).names.get? (v.name, n) = some (name v)) ∧
      Set.InjOn name {v | f.Occurs v} ∧ (∀ p ∈ f.params, name ⟨p, some 0⟩ = p) ∧
      f.withPlainNames = f.renamedBy name := by
  refine ⟨(Naming.ofFunc f).nameOf, fun v hv => ?_, fun v hv v' hv' heq => ?_, fun p hp => ?_,
    f.withPlainNames_eq_renamedBy⟩
  · obtain ⟨n, s, heq, hs, hplain⟩ := (hv.mentions hversioned).exists_name
    refine ⟨n, congrArg Var.version heq, ?_⟩
    rw [hs, Naming.nameOf, hplain]
  · refine (hv.mentions hversioned).plain_inj (hv'.mentions hversioned) ?_
    rw [Naming.plain_eq, Naming.plain_eq, heq]
  · exact congrArg Var.name (plain_param hp)

/-- Two versions of `x`, and variables whose names look like plain names of these. -/
def lookalikes : Func where
  name := "main"
  params := ["x", "x_1"]
  ssa := true
  blocks := Table.ofList [("entry",
    { name := "entry"
      instrs := [.binary ⟨"x", some 1⟩ "add" (.var ⟨"x", some 0⟩) (.var ⟨"x_1", some 0⟩),
        .unary ⟨"x_1_", some 3⟩ "neg" (.var ⟨"x", some 1⟩),
        .copy ⟨"x_1", some 2⟩ (.var ⟨"x_1_", some 3⟩)]
      term := some (.ret (some (.var ⟨"x_1", some 2⟩))) })]

/-- Both shorter names for the second version of `x` are those of other variables. -/
theorem withPlainNames_injOn_lookalikes :
    (∀ n ∈ lookalikes.nodes, ∀ v ∈ n.vars, v.version ≠ none) ∧
      ∃ name : Var → String, Set.InjOn name {v | lookalikes.Occurs v} ∧
        lookalikes.withPlainNames = lookalikes.renamedBy name ∧
        name ⟨"x", some 0⟩ = "x" ∧ name ⟨"x_1", some 0⟩ = "x_1" ∧ name ⟨"x_1_", some 3⟩ = "x_1_" ∧
        name ⟨"x", some 1⟩ = "x_1__" := by
  have hversioned : ∀ n ∈ lookalikes.nodes, ∀ v ∈ n.vars, v.version ≠ none := by decide
  obtain ⟨name, hnames, hinj, hparams, heq⟩ := lookalikes.withPlainNames_injOn hversioned
  refine ⟨hversioned, name, hinj, heq, hparams "x" (by decide), hparams "x_1" (by decide), ?_, ?_⟩
  · obtain ⟨n, hn, hname⟩ := hnames ⟨"x_1_", some 3⟩ (.inl (by decide))
    cases hn
    exact Option.some.inj (hname.symm.trans (by decide))
  · obtain ⟨n, hn, hname⟩ := hnames ⟨"x", some 1⟩ (.inl (by decide))
    cases hn
    exact Option.some.inj (hname.symm.trans (by decide))

end Func

end ThreeAddress
