import ThreeAddress.Proofs.Simulation
import ThreeAddress.Proofs.WellFormed

/-!
# Activations of well-formed functions

How variables change, what entering a block does when its phis have their operands, and two lemmas
that reduce lockstep to what happens to the variables: `agree_instr` for an instruction and its
counterpart, `agree_exit` for terminators.
-/

namespace ThreeAddress

variable {f : Func} {env env' : Env} {l p x : Label} {φs : List Phi} {v : Var} {b : Block}
  {fr : Frame}

/-! ## Variables -/

namespace Env

variable {values : List (Var × Int)} {n : Int}

theorem value_var (env : Env) (v : Var) : env.value (.var v) = env.getD v 0 := rfl

theorem getD_insert_self (env : Env) (v : Var) (n : Int) : (env.insert v n).getD v 0 = n := by
  rw [Table.getD_insert, if_pos rfl]

theorem getD_insert_ne (env : Env) {x : Var} (n : Int) (h : x ≠ v) :
    (env.insert v n).getD x 0 = env.getD x 0 := by
  rw [Table.getD_insert, if_neg h]

theorem getD_assign_of_not_mem (h : v ∉ values.map Prod.fst) (env : Env) :
    (env.assign values).getD v 0 = env.getD v 0 := by
  induction values generalizing env with
  | nil => rfl
  | cons e rest ih =>
    simp only [List.map_cons, List.mem_cons, not_or] at h
    show (Env.assign (env.insert e.1 e.2) rest).getD v 0 = _
    rw [ih h.2, getD_insert_ne env e.2 h.1]

theorem getD_assign_of_mem (nodup : (values.map Prod.fst).Nodup) (h : (v, n) ∈ values) (env : Env) :
    (env.assign values).getD v 0 = n := by
  induction values generalizing env with
  | nil => cases h
  | cons e rest ih =>
    simp only [List.map_cons, List.nodup_cons] at nodup
    show (Env.assign (env.insert e.1 e.2) rest).getD v 0 = _
    rcases List.mem_cons.1 h with rfl | h
    · rw [getD_assign_of_not_mem nodup.1, getD_insert_self]
    · exact ih nodup.2 h _

theorem value_congr {x : Operand} (h : ∀ v, x = .var v → env'.getD v 0 = env.getD v 0) :
    env'.value x = env.value x := by
  cases x with
  | var v => exact h v rfl
  | const n => rfl
  | undefined => rfl

/-- Variables that agree still do after the same assignments. -/
theorem getD_assign_congr (h : env'.getD v 0 = env.getD v 0) (values : List (Var × Int)) :
    (env'.assign values).getD v 0 = (env.assign values).getD v 0 := by
  induction values generalizing env env' with
  | nil => exact h
  | cons e rest ih =>
    refine ih ?_
    rw [Table.getD_insert, Table.getD_insert, h]

/-- Assigns the destination of an instruction, if it has one. -/
def write (env : Env) (d : Option Var) (n : Int) : Env :=
  match d with
  | none => env
  | some d => env.insert d n

theorem getD_write_of_ne {d : Option Var} {x : Var} (h : d ≠ some x) :
    (env.write d n).getD x 0 = env.getD x 0 := by
  cases d with
  | none => rfl
  | some d => exact getD_insert_ne env n fun e => h (e ▸ rfl)

theorem getD_write_self {x : Var} : (env.write (some x) n).getD x 0 = n :=
  getD_insert_self env x n

/-- Variables that agree still do after the same assignment. -/
theorem getD_write_congr (h : env'.getD v 0 = env.getD v 0) (d : Option Var) (n : Int) :
    (env'.write d n).getD v 0 = (env.write d n).getD v 0 := by
  by_cases hd : d = some v
  · rw [hd, getD_write_self, getD_write_self]
  · rw [getD_write_of_ne hd, getD_write_of_ne hd, h]

end Env

theorem Caller.resume_eq (fr : Frame) (d : Option Var) (v : Option Int) :
    (Caller.mk fr d).resume v = { fr with env := fr.env.write d (v.getD 0) } := by
  cases d with
  | none => rfl
  | some d => rfl

/-! ## Parameters -/

/-- The variable that a parameter arrives in. -/
def Func.paramVar (f : Func) (x : String) : Var := ⟨x, if f.ssa then some 0 else none⟩

/-- What the parameters arrive with. -/
def Func.paramValues (f : Func) (args : List Int) : List (Var × Int) :=
  f.params.zipIdx.map fun p => (f.paramVar p.1, (args[p.2]?.map wrap).getD 0)

theorem bindParams_eq (f : Func) (args : List Int) :
    bindParams f args = Env.assign .empty (f.paramValues args) := rfl

theorem map_fst_paramValues (f : Func) (args : List Int) :
    (f.paramValues args).map Prod.fst = f.params.map f.paramVar := by
  rw [Func.paramValues, List.map_map]
  conv => rhs; rw [← List.zipIdx_map_fst 0 f.params, List.map_map]
  rfl

theorem getD_bindParams_of_mem (nodup : f.params.Nodup) {x : String} {i : Nat}
    (h : (x, i) ∈ f.params.zipIdx) (args : List Int) :
    (bindParams f args).getD (f.paramVar x) 0 = (args[i]?.map wrap).getD 0 := by
  have hmem : (f.paramVar x, (args[i]?.map wrap).getD 0) ∈ f.paramValues args :=
    List.mem_map.2 ⟨_, h, rfl⟩
  have hnodup : ((f.paramValues args).map Prod.fst).Nodup := by
    rw [map_fst_paramValues]
    exact List.Nodup.map (fun _ _ e => congrArg Var.name e) nodup
  rw [bindParams_eq]
  exact Env.getD_assign_of_mem hnodup hmem .empty

theorem getD_bindParams_of_not_mem (h : v ∉ f.params.map f.paramVar) (args : List Int) :
    (bindParams f args).getD v 0 = 0 := by
  rw [bindParams_eq]
  refine Env.getD_assign_of_not_mem ?_ .empty
  rw [map_fst_paramValues]
  exact h

/-! ## Entering blocks -/

/-- What the phis of a block assign when control comes from `p`. -/
def phiAssignments (env : Env) (p : Label) (φs : List Phi) : List (Var × Int) :=
  φs.map fun φ => (φ.dest, env.value (φ.operand p))

theorem map_fst_phiAssignments (env : Env) (p : Label) (φs : List Phi) :
    (phiAssignments env p φs).map Prod.fst = φs.map (·.dest) := by
  simp [phiAssignments, Function.comp_def]

/-- Each phi assigns its operand. -/
theorem getD_phiAssignments (env env₀ : Env) (p : Label) (nodup : (φs.map (·.dest)).Nodup) {φ : Phi}
    (h : φ ∈ φs) :
    (env₀.assign (phiAssignments env p φs)).getD φ.dest 0 = env.value (φ.operand p) := by
  have hmem : (φ.dest, env.value (φ.operand p)) ∈ phiAssignments env p φs :=
    List.mem_map.2 ⟨φ, h, rfl⟩
  rw [← map_fst_phiAssignments env p φs] at nodup
  exact Env.getD_assign_of_mem nodup hmem env₀

/-- Phis assign nothing else. -/
theorem getD_phiAssignments_of_not_mem {env₀ : Env} (h : v ∉ φs.map (·.dest)) :
    (env₀.assign (phiAssignments env p φs)).getD v 0 = env₀.getD v 0 := by
  refine Env.getD_assign_of_not_mem ?_ env₀
  rw [map_fst_phiAssignments]
  exact h

/-- Phis that stand opposite each other and take the same values assign the same. -/
theorem phiAssignments_congr {p' : Label} {φs' : List Phi}
    (h : List.Forall₂ (fun φ φ' => φ'.dest = φ.dest ∧
      env'.value (φ'.operand p') = env.value (φ.operand p)) φs φs') :
    phiAssignments env' p' φs' = phiAssignments env p φs := by
  induction h with
  | nil => rfl
  | cons hφ _ ih =>
    unfold phiAssignments at ih ⊢
    rw [List.map_cons, List.map_cons, hφ.1, hφ.2, ih]

theorem phiValues_eq (h : ∀ φ ∈ φs, p ∈ φ.labels) :
    phiValues env p φs = .ok (phiAssignments env p φs) := by
  induction φs with
  | nil => rfl
  | cons φ φs ih =>
    rw [phiValues, Phi.valueFrom?_of_mem (h φ (.head _)), ih fun ψ hψ => h ψ (.tail _ hψ)]
    rfl

theorem Frame.enter_eq (hb : f.block? l = some b) (h : ∀ φ ∈ b.phis, p ∈ φ.labels) (env : Env) :
    Frame.enter f env (some p) l = .ok ⟨f, l, b.body, b.term,
      env.assign (phiAssignments env p b.phis)⟩ := by
  simp only [Frame.enter, hb, phiValues_eq h]
  rfl

/-- In a well-formed function control can follow every edge. -/
theorem Func.WellFormed.enter_eq (wf : f.WellFormed) (env : Env) (hb : f.block? l = some b)
    (h : l ∈ f.graph.next p) :
    Frame.enter f env (some p) l = .ok ⟨f, l, b.body, b.term,
      env.assign (phiAssignments env p b.phis)⟩ := by
  refine Frame.enter_eq hb (fun φ hφ => ?_) env
  rw [(wf.tidy hb).labels_eq φ hφ]
  exact (wf.mem_preds hb).2 h

/-- A terminator that leads to a block that can be entered. -/
theorem Frame.act_goto {t : Terminator} (hexit : t.exit env.value = .goto x)
    (henter : Frame.enter f env (some l) x = .ok fr) (w : World) :
    Frame.act ⟨f, l, [], some t, env⟩ w = .go fr w := by
  simp only [Frame.act, hexit, Frame.leaveBy, Frame.goto, henter]

theorem Frame.act_leave {t : Terminator} {v : Option Int} (hexit : t.exit env.value = .leave v)
    (w : World) : Frame.act ⟨f, l, [], some t, env⟩ w = .ret v := by
  simp only [Frame.act, hexit, Frame.leaveBy]

/-- A terminator with one target leads there. -/
theorem Terminator.exit_of_targets {t : Terminator} (h : t.targets = [x]) (value : Operand → Int) :
    t.exit value = .goto x := by
  cases t with
  | jump y =>
    cases h
    rfl
  | branch c y z =>
    by_cases hyz : y = z
    · simp only [Terminator.targets, if_pos hyz, List.cons.injEq, and_true] at h
      rw [Terminator.exit, ← hyz, ite_self, h]
    · simp [Terminator.targets, hyz] at h
  | ret v => cases h

theorem Func.start_eq (hb : f.block? f.entry = some b) (args : List Int) :
    f.start args = .ok ⟨f, f.entry, b.body, b.term, bindParams f args⟩ := by
  simp only [Func.start, Frame.enter, hb]
  rfl

/-! ## One step against one step -/

section Lockstep

variable {R : Frame → Frame → Prop} {t t' : Option Terminator} {rest rest' : List Instr} {f' : Func}
  {w : World} {i i' : Instr}

/-- An instruction and its counterpart do the same, up to the variable they assign. -/
theorem agree_instr (hname : f.name = f'.name) (hi : i.isPhi = false)
    (heff : i'.effect env'.value w = match i'.dest? with
      | none => i.effect env.value w
      | some d => (i.effect env.value w).setDest d) (hdest : i.dest? = none ↔ i'.dest? = none)
    (hR : ∀ n, R ⟨f, l, rest, t, env.write i.dest? n⟩ ⟨f', l, rest', t', env'.write i'.dest? n⟩) :
    Agree R (Frame.act ⟨f, l, i :: rest, t, env⟩ w) (Frame.act ⟨f', l, i' :: rest', t',
      env'⟩ w) := by
  show Agree R (Frame.after _ rest (i.effect env.value w))
    (Frame.after _ rest' (i'.effect env'.value w))
  rw [heff]
  cases he : i.effect env.value w with
  | assign d n w₁ =>
    have hd := Instr.dest?_of_assign he
    obtain ⟨d', hd'⟩ : ∃ d', i'.dest? = some d' := by
      cases h : i'.dest? with
      | none => rw [hdest.2 h] at hd; cases hd
      | some d' => exact ⟨d', rfl⟩
    have := hR n
    rw [hd, hd'] at this
    rw [hd']
    exact .go this
  | pass w₁ =>
    have hd := Instr.dest?_of_pass hi he
    have := hR 0
    rw [hd, hdest.1 hd] at this
    rw [hdest.1 hd]
    exact .go this
  | call d g args =>
    have hd := Instr.dest?_of_call he
    cases d with
    | none =>
      rw [hdest.1 hd] at *
      refine .call fun v => ?_
      have := hR 0
      rw [hd] at this
      exact this
    | some d =>
      obtain ⟨d', hd'⟩ : ∃ d', i'.dest? = some d' := by
        cases h : i'.dest? with
        | none => rw [hdest.2 h] at hd; cases hd
        | some d' => exact ⟨d', rfl⟩
      rw [hd']
      refine .call fun v => ?_
      have := hR (v.getD 0)
      rw [hd, hd'] at this
      exact this
  | trap e =>
    cases h : i'.dest? with
    | none =>
      show Agree R (.stop (.arithmetic f.name l e)) (.stop (.arithmetic f'.name l e))
      rw [hname]
      exact .stop
    | some d' =>
      show Agree R (.stop (.arithmetic f.name l e)) (.stop (.arithmetic f'.name l e))
      rw [hname]
      exact .stop

/-- An instruction and its counterpart do the same, and assign the same variable. -/
theorem agree_instr_of_eq (hname : f.name = f'.name) (hi : i.isPhi = false)
    (hdest : i'.dest? = i.dest?) (heff : i'.effect env'.value w = i.effect env.value w)
    (hR : ∀ n, R ⟨f, l, rest, t, env.write i.dest? n⟩ ⟨f', l, rest', t', env'.write i.dest? n⟩) :
    Agree R (Frame.act ⟨f, l, i :: rest, t, env⟩ w) (Frame.act ⟨f', l, i' :: rest', t',
      env'⟩ w) := by
  refine agree_instr hname hi ?_ (by rw [hdest]) (by rwa [hdest])
  rw [heff, hdest]
  cases hd : i.dest? with
  | none => rfl
  | some d =>
    show _ = (i.effect env.value w).setDest d
    rw [← Instr.effect_setDest, Instr.setDest_dest? hd]

/-- An instruction that does the same with both. -/
theorem agree_instr_self (hname : f.name = f'.name) (hi : i.isPhi = false)
    (heff : i.effect env'.value w = i.effect env.value w)
    (hR : ∀ n, R ⟨f, l, rest, t, env.write i.dest? n⟩ ⟨f', l, rest', t', env'.write i.dest? n⟩) :
    Agree R (Frame.act ⟨f, l, i :: rest, t, env⟩ w) (Frame.act ⟨f', l, i :: rest', t', env'⟩ w) :=
  agree_instr_of_eq hname hi rfl heff hR

/-- Terminators that lead the same way. -/
theorem agree_exit {t t' : Terminator} (hexit : t'.exit env'.value = t.exit env.value)
    (hgoto : ∀ s, t.exit env.value = .goto s → ∃ fr fr', Frame.enter f env (some l) s = .ok fr ∧
      Frame.enter f' env' (some l) s = .ok fr' ∧ R fr fr') :
    Agree R (Frame.act ⟨f, l, [], some t, env⟩ w) (Frame.act ⟨f', l, [], some t', env'⟩ w) := by
  show Agree R (Frame.leaveBy _ w (t.exit env.value)) (Frame.leaveBy _ w (t'.exit env'.value))
  rw [hexit]
  cases he : t.exit env.value with
  | leave v => exact .ret
  | goto s =>
    obtain ⟨fr, fr', hfr, hfr', hr⟩ := hgoto s he
    show Agree R (Frame.goto _ w s) (Frame.goto _ w s)
    simp only [Frame.goto, hfr, hfr']
    exact .go hr

theorem Func.WellFormed.delays_self (wf : f.WellFormed) : f.Delays f 0 := by
  have lockstep : Lockstep f f 0 Eq := by
    refine ⟨fun args => ?_, fun fr fr' w hr => ?_⟩
    · obtain ⟨b, hb⟩ := Func.exists_block.1 wf.entry_mem
      exact ⟨_, _, _, Func.start_eq hb args, Func.start_eq hb args, fun _ => .refl, rfl⟩
    · subst hr
      cases fr.act w with
      | go fr₁ w₁ => exact .go rfl
      | call g args k => exact .call fun _ => rfl
      | ret v => exact .ret
      | stop e => exact .stop
  exact lockstep.delays

/-- Code that control can come to reads the variable. -/
inductive Func.Reads (f : Func) (v : Var) : Prop
  | instr {l : Label} {b : Block} {i : Instr} : f.graph.Reachable l → f.block? l = some b →
    i ∈ b.body →
    .var v ∈ i.uses → Reads f v
  | term {l : Label} {b : Block} {t : Terminator} : f.graph.Reachable l → f.block? l = some b →
    b.term = some t →
    .var v ∈ t.uses → Reads f v
  | phi {p l : Label} {b : Block} {φ : Phi} : f.graph.Reachable p → l ∈ f.graph.next p →
    f.block? l = some b →
    φ ∈ b.phis → φ.operand p = .var v → Reads f v

/-- What relates activations of functions with the same code: they are at the same place, and agree
in the variables that are read. -/
inductive SamePlace (f f' : Func) : Frame → Frame → Prop
  | mk {l : Label} {b : Block} {rest : List Instr} {env env' : Env} : f.graph.Reachable l →
    f.block? l = some b →
    rest ⊆ b.body → (∀ v, f.Reads v → env'.getD v 0 = env.getD v 0) →
      SamePlace f f' ⟨f, l, rest, b.term, env⟩ ⟨f', l, rest, b.term, env'⟩

/-- The block `b'` of `f'` does what the block `b` of `f` does, whichever edge control comes on. -/
structure SameCode (f : Func) (l : Label) (b b' : Block) : Prop where
  body_eq : b'.body = b.body
  term_eq : b'.term = b.term
  values_eq : ∀ p, f.graph.Reachable p → l ∈ f.graph.next p → ∀ env,
    phiValues env p b'.phis = phiValues env p b.phis

/-- Phis that read the same assign the same. -/
theorem phiAssignments_of_reads (hp : f.graph.Reachable p) (hl : l ∈ f.graph.next p)
    (hb : f.block? l = some b) (h : ∀ v, f.Reads v → env'.getD v 0 = env.getD v 0) :
    phiAssignments env' p b.phis = phiAssignments env p b.phis := by
  refine List.map_congr_left fun φ hφ => ?_
  rw [Env.value_congr fun v hv => h v (.phi hp hl hb hφ hv)]

theorem samePlace_step (wf : f.WellFormed) (hname : f'.name = f.name)
    (hcode : ∀ {l b}, f.graph.Reachable l → f.block? l = some b → ∃ b', f'.block? l = some b' ∧
      SameCode f l b b') {fr' : Frame} (w : World) (hr : SamePlace f f' fr fr') :
    Agree (SamePlace f f') (fr.act w) (fr'.act w) := by
  cases hr with
  | @mk l b rest env env' hl hb hrest henv =>
    cases rest with
    | cons i rest =>
      obtain ⟨hi, hrest⟩ := List.cons_subset.1 hrest
      have heff : i.effect env'.value w = i.effect env.value w := by
        refine Instr.effect_congr (b.isPhi_of_mem_body hi) w fun x hx => Env.value_congr fun v hv =>
          ?_
        exact henv v (.instr hl hb hi (hv ▸ hx))
      refine agree_instr_self hname.symm (b.isPhi_of_mem_body hi) heff fun n =>
        .mk hl hb hrest fun v hv => ?_
      exact Env.getD_write_congr (henv v hv) _ n
    | nil =>
      cases ht : b.term with
      | none => exact absurd ht (wf.closed hb)
      | some t =>
        have hexit : t.exit env'.value = t.exit env.value :=
          Terminator.exit_congr fun x hx => Env.value_congr fun v hv =>
            henv v (.term hl hb ht (hv ▸ hx))
        refine agree_exit hexit fun s hs => ?_
        have hsucc : s ∈ f.graph.next l := by
          rw [Func.next_graph hb, Block.successors, ht]
          exact Terminator.mem_targets_of_exit hs
        obtain ⟨c, hc⟩ := wf.block_of_reachable (hl.step hsucc)
        obtain ⟨c', hc', same⟩ := hcode (hl.step hsucc) hc
        have hvalues : phiValues env' l c'.phis = .ok (phiAssignments env l c.phis) := by
          rw [same.values_eq l hl hsucc env', ← phiAssignments_of_reads hl hsucc hc henv]
          exact phiValues_eq fun φ hφ => (wf.tidy hc).labels_eq φ hφ ▸ (wf.mem_preds hc).2 hsucc
        have henter : Frame.enter f' env' (some l) s
            = .ok ⟨f', s, c.body, c.term, env'.assign (phiAssignments env l c.phis)⟩ := by
          simp only [Frame.enter, hc', hvalues, same.body_eq, same.term_eq]
          rfl
        refine ⟨_, _, wf.enter_eq env hc hsucc, henter,
          .mk (hl.step hsucc) hc (List.Subset.refl _) fun v hv => ?_⟩
        exact Env.getD_assign_congr (henv v hv) _

end Lockstep

end ThreeAddress
