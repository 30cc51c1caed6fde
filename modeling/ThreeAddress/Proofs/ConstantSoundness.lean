import ThreeAddress.Proofs.ConstantPropagation

/-!
# Constants along runs

What the search for constants says of a function holds in every run: control is in blocks and takes
edges that it found, and variables hold numbers that it allows (`findConstants_sound`). Putting the
constants in keeps what the function does, with no more steps (`propagateConstants_runs`).

Both ask that no phi stands at the entry. A phi there without operands gets no number in a run and
counts as 0, but the search waits for evidence about it for ever. `entryPhi` shows what then goes
wrong.
-/

namespace ThreeAddress

variable {l : Label} {env : Env} {values : List (Var × Int)} {fr : Frame} {n : Int}

/-! ## Variables that are assigned -/

theorem Env.get?_assign {v : Var} (h : (env.assign values).get? v = some n) :
    (v, n) ∈ values ∨ env.get? v = some n := by
  induction values generalizing env with
  | nil => exact .inr h
  | cons e rest ih =>
    rcases ih h with h | h
    · exact .inl (.tail _ h)
    · rw [Table.get?_insert] at h
      split at h
      · rename_i hv
        cases h
        exact .inl (hv ▸ List.mem_cons_self)
      · exact .inr h

theorem Frame.func_of_enter {f : Func} {prev : Option Label}
    (h : Frame.enter f env prev l = .ok fr) : fr.func = f := by
  unfold Frame.enter at h
  cases hb : f.block? l with
  | none => simp [hb] at h
  | some b =>
    simp only [hb] at h
    cases prev with
    | none =>
      cases h
      rfl
    | some p =>
      obtain ⟨values, _, h⟩ := bind_eq_ok.1 h
      cases h
      rfl

/-- An activation stays one of its function. -/
theorem Frame.func_of_act (fr : Frame) (w : World) :
    (fr.act w).Keeps fun fr' => fr'.func = fr.func := by
  obtain ⟨func, block, code, term, env⟩ := fr
  cases code with
  | cons i code =>
    simp only [act]
    cases i.effect env.value w with
    | call d g args => exact ⟨rfl, fun v => by rw [Caller.resume_eq]⟩
    | trap e => trivial
    | assign d n w' => exact rfl
    | pass w' => exact rfl
  | nil =>
    cases term with
    | none => trivial
    | some t =>
      simp only [act]
      cases t.exit env.value with
      | leave v => trivial
      | goto l =>
        simp only [leaveBy, goto]
        cases he : enter func env (some block) l with
        | error e => trivial
        | ok fr' => exact func_of_enter he

namespace Facts

variable {f : Func} {s : Facts} {b : Block} {pre rest : List Instr} {i : Instr} {x : Label}
  {d : Var}

/-- Each variable that is assigned holds the number it is found to hold, or none was found for
it. -/
def Admits (s : Facts) (env : Env) : Prop :=
  ∀ v n, env.get? v = some n → s.values.get? v = some .bottom ∨ s.values.get? v = some (.const n)

theorem Admits.insert (h : s.Admits env)
    (hd : s.values.get? d = some .bottom ∨ s.values.get? d = some (.const n)) :
    s.Admits (env.insert d n) := by
  intro v m hv
  rw [Table.get?_insert] at hv
  split at hv
  · rename_i hvd
    cases hv
    exact hvd ▸ hd
  · exact h v m hv

theorem Admits.assign (h : s.Admits env)
    (hvalues : ∀ e ∈ values, s.values.get? e.1 = some .bottom ∨
      s.values.get? e.1 = some (.const e.2)) : s.Admits (env.assign values) := by
  intro v n hv
  rcases Env.get?_assign hv with hv | hv
  · exact hvalues _ hv
  · exact h v n hv

namespace Solves

/-- What is defined in a block that can run is a constant, or has no constant value. -/
theorem known (sol : s.Solves f) (h : f.IsSsa) (hentry : f.EntryPhiFree) (hl : l ∈ s.blocks)
    (hb : f.block? l = some b) (hi : i ∈ b.instrs) (hd : i.dest? = some d)
    (hn : ∀ m, s.constOf? d = some m → n = m) :
    s.values.get? d = some .bottom ∨ s.values.get? d = some (.const n) := by
  obtain ⟨c, hc⟩ := Table.mem_iff_get?.1 (sol.instr l hl b hb i hi d hd).1
  have hvalue : s.valueOf (.var d) = c := Table.getD_of_get? hc
  have htop := sol.ne_top h.wf h.form hentry hl (.inr ⟨b, hb, mem_destsOf.2 ⟨i, hi, hd⟩⟩)
  rw [hc]
  cases c with
  | top => exact absurd hvalue htop
  | bottom => exact .inl rfl
  | const m =>
    rw [hn m (constOf?_eq_some.2 hvalue)]
    exact .inr rfl

/-- An assignment gives a variable the number that it is found to hold. -/
theorem eq_of_assign (sol : s.Solves f) (h : f.IsSsa) (hentry : f.EntryPhiFree) (hl : l ∈ s.blocks)
    (hb : f.block? l = some b) (heq : b.instrs = pre ++ i :: rest) (hi : i.isPhi = false)
    (hright : s.Right f l pre env) {w w' : World} (heff : i.effect env.value w = .assign d n w')
    {m : Int} (hm : s.constOf? d = some m) : n = m := by
  have hmem : i ∈ b.instrs := heq ▸ List.mem_append_right _ (.head _)
  have hdest := Instr.dest?_of_assign heff
  cases hred : s.isRedundant i with
  | false =>
    rw [sol.constOf?_of_kept hl hb hmem hred hdest] at hm
    cases hm
  | true =>
    obtain ⟨d', n', hd', hn', heff'⟩ := sol.effect_of_right h hentry hl hb heq hi hred hright w
    rw [heff] at heff'
    cases heff'
    exact Option.some.inj (hn'.symm.trans hm)

/-- Control takes edges that the search found. -/
theorem mem_edges_of_exit (sol : s.Solves f) (h : f.IsSsa) (hentry : f.EntryPhiFree)
    {t : Terminator} (hl : l ∈ s.blocks) (hb : f.block? l = some b) (ht : b.term = some t)
    (hright : s.Right f l b.instrs env) (hexit : t.exit env.value = .goto x) :
    (l, x) ∈ s.edges := by
  refine sol.term l hl b hb t ht x
    (mem_targets_of_foldTerm (fun y hy => sol.term_ne_top h hentry hl hb ht hy) ?_)
  have hfold : (s.foldTerm t).exit env.value = .goto x := by
    rw [exit_foldTerm, hexit]
    intro y hy n hn
    refine hright.value_of_availOut hb (fun v hv => ?_) hn
    exact h.form.termUse (sol.reachable hl) hb ht (hv ▸ hy)
  exact Terminator.mem_targets_of_exit hfold

end Solves

/-! ## The invariant of an activation -/

/-- Control is in a block that can run, what is available there holds what it is found to hold, and
so does whatever was assigned before. -/
inductive Holds (s : Facts) (f : Func) : Frame → Prop
  | mk {l : Label} {b : Block} {pre rest : List Instr} {env : Env} : l ∈ s.blocks →
    f.block? l = some b →
    b.instrs = pre ++ rest → (∀ i ∈ rest, i.isPhi = false) → s.Right f l pre env → s.Admits env →
    Holds s f ⟨f, l, rest, b.term, env⟩

theorem holds_start (sol : s.Solves f) (h : f.IsSsa) (hentry : f.EntryPhiFree) {args : List Int}
    (hfr : f.start args = .ok fr) : s.Holds f fr := by
  obtain ⟨b, hb⟩ := Func.exists_block.1 h.wf.entry_mem
  rw [Func.start_eq hb args] at hfr
  cases hfr
  refine .mk sol.entry hb (hentry.instrs_eq h.wf hb) (fun i hi => b.isPhi_of_mem_body hi)
    (sol.right_entry _) ?_
  have hempty : s.Admits .empty := fun v n hv => by cases hv
  rw [bindParams_eq]
  refine hempty.assign fun e he => .inl ?_
  have hmem : e.1 ∈ f.params.map f.paramVar := by
    rw [← map_fst_paramValues f args]
    exact List.mem_map_of_mem he
  obtain ⟨x, hx, heq⟩ := List.mem_map.1 hmem
  rw [← heq, Func.paramVar, h.ssa]
  exact sol.params x hx

theorem Holds.of_instr (sol : s.Solves f) (h : f.IsSsa) (hentry : f.EntryPhiFree)
    (hl : l ∈ s.blocks) (hb : f.block? l = some b) (heq : b.instrs = pre ++ i :: rest)
    (hrest : ∀ j ∈ i :: rest, j.isPhi = false) (hright : s.Right f l pre env)
    (hadmits : s.Admits env) (hn : ∀ d, i.dest? = some d → ∀ m, s.constOf? d = some m → n = m) :
    s.Holds f ⟨f, l, rest, b.term, env.write i.dest? n⟩ := by
  have hmem : i ∈ b.instrs := heq ▸ List.mem_append_right _ (.head _)
  refine .mk hl hb (by rw [heq, List.append_assoc]; rfl) (fun j hj => hrest j (.tail _ hj))
    (hright.write hn) ?_
  cases hd : i.dest? with
  | none => exact hadmits
  | some d => exact hadmits.insert (sol.known h hentry hl hb hmem hd (hn d hd))

/-- The invariant holds while a call is out: nothing is found of its result. -/
theorem Holds.waiting (hl : l ∈ s.blocks) (hb : f.block? l = some b)
    (heq : b.instrs = pre ++ i :: rest) (hrest : ∀ j ∈ i :: rest, j.isPhi = false)
    (hright : s.Right f l pre env) (hadmits : s.Admits env)
    (hd : ∀ d, i.dest? = some d → s.constOf? d = none) : s.Holds f ⟨f, l, rest, b.term, env⟩ := by
  have hinstrs : b.instrs = (pre ++ [i]) ++ rest := by rw [heq, List.append_assoc]; rfl
  refine .mk hl hb hinstrs (fun j hj => hrest j (.tail _ hj)) (fun v hv m hm => ?_) hadmits
  refine hright v (hv.imp_right fun hv => ?_) m hm
  rw [destsOf_append] at hv
  refine (List.mem_append.1 hv).resolve_right fun hv => ?_
  obtain ⟨j, hj, hjd⟩ := mem_destsOf.1 hv
  rw [List.mem_singleton.1 hj] at hjd
  rw [hd v hjd] at hm
  cases hm

section

variable (sol : s.Solves f)
include sol

theorem Holds.of_edge (h : f.IsSsa) (hentry : f.EntryPhiFree) {c : Block} (hl : l ∈ s.blocks)
    (hb : f.block? l = some b) (he : (l, x) ∈ s.edges) (hc : f.block? x = some c)
    (hright : s.Right f l b.instrs env) (hadmits : s.Admits env) :
    s.Holds f ⟨f, x, c.body, c.term, env.assign (phiAssignments env l c.phis)⟩ := by
  obtain ⟨hx, _⟩ := sol.edge _ _ he
  refine .mk hx hc (h.wf.tidy hc).instrs_eq (fun i hi => c.isPhi_of_mem_body hi)
    (Func.right_of_edge sol h hentry hl hb he hc hright) (hadmits.assign fun e hmem => ?_)
  obtain ⟨φ, hφ, rfl⟩ := List.mem_map.1 hmem
  refine sol.known h hentry hx hc ((h.wf.tidy hc).phi_mem_iff.2 hφ) rfl fun m hm => ?_
  exact hright.value_of_availOut hb (h.form.phi_operand_available (sol.reachable hl)
    (sol.reachable hx) hc hφ)
    (Func.operand_of_const sol h hentry hl he hc hφ hm)

/-- Running an instruction keeps the invariant. -/
theorem Holds.act_instr (h : f.IsSsa) (hentry : f.EntryPhiFree) (hl : l ∈ s.blocks)
    (hb : f.block? l = some b) (heq : b.instrs = pre ++ i :: rest)
    (hrest : ∀ j ∈ i :: rest, j.isPhi = false) (hright : s.Right f l pre env)
    (hadmits : s.Admits env) (w : World) :
    (Frame.act ⟨f, l, i :: rest, b.term, env⟩ w).Keeps (s.Holds f) := by
  have hi : i.isPhi = false := hrest i (.head _)
  have hmem : i ∈ b.instrs := heq ▸ List.mem_append_right _ (.head _)
  have hwrite := fun n => Holds.of_instr (n := n) sol h hentry hl hb heq hrest hright hadmits
  simp only [Frame.act]
  cases he : i.effect env.value w with
  | assign d n w₁ =>
    have hd := Instr.dest?_of_assign he
    have hnew := hwrite n fun d' hd' m hm => by
      cases hd.symm.trans hd'
      exact sol.eq_of_assign h hentry hl hb heq hi hright he hm
    rwa [hd] at hnew
  | pass w₁ =>
    have hd := Instr.dest?_of_pass hi he
    have hnew := hwrite 0 fun d' hd' => by
      rw [hd] at hd'
      cases hd'
    rwa [hd] at hnew
  | call d g args =>
    -- Nothing is known of what a call returns, so its definition stays.
    have hnone : ∀ d', i.dest? = some d' → s.constOf? d' = none := fun d' hd' => by
      obtain ⟨_, rfl⟩ := Instr.eq_call_of_effect he
      exact sol.constOf?_of_kept hl hb hmem rfl hd'
    refine ⟨.waiting hl hb heq hrest hright hadmits hnone, fun v => ?_⟩
    rw [Caller.resume_eq, ← Instr.dest?_of_call he]
    exact hwrite _ fun d' hd' m hm => by
      rw [hnone d' hd'] at hm
      cases hm
  | trap e => trivial

/-- Leaving a block keeps the invariant. -/
theorem Holds.act_term (h : f.IsSsa) (hentry : f.EntryPhiFree) (hl : l ∈ s.blocks)
    (hb : f.block? l = some b) (hright : s.Right f l b.instrs env) (hadmits : s.Admits env)
    (w : World) : (Frame.act ⟨f, l, [], b.term, env⟩ w).Keeps (s.Holds f) := by
  obtain ⟨t, ht⟩ := Option.ne_none_iff_exists'.1 (h.wf.closed hb)
  simp only [Frame.act, ht]
  cases hexit : t.exit env.value with
  | leave v => trivial
  | goto x =>
    have he := sol.mem_edges_of_exit h hentry hl hb ht hright hexit
    obtain ⟨hx, hnext⟩ := sol.edge _ _ he
    obtain ⟨c, hc⟩ := Func.exists_block.1 (sol.block x hx)
    simp only [Frame.leaveBy, Frame.goto, h.wf.enter_eq env hc hnext]
    exact .of_edge sol h hentry hl hb he hc hright hadmits

/-- One step keeps the invariant, also for the activation that a call leaves waiting. -/
theorem Holds.act (h : f.IsSsa) (hentry : f.EntryPhiFree) (hfr : s.Holds f fr) (w : World) :
    (fr.act w).Keeps (s.Holds f) := by
  cases hfr with
  | @mk l b pre rest env hl hb heq hrest hright hadmits =>
    cases rest with
    | cons i rest => exact act_instr sol h hentry hl hb heq hrest hright hadmits w
    | nil =>
      rw [List.append_nil] at heq
      subst heq
      exact act_term sol h hentry hl hb hright hadmits w

/-- The invariant holds of all activations of the function in a run. -/
theorem holds_of_visits (h : f.IsSsa) (hentry : f.EntryPhiFree) {p : Program} {spec : RunSpec}
    {st : State} (hst : p.Visits spec st) (hfr : fr ∈ st.activationsNow) (hfunc : fr.func = f) :
    s.Holds f fr := by
  have hall := hst.invariant (I := fun fr => fr.func = f → s.Holds f fr)
    (fun g args fr hfr hfunc => by
      cases (Frame.func_of_enter hfr).symm.trans hfunc
      exact holds_start sol h hentry hfr)
    (fun fr w hold => by
      by_cases hfunc : fr.func = f
      · exact ((hold hfunc).act sol h hentry w).imp fun _ hr _ => hr
      · exact (fr.func_of_act w).imp fun _ hsame hr => absurd (hsame.symm.trans hr) hfunc)
  rcases List.mem_cons.1 hfr with rfl | hfr
  · exact hall.1 hfunc
  · obtain ⟨k, hk, rfl⟩ := List.mem_map.1 hfr
    exact (hall.2 k hk).1 hfunc

theorem Holds.edge (h : f.IsSsa) (hentry : f.EntryPhiFree) (hfr : s.Holds f fr) (hl : fr.Takes l) :
    (fr.block, l) ∈ s.edges := by
  obtain ⟨hcode, t, ht, hexit⟩ := hl
  cases hfr with
  | mk hblock hb heq _ hright _ =>
    cases hcode
    rw [List.append_nil] at heq
    subst heq
    exact sol.mem_edges_of_exit h hentry hblock hb ht hright hexit

end

end Facts

/-! ## The theorems -/

namespace Func

/-- A function in which no phi is found, with a loop in which a constant goes round. -/
def steadyLoop : Func where
  name := "main"
  params := ["n"]
  ssa := true
  blocks := Table.ofList [
    ("entry",
      { name := "entry", term := some (.jump "loop"), instrs := [.copy ⟨"k", some 1⟩ (.const 3)] }),
    ("loop",
      { name := "loop", preds := ["entry", "loop"],
        term := some (.branch (.var ⟨"i", some 2⟩) "loop" "done"),
               instrs := [.phi ⟨⟨"i", some 1⟩,
                 [⟨"entry", .var ⟨"n", some 0⟩⟩, ⟨"loop", .var ⟨"i", some 2⟩⟩]⟩,
                          .phi ⟨⟨"k", some 2⟩,
                            [⟨"entry", .var ⟨"k", some 1⟩⟩, ⟨"loop", .var ⟨"k", some 2⟩⟩]⟩,
                          .binary ⟨"i", some 2⟩ "sub" (.var ⟨"i", some 1⟩) (.var ⟨"k", some 2⟩)] }),
    ("done",
      { name := "done", preds := ["loop"], term := some (.ret (some (.var ⟨"k", some 2⟩))) })]

/-- A phi without operands at an entry that nothing leads to, and a branch on it. -/
def entryPhi : Func where
  name := "main"
  params := []
  ssa := true
  blocks := Table.ofList [
    ("entry", { name := "entry", term := some (.branch (.var ⟨"y", some 1⟩) "some" "none"),
                instrs := [.phi ⟨⟨"x", some 1⟩, []⟩, .copy ⟨"y", some 1⟩ (.var ⟨"x", some 1⟩)] }),
    ("some",
      { name := "some", preds := ["entry"], term := some (.ret none),
        instrs := [.write (.const 1)] }),
    ("none",
      { name := "none", preds := ["entry"], term := some (.ret none),
        instrs := [.write (.const 2)] })]

/-- What the search for constants says holds in every run of every program: an activation of the
function is in a block and takes an edge that the search found, and whatever variable it has
assigned is not found to be constant or holds the constant. -/
theorem findConstants_sound (f : Func) (hssa : f.checkSsa = .ok ()) (hentry : f.EntryPhiFree) :
    ∃ s, Edit.findConstants.Yields f s f ∧
      ∀ (p : Program) spec st, p.Visits spec st → ∀ fr ∈ st.activationsNow, fr.func = f →
        fr.block ∈ s.blocks ∧ (∀ l, fr.Takes l → (fr.block, l) ∈ s.edges) ∧ s.Admits fr.env := by
  have h := isSsa_iff.2 hssa
  have sol := h.wf.facts_solves
  refine ⟨f.facts, h.wf.findConstants, fun p spec st hst fr hfr hfunc => ?_⟩
  have hold := Facts.holds_of_visits sol h hentry hst hfr hfunc
  refine ⟨?_, fun l hl => hold.edge sol h hentry hl, ?_⟩
  · cases hold with
    | mk hl => exact hl
  · cases hold with
    | mk _ _ _ _ _ hadmits => exact hadmits

theorem findConstants_sound_steadyLoop :
    ∃ s, Edit.findConstants.Yields steadyLoop s steadyLoop ∧ ∀ (p : Program) spec st,
      p.Visits spec st →
      ∀ fr ∈ st.activationsNow, fr.func = steadyLoop →
        fr.block ∈ s.blocks ∧ (∀ l, fr.Takes l → (fr.block, l) ∈ s.edges) ∧ s.Admits fr.env :=
  findConstants_sound steadyLoop rfl (by decide)

/-- A phi at the entry that no edge brings a value for: a run assigns `y` the number 0, but the
search still waits for evidence about it. -/
theorem findConstants_unsound_entryPhi :
    entryPhi.checkSsa = .ok () ∧ (∃ b, entryPhi.block? entryPhi.entry = some b ∧ b.preds = []) ∧
      Edit.findConstants.Yields entryPhi entryPhi.facts entryPhi ∧
      entryPhi.facts.values.get? ⟨"y", some 1⟩ = some .top ∧
      ∃ st, Program.Visits ⟨Table.ofList [("main", entryPhi)]⟩ {} st ∧ st.frame.func = entryPhi ∧
        st.frame.env.get? ⟨"y", some 1⟩ = some 0 :=
  ⟨rfl, ⟨_, rfl, rfl⟩, ⟨rfl, rfl⟩, rfl, _, .step (.start rfl) rfl, rfl, rfl⟩

/-- Constants can be put into any function in SSA form. The result is in SSA form again, and all of
it can be reached. Whatever program the function is in, a run that ends within its budget ends alike
with the result in its place, and takes no more steps. -/
theorem propagateConstants_runs (f : Func) (hssa : f.checkSsa = .ok ()) (hentry : f.EntryPhiFree) :
    ∃ r f', Edit.propagateConstants.Yields f r f' ∧ f'.checkSsa = .ok () ∧
      (∀ l ∈ f'.blocks, f'.graph.Reachable l) ∧
      ∀ p p' key, Replaces p p' key f f' → ∀ spec, (p.run spec).Finished →
        (p'.run spec).ending = (p.run spec).ending ∧ (p'.run spec).steps ≤ (p.run spec).steps := by
  have h := isSsa_iff.2 hssa
  have sol := h.wf.facts_solves
  obtain ⟨report, hyields⟩ := h.propagateConstants
  refine ⟨_, _, hyields, isSsa_iff.1 (h.propagated sol hentry),
    fun l hl => reachable_propagated sol h.wf hl, ?_⟩
  intro p p' key rep spec hfin
  exact (propagated_simulation sol h hentry).noSlower.run_le rep hfin

theorem propagateConstants_runs_steadyLoop :
    ∃ r f', Edit.propagateConstants.Yields steadyLoop r f' ∧ f'.checkSsa = .ok () ∧
      (∀ l ∈ f'.blocks, f'.graph.Reachable l) ∧
      ∀ p p' key, Replaces p p' key steadyLoop f' → ∀ spec, (p.run spec).Finished →
        (p'.run spec).ending = (p.run spec).ending ∧ (p'.run spec).steps ≤ (p.run spec).steps :=
  propagateConstants_runs steadyLoop rfl (by decide)

/-- With a phi at the entry, a branch that waits for evidence loses both its arms: the function
leads nowhere, and a run that wrote 2 fails. -/
theorem propagateConstants_breaks_entryPhi :
    entryPhi.checkSsa = .ok () ∧ (∃ b, entryPhi.block? entryPhi.entry = some b ∧ b.preds = []) ∧
      ∃ r f', Edit.propagateConstants.Yields entryPhi r f' ∧ f'.checkSsa ≠ .ok () ∧
        (Program.run ⟨Table.ofList [("main", entryPhi)]⟩ {}).ending = ⟨.ok none, #[2], ∅⟩ ∧
        (Program.run ⟨Table.ofList [("main", f')]⟩ {}).ending
          = ⟨.error (.fault (.malformed (.unknownBlock "main" "none"))), #[], ∅⟩ :=
  ⟨rfl, ⟨_, rfl, rfl⟩, _, _, ⟨rfl, rfl⟩, by decide, rfl, rfl⟩

end Func

end ThreeAddress
