import ThreeAddress.Proofs.EntryBlock
import ThreeAddress.Proofs.SsaForm
import ThreeAddress.Ssa.DeadPhis

/-!
# Deleting dead phis

Where phis with the same result read the same variables, the result of a dead phi is read by dead
phis only (`PhisAgree.live_of_phi`). So without them activations go on as before, with variables
that agree off the results of dead phis (`withoutDeadPhis_lockstep`), and SSA form stays
(`SsaForm.withoutDeadPhis`).
-/

namespace ThreeAddress

variable {v : Var} {instrs : List Instr} {i : Instr}

/-- An instruction is known by what it defines. -/
theorem eq_of_dest? (nodup : (destsOf instrs).Nodup) {j : Instr} (hi : i ∈ instrs) (hj : j ∈ instrs)
    (hiv : i.dest? = some v) (hjv : j.dest? = some v) : i = j := by
  induction instrs with
  | nil => cases hi
  | cons k rest ih =>
    cases hk : k.dest? with
    | none =>
      rw [destsOf, List.filterMap_cons_none hk] at nodup
      have hne : ∀ m : Instr, m.dest? = some v → m ≠ k := by
        rintro m hm rfl
        rw [hk] at hm
        cases hm
      exact ih nodup ((List.mem_cons.1 hi).resolve_left (hne i hiv))
        ((List.mem_cons.1 hj).resolve_left (hne j hjv))
    | some w =>
      rw [destsOf, List.filterMap_cons_some hk, List.nodup_cons] at nodup
      have hrest : ∀ m ∈ rest, m.dest? = some v → k.dest? ≠ some v := by
        intro m hm hmv hkv
        cases hk.symm.trans hkv
        exact nodup.1 (mem_destsOf.2 ⟨m, hm, hmv⟩)
      rcases List.mem_cons.1 hi with rfl | hi'
      · rcases List.mem_cons.1 hj with rfl | hj'
        · rfl
        · exact absurd hiv (hrest j hj' hjv)
      · rcases List.mem_cons.1 hj with rfl | hj'
        · exact absurd hjv (hrest i hi' hiv)
        · exact ih nodup.2 hi' hj'

/-- The block without the phis whose results are not live. -/
def Block.keepLive (live : List Var) (b : Block) : Block :=
  { b with instrs := b.instrs.filter (!Func.isDeadPhi live ·) }

namespace Func

variable {f : Func} {l : Label} {b : Block} {φ : Phi} {env env' : Env}

/-! ## What is live -/

/-- What an instruction that is no phi reads is live. -/
theorem live_of_use (hb : f.block? l = some b) (hi : i ∈ b.instrs) (hphi : i.isPhi = false)
    (hv : .var v ∈ i.uses) : v ∈ f.liveVars := by
  refine List.mem_append_left _ (List.mem_flatMap.2 ⟨.instr i, mem_nodes_instr.2 ⟨l, b, hb, hi⟩,
    ?_⟩)
  cases i with
  | phi φ => cases hphi
  | _ => exact List.mem_filterMap.2 ⟨.var v, hv, rfl⟩

theorem live_of_termUse {t : Terminator} (hb : f.block? l = some b) (ht : b.term = some t)
    (hv : .var v ∈ t.uses) : v ∈ f.liveVars :=
  List.mem_append_left _ (List.mem_flatMap.2 ⟨.term t, mem_nodes_term hb ht,
    List.mem_filterMap.2 ⟨.var v, hv, rfl⟩⟩)

/-- A phi defines the variable. -/
def HasPhi (f : Func) (v : Var) : Prop := ∃ l b φ, f.block? l = some b ∧ .phi φ ∈ b.instrs ∧
    φ.dest = v

theorem of_get?_phiTable (h : f.phiTable.get? v = some φ) :
    φ.dest = v ∧ ∃ l b, f.block? l = some b ∧ .phi φ ∈ b.instrs := by
  obtain ⟨n, hn, heq⟩ := List.mem_filterMap.1 (Table.mem_of_get?_ofList h)
  cases n with
  | term t => cases heq
  | instr i =>
    cases i with
    | phi ψ =>
      cases heq
      exact ⟨rfl, mem_nodes_instr.1 hn⟩
    | _ => cases heq

theorem mem_phiTable : v ∈ f.phiTable ↔ f.HasPhi v := by
  constructor
  · intro h
    obtain ⟨φ, hφ⟩ := Table.mem_iff_get?.1 h
    obtain ⟨hd, l, b, hb, hi⟩ := of_get?_phiTable hφ
    exact ⟨l, b, φ, hb, hi, hd⟩
  · rintro ⟨l, b, φ, hb, hφ, rfl⟩
    refine Table.mem_ofList.2 (List.mem_map.2 ⟨(φ.dest, φ),
      List.mem_filterMap.2 ⟨.instr (.phi φ), ?_, rfl⟩, rfl⟩)
    exact mem_nodes_instr.2 ⟨l, b, hb, hφ⟩

/-- Phis with the same result read the same variables. -/
def PhisAgree (f : Func) : Prop :=
  ∀ φ φ' : Phi, .instr (.phi φ) ∈ f.nodes → .instr (.phi φ') ∈ f.nodes → φ.dest = φ'.dest →
    ∀ v, .var v ∈ (Instr.phi φ).uses → .var v ∈ (Instr.phi φ').uses

/-- Where all blocks can be reached no two phis have the same result. -/
theorem DefinedOnce.phisAgree (once : f.DefinedOnce)
    (reachable : ∀ l ∈ f.blocks, f.graph.Reachable l) : f.PhisAgree := by
  intro φ φ' hφ hφ' hdest v hv
  obtain ⟨l, b, hb, hφ⟩ := mem_nodes_instr.1 hφ
  obtain ⟨l', b', hb', hφ'⟩ := mem_nodes_instr.1 hφ'
  have hl := reachable l (mem_blocks hb)
  have hsame : l = l' := once.apart hl (reachable l' (mem_blocks hb')) ⟨b, hb,
    mem_destsOf.2 ⟨_, hφ, rfl⟩⟩
    ⟨b', hb', mem_destsOf.2 ⟨_, hφ', congrArg some hdest.symm⟩⟩
  subst hsame
  cases hb.symm.trans hb'
  cases eq_of_dest? (once.nodup hl hb) hφ hφ' (congrArg some hdest) rfl
  exact hv

/-- What a live phi reads is live, or defined by no phi. -/
theorem PhisAgree.live_of_phi (agree : f.PhisAgree) (hb : f.block? l = some b)
    (hφ : .phi φ ∈ b.instrs) (hlive : φ.dest ∈ f.liveVars) (hv : .var v ∈ (Instr.phi φ).uses)
    (hphi : f.HasPhi v) : v ∈ f.liveVars := by
  have hmem : φ.dest ∈ f.phiTable := mem_phiTable.2 ⟨l, b, φ, hb, hφ, rfl⟩
  obtain ⟨hstart, hclosed⟩ := @closure_closed _ _ f.phiTable.keys (phiSources f.phiTable)
    (f.directUses.filter (· ∈ f.phiTable)) (fun w hw => of_decide_eq_true (List.mem_filter.1 hw).2)
      fun w _ u hu => by
      unfold phiSources at hu
      split at hu
      · cases hu
      · exact of_decide_eq_true (List.mem_filter.1 hu).2
  have hin : φ.dest ∈ closure f.phiTable.keys (phiSources f.phiTable)
      (f.directUses.filter (· ∈ f.phiTable)) := by
    rcases List.mem_append.1 hlive with h | h
    · exact hstart _ (List.mem_filter.2 ⟨h, decide_eq_true hmem⟩)
    · exact h
  refine List.mem_append_right _ (hclosed _ hin v ?_)
  -- the table may have another phi with the same result
  obtain ⟨ψ, hψ⟩ := Table.mem_iff_get?.1 hmem
  obtain ⟨hdest, hψ'⟩ := of_get?_phiTable hψ
  obtain ⟨a, ha, hval⟩ := List.mem_map.1
    (agree φ ψ (mem_nodes_instr.2 ⟨l, b, hb, hφ⟩) (mem_nodes_instr.2 hψ') hdest.symm v hv)
  rw [phiSources, hψ]
  refine List.mem_filter.2 ⟨List.mem_filterMap.2 ⟨a, ha, ?_⟩, decide_eq_true (mem_phiTable.2 hphi)⟩
  rw [hval]
  rfl

/-! ## The function without dead phis -/

theorem isDeadPhi_eq_false {live : List Var} (h : i.isPhi = false) : isDeadPhi live i = false := by
  cases i with
  | phi φ => cases h
  | _ => rfl

theorem keepLive_spec (h : b.Tidy) (live : List Var) :
    (b.keepLive live).phis = b.phis.filter (fun φ => decide (φ.dest ∈ live)) ∧
      (b.keepLive live).body = b.body ∧
      (b.keepLive live).Tidy := by
  have hbody : ∀ i ∈ b.body, i.isPhi = false := fun i hi => b.isPhi_of_mem_body hi
  refine Block.tidy_of_eq ?_ hbody fun φ hφ => h.labels_eq φ (List.mem_filter.1 hφ).1
  show b.instrs.filter _ = _
  conv => lhs; rw [h.instrs_eq]
  rw [List.filter_append, List.filter_map]
  congr 1
  · congr 1
    apply List.filter_congr
    intro φ _
    simp [isDeadPhi]
  · rw [List.filter_eq_self]
    intro i hi
    simp [isDeadPhi_eq_false (hbody i hi)]

theorem graph_withoutDeadPhis (f : Func) : f.withoutDeadPhis.1.graph = f.graph :=
  graph_rewrite fun _ _ _ => rfl

theorem WellFormed.withoutDeadPhis (wf : f.WellFormed) : f.withoutDeadPhis.1.WellFormed :=
  wf.rewrite fun _ _ _ => ⟨rfl, rfl, rfl, fun h => h, fun h => (keepLive_spec h f.liveVars).2.2⟩

theorem of_block?_withoutDeadPhis {b' : Block} (h : f.withoutDeadPhis.1.block? l = some b') :
    ∃ b, f.block? l = some b ∧ b' = b.keepLive f.liveVars :=
  of_block?_rewrite h

theorem block?_withoutDeadPhis (h : f.block? l = some b) :
    f.withoutDeadPhis.1.block? l = some (b.keepLive f.liveVars) :=
  block?_rewrite_of_some _ h

/-- The variable is not the result of a dead phi. -/
def Kept (f : Func) (v : Var) : Prop := f.HasPhi v → v ∈ f.liveVars

theorem mem_dests_of_kept (hb : f.block? l = some b) (hsub : ∀ i ∈ instrs, i ∈ b.instrs)
    (hv : v ∈ destsOf instrs) (hkept : f.Kept v) :
    v ∈ destsOf (instrs.filter (!isDeadPhi f.liveVars ·)) := by
  obtain ⟨i, hi, hdest⟩ := mem_destsOf.1 hv
  refine mem_destsOf.2 ⟨i, List.mem_filter.2 ⟨hi, ?_⟩, hdest⟩
  cases i with
  | phi φ =>
    cases hdest
    simp [isDeadPhi, hkept ⟨l, b, φ, hb, hsub _ hi, rfl⟩]
  | _ => rfl

theorem defines_of_withoutDeadPhis (h : f.withoutDeadPhis.1.Defines l v) : f.Defines l v := by
  obtain ⟨b', hb', hv⟩ := h
  obtain ⟨b, hb, rfl⟩ := of_block?_withoutDeadPhis hb'
  exact ⟨b, hb, (List.filter_sublist.filterMap _).subset hv⟩

theorem Defines.withoutDeadPhis (h : f.Defines l v) (hkept : f.Kept v) :
    f.withoutDeadPhis.1.Defines l v := by
  obtain ⟨b, hb, hv⟩ := h
  exact ⟨_, block?_withoutDeadPhis hb, mem_dests_of_kept hb (fun _ hi => hi) hv hkept⟩

theorem AvailIn.withoutDeadPhis (h : f.AvailIn l v) (hkept : f.Kept v) :
    f.withoutDeadPhis.1.AvailIn l v := by
  rcases h with h | ⟨a, ha, hdef⟩
  · exact .inl h
  · refine .inr ⟨a, ?_, hdef.withoutDeadPhis hkept⟩
    rw [graph_withoutDeadPhis]
    exact ha

theorem AvailOut.withoutDeadPhis (h : f.AvailOut l v) (hkept : f.Kept v) :
    f.withoutDeadPhis.1.AvailOut l v :=
  h.imp (·.withoutDeadPhis hkept) (·.withoutDeadPhis hkept)

theorem DefinedOnce.withoutDeadPhis (once : f.DefinedOnce) : f.withoutDeadPhis.1.DefinedOnce := by
  refine once.of_sublist rfl (fun l hl => graph_withoutDeadPhis f ▸ hl) fun l b' hb' => ?_
  obtain ⟨b, hb, rfl⟩ := of_block?_withoutDeadPhis hb'
  exact ⟨b, hb, List.filter_sublist.filterMap _⟩

/-- SSA form stays: what is read stays defined. -/
theorem SsaForm.withoutDeadPhis (h : f.SsaForm) (wf : f.WellFormed) (agree : f.PhisAgree) :
    f.withoutDeadPhis.1.SsaForm where
  toDefinedOnce := h.toDefinedOnce.withoutDeadPhis
  use {l b' pre i post v} hl hb' heq hi hv := by
    rw [graph_withoutDeadPhis] at hl
    obtain ⟨b, hb, rfl⟩ := of_block?_withoutDeadPhis hb'
    obtain ⟨xs, ys, hinstrs, rfl, hys⟩ := List.filter_eq_append_iff.1 heq
    obtain ⟨dead, rest, rfl, hdead, _, _⟩ := List.filter_eq_cons_iff.1 hys
    rw [← List.append_assoc] at hinstrs
    have hmem : i ∈ b.instrs := hinstrs ▸ List.mem_append_right _ (.head _)
    have hkept : f.Kept v := fun _ => live_of_use hb hmem hi hv
    rcases h.use hl hb hinstrs hi hv with havail | hdest
    · exact .inl (havail.withoutDeadPhis hkept)
    · have hmem' := mem_dests_of_kept hb (fun j hj => hinstrs ▸ List.mem_append_left _ hj) hdest
        hkept
      rw [List.filter_append, List.filter_eq_nil_iff.2 hdead, List.append_nil] at hmem'
      exact .inr hmem'
  termUse {l b' t v} hl hb' ht hv := by
    rw [graph_withoutDeadPhis] at hl
    obtain ⟨b, hb, rfl⟩ := of_block?_withoutDeadPhis hb'
    exact (h.termUse hl hb ht hv).withoutDeadPhis fun _ => live_of_termUse hb ht hv
  phiUse {l b' φ a v} hl hb' hφ ha hp hv := by
    rw [graph_withoutDeadPhis] at hl hp
    obtain ⟨b, hb, rfl⟩ := of_block?_withoutDeadPhis hb'
    rw [(keepLive_spec (wf.tidy hb) _).1] at hφ
    obtain ⟨hφ, hlive⟩ := List.mem_filter.1 hφ
    refine (h.phiUse hl hb hφ ha hp hv).withoutDeadPhis fun hphi => ?_
    exact agree.live_of_phi hb ((wf.tidy hb).phi_mem_iff.2 hφ) (of_decide_eq_true hlive)
      (List.mem_map.2 ⟨a, ha, hv⟩) hphi

theorem UndefinedAcyclic.withoutDeadPhis (h : f.UndefinedAcyclic) (wf : f.WellFormed) :
    f.withoutDeadPhis.1.UndefinedAcyclic := by
  intro l b' φ a hl hb' hφ ha hvalue hpath
  obtain ⟨b, hb, rfl⟩ := of_block?_withoutDeadPhis hb'
  rw [(keepLive_spec (wf.tidy hb) _).1] at hφ
  rw [graph_withoutDeadPhis] at hl hpath
  exact h l b φ a hl hb (List.mem_filter.1 hφ).1 ha hvalue hpath

/-! ## The function runs as before -/

/-- What relates activations: they are at the same place, with variables that agree off the results
of dead phis. -/
inductive OffDead (f : Func) : Frame → Frame → Prop
  | mk {l : Label} {b : Block} {rest : List Instr} {env env' : Env} : f.graph.Reachable l →
    f.block? l = some b →
    (∀ i ∈ rest, i ∈ b.body) → (∀ v, f.Kept v → env'.getD v 0 = env.getD v 0) →
    OffDead f ⟨f, l, rest, b.term, env⟩ ⟨f.withoutDeadPhis.1, l, rest, b.term, env'⟩

theorem value_of_kept (h : ∀ v, f.Kept v → env'.getD v 0 = env.getD v 0) {x : Operand}
    (hx : ∀ v, x = .var v → f.Kept v) : env'.value x = env.value x :=
  Env.value_congr fun v hv => h v (hx v hv)

theorem mem_instrs_of_body (h : i ∈ b.body) : i ∈ b.instrs := (List.mem_filter.1 h).1

/-- Phis that are kept assign what they did. -/
theorem kept_assign (once : f.DefinedOnce) (wf : f.WellFormed) (agree : f.PhisAgree) {p : Label}
    (hl : f.graph.Reachable l) (hb : f.block? l = some b)
    (h : ∀ v, f.Kept v → env'.getD v 0 = env.getD v 0) (v : Var) (hv : f.Kept v) :
    (env'.assign (phiAssignments env' p (b.keepLive f.liveVars).phis)).getD v 0
      = (env.assign (phiAssignments env p b.phis)).getD v 0 := by
  have hphis := (keepLive_spec (wf.tidy hb) f.liveVars).1
  have hnodup : (b.phis.map (·.dest)).Nodup := once.nodup_phis hl hb (wf.tidy hb)
  by_cases hmem : v ∈ b.phis.map (·.dest)
  · obtain ⟨φ, hφ, rfl⟩ := List.mem_map.1 hmem
    have hinstr : .phi φ ∈ b.instrs := (wf.tidy hb).phi_mem_iff.2 hφ
    have hlive : φ.dest ∈ f.liveVars := hv ⟨l, b, φ, hb, hinstr, rfl⟩
    have hvalue : env'.value (φ.operand p) = env.value (φ.operand p) := by
      refine value_of_kept h fun w hw hphi => ?_
      obtain ⟨a, ha, _, hval⟩ := Phi.mem_incoming_of_operand hw (Operand.noConfusion)
      exact agree.live_of_phi hb hinstr hlive (List.mem_map.2 ⟨a, ha, hval⟩) hphi
    rw [getD_phiAssignments _ _ _ hnodup hφ, hphis,
      getD_phiAssignments _ _ _ _ (List.mem_filter.2 ⟨hφ, decide_eq_true hlive⟩), hvalue]
    exact hnodup.sublist (List.filter_sublist.map _)
  · rw [getD_phiAssignments_of_not_mem hmem, hphis, getD_phiAssignments_of_not_mem, h v hv]
    exact fun hv' => hmem ((List.filter_sublist.map _).subset hv')

theorem withoutDeadPhis_lockstep (once : f.DefinedOnce) (wf : f.WellFormed) (agree : f.PhisAgree) :
    Lockstep f f.withoutDeadPhis.1 0 (OffDead f) where
  start args := by
    obtain ⟨b, hb⟩ := exists_block.1 wf.entry_mem
    have hb' : f.withoutDeadPhis.1.block? f.withoutDeadPhis.1.entry
        = some (b.keepLive f.liveVars) :=
      block?_withoutDeadPhis hb
    refine ⟨_, _, _, start_eq hb args, start_eq hb' args, fun _ => .refl, ?_⟩
    rw [(keepLive_spec (wf.tidy hb) _).2.1]
    exact .mk Graph.reachable_entry hb (fun _ hi => hi) fun _ _ => rfl
  step fr fr' w hr := by
    cases hr with
    | @mk l b rest env env' hl hb hrest hagree =>
      cases rest with
      | cons i rest =>
        have hi := hrest i (.head _)
        have hphi : i.isPhi = false := b.isPhi_of_mem_body hi
        have heffect : i.effect env'.value w = i.effect env.value w :=
          Instr.effect_congr hphi w fun x hx => value_of_kept hagree fun v hv _ =>
            live_of_use hb (mem_instrs_of_body hi) hphi (hv ▸ hx)
        exact agree_instr_self rfl hphi heffect fun n =>
          .mk hl hb (fun j hj => hrest j (.tail _ hj)) fun v hv =>
            Env.getD_write_congr (hagree v hv) i.dest? n
      | nil =>
        obtain ⟨t, ht⟩ := Option.ne_none_iff_exists'.1 (wf.closed hb)
        rw [ht]
        have hexit : t.exit env'.value = t.exit env.value :=
          Terminator.exit_congr fun x hx => value_of_kept hagree fun v hv _ =>
            live_of_termUse hb ht (hv ▸ hx)
        refine agree_exit hexit fun s hgoto => ?_
        have hs : s ∈ f.graph.next l := by
          rw [next_graph hb, Block.successors, ht]
          exact Terminator.mem_targets_of_exit hgoto
        obtain ⟨c, hc⟩ := wf.block_of_reachable (hl.step hs)
        have henter := wf.withoutDeadPhis.enter_eq env' (block?_withoutDeadPhis hc)
          ((graph_withoutDeadPhis f).symm ▸ hs)
        rw [(keepLive_spec (wf.tidy hc) _).2.1] at henter
        exact ⟨_, _, wf.enter_eq env hc hs, henter,
          .mk (hl.step hs) hc (fun _ hi => hi) (kept_assign once wf agree (hl.step hs) hc hagree)⟩

end Func

end ThreeAddress
