import ThreeAddress.Proofs.EnterSsa

/-!
# The phis that are needed

A value is needed if an instruction that is no phi, or a terminator, reads it, or a phi whose result
is needed. Where phis with the same result read the same variables, these are exactly the results of
phis that count as live (`PhisAgree.mem_liveVars_iff`). So pruning deletes exactly the other phis,
and nothing can tell (`pruneDeadPhis_exact`).

In code that cannot be reached a phi may have the result of another phi. The table of phis keeps one
of the two, what only the other reads counts as dead, and pruning takes the value away from it
(`pruneDeadPhis_breaks_overshadowed`).
-/

namespace ThreeAddress

namespace Func

variable {f : Func} {v : Var} {l : Label} {i : Instr}

/-- The value reaches an instruction that is no phi, or a terminator: directly, or through phis. -/
inductive Needed (f : Func) : Var → Prop
  | read {n : Node} {v : Var} : n ∈ f.nodes → (∀ φ, n ≠ .instr (.phi φ)) → .var v ∈ n.uses →
    Needed f v
  | phi {φ : Phi} {v : Var} : .instr (.phi φ) ∈ f.nodes → Needed f φ.dest →
    .var v ∈ (Instr.phi φ).uses → Needed f v

/-- A phi whose result is not needed. -/
def IsDead (f : Func) (i : Instr) : Prop := ∃ φ, i = .phi φ ∧ ¬ f.Needed φ.dest

theorem mem_directUses :
    v ∈ f.directUses ↔ ∃ n ∈ f.nodes, (∀ φ, n ≠ .instr (.phi φ)) ∧ .var v ∈ n.uses := by
  have hvar : ∀ uses : List Operand, v ∈ uses.filterMap Operand.var? ↔ .var v ∈ uses := by
    intro uses
    rw [List.mem_filterMap]
    constructor
    · rintro ⟨x, hx, hv⟩
      cases x with
      | var w =>
        cases hv
        exact hx
      | _ => cases hv
    · intro hv
      exact ⟨.var v, hv, rfl⟩
  rw [directUses, List.mem_flatMap]
  refine exists_congr fun n => and_congr_right fun _ => ?_
  cases n with
  | term t => simpa using! hvar t.uses
  | instr i =>
    cases i with
    | phi φ => simp
    | _ => simpa using! hvar _

/-- Only what is needed counts as live. -/
theorem needed_of_mem_liveVars (h : v ∈ f.liveVars) : f.Needed v := by
  have hdirect : ∀ v ∈ f.directUses, f.Needed v := fun v hv => by
    obtain ⟨n, hn, hphi, hv⟩ := mem_directUses.1 hv
    exact .read hn hphi hv
  rcases List.mem_append.1 h with h | h
  · exact hdirect v h
  · refine closure_least (fun w hw => hdirect w (List.mem_filter.1 hw).1) (fun w hw u hu => ?_) v h
    rw [phiSources] at hu
    split at hu
    · cases hu
    · rename_i φ hφ
      obtain ⟨rfl, hmem⟩ := of_get?_phiTable hφ
      obtain ⟨a, ha, hvar⟩ := List.mem_filterMap.1 (List.mem_filter.1 hu).1
      refine .phi (mem_nodes_instr.2 hmem) hw (List.mem_map.2 ⟨a, ha, ?_⟩)
      generalize a.value = x at hvar ⊢
      cases x with
      | var w => exact congrArg Operand.var (Option.some.inj hvar)
      | _ => cases hvar

/-- The result of a phi counts as live if and only if it is needed. -/
theorem PhisAgree.mem_liveVars_iff (agree : f.PhisAgree) (hphi : f.HasPhi v) :
    v ∈ f.liveVars ↔ f.Needed v := by
  refine ⟨needed_of_mem_liveVars, fun h => ?_⟩
  induction h with
  | read hn hno hv => exact List.mem_append_left _ (mem_directUses.2 ⟨_, hn, hno, hv⟩)
  | phi hφ _ hv ih =>
    obtain ⟨l, b, hb, hφ⟩ := mem_nodes_instr.1 hφ
    exact agree.live_of_phi hb hφ (ih ⟨l, b, _, hb, hφ, rfl⟩) hv hphi

theorem PhisAgree.isDeadPhi_iff (agree : f.PhisAgree) {b : Block} (hb : f.block? l = some b)
    (hi : i ∈ b.instrs) : isDeadPhi f.liveVars i = true ↔ f.IsDead i := by
  cases i with
  | phi φ =>
    rw [isDeadPhi, decide_eq_true_iff, agree.mem_liveVars_iff ⟨l, b, φ, hb, hi, rfl⟩]
    constructor
    · intro h
      exact ⟨φ, rfl, h⟩
    · rintro ⟨_, heq, h⟩
      exact Instr.phi.inj heq ▸ h
  | _ =>
    constructor
    · intro h
      cases h
    · rintro ⟨_, heq, _⟩
      cases heq

/-! ## Pruning -/

theorem PhisAgree.withoutDeadPhis (agree : f.PhisAgree) : f.withoutDeadPhis.1.PhisAgree := by
  have hmem : ∀ {i}, .instr i ∈ f.withoutDeadPhis.1.nodes → .instr i ∈ f.nodes := by
    intro i hi
    obtain ⟨l, b', hb', hi⟩ := mem_nodes_instr.1 hi
    obtain ⟨b, hb, rfl⟩ := of_block?_withoutDeadPhis hb'
    exact mem_nodes_instr.2 ⟨l, b, hb, (List.mem_filter.1 hi).1⟩
  exact fun φ φ' hφ hφ' => agree φ φ' (hmem hφ) (hmem hφ')

/-- What was needed still is: the phis on the way to a use are needed themselves, and stay. -/
theorem PhisAgree.needed_withoutDeadPhis (agree : f.PhisAgree) (h : f.Needed v) :
    f.withoutDeadPhis.1.Needed v := by
  have hkept : ∀ {l b i}, f.block? l = some b → i ∈ b.instrs → ¬ f.IsDead i →
      .instr i ∈ f.withoutDeadPhis.1.nodes := by
    intro l b i hb hi hneeded
    refine mem_nodes_instr.2 ⟨l, _, block?_withoutDeadPhis hb, List.mem_filter.2 ⟨hi, ?_⟩⟩
    rw [← agree.isDeadPhi_iff hb hi, Bool.not_eq_true] at hneeded
    rw [hneeded]
    rfl
  induction h with
  | @read n v hn hno hv =>
    refine .read ?_ hno hv
    cases n with
    | instr i =>
      obtain ⟨l, b, hb, hi⟩ := mem_nodes_instr.1 hn
      refine hkept hb hi ?_
      rintro ⟨φ, heq, _⟩
      exact hno φ (congrArg _ heq)
    | term t =>
      obtain ⟨l, b, hb, ht⟩ := mem_nodes.1 hn
      refine mem_nodes.2 ⟨l, _, block?_withoutDeadPhis hb, ?_⟩
      rw [Block.nodes, List.mem_append] at ht ⊢
      exact ht.imp (fun h => by simp at h) fun h => h
  | @phi φ v hφ hdest hv ih =>
    obtain ⟨l, b, hb, hφ⟩ := mem_nodes_instr.1 hφ
    refine .phi (hkept hb hφ ?_) ih hv
    rintro ⟨_, heq, hdead⟩
    exact hdead (Instr.phi.inj heq ▸ hdest)

/-- A second pruning finds nothing. -/
theorem PhisAgree.pruned (agree : f.PhisAgree) {b' : Block}
    (hb' : f.withoutDeadPhis.1.block? l = some b') (hi : i ∈ b'.instrs) :
    isDeadPhi f.withoutDeadPhis.1.liveVars i = false := by
  rw [← Bool.not_eq_true, agree.withoutDeadPhis.isDeadPhi_iff hb' hi]
  rintro ⟨φ, rfl, hdead⟩
  obtain ⟨b, hb, rfl⟩ := of_block?_withoutDeadPhis hb'
  obtain ⟨hi, hlive⟩ := List.mem_filter.1 hi
  rw [Bool.not_eq_true', ← Bool.not_eq_true, agree.isDeadPhi_iff hb hi] at hlive
  refine hlive ⟨φ, rfl, fun hneeded => hdead (agree.needed_withoutDeadPhis hneeded)⟩

theorem withoutDeadPhis_of_pruned
    (h : ∀ l b, f.block? l = some b → ∀ i ∈ b.instrs, isDeadPhi f.liveVars i = false) :
    f.withoutDeadPhis = (f, 0) := by
  refine Prod.ext (mapBlocks_of_eq fun l b hb => ?_) (sumOf_eq_zero fun b hmem => ?_)
  · have hsame : b.instrs.filter (!isDeadPhi f.liveVars ·) = b.instrs := by
      rw [List.filter_eq_self]
      intro i hi
      rw [h l b hb i hi]
      rfl
    rw [hsame]
  · obtain ⟨l, hb⟩ := Table.mem_values.1 hmem
    rw [List.countP_eq_zero]
    intro i hi
    rw [h l b hb i hi]
    exact Bool.false_ne_true

open Classical in
/-- Pruning a function in SSA form deletes exactly the phis whose results are not needed, and
returns their number; all else in the function stays as it is. The result is in SSA form. In
whatever program the function is, runs are the same with the result in its place, to the step. A
second pruning changes nothing. -/
theorem pruneDeadPhis_exact (f : Func) (hssa : f.checkSsa = .ok ()) (agree : f.PhisAgree) :
    ∃ f', Edit.pruneDeadPhis.Yields f
      (sumOf (fun b => b.instrs.countP fun i => decide (f.IsDead i)) f.blockList) f' ∧
      f' = f.mapBlocks (fun b =>
        { b with instrs := b.instrs.filter fun i => decide (¬ f.IsDead i) }) ∧
      f'.checkSsa = .ok () ∧
      (∀ p p' key, Replaces p p' key f f' → ∀ spec, p'.run spec = p.run spec) ∧
      Edit.pruneDeadPhis.Yields f' 0 f' := by
  obtain ⟨hssa, wf, form⟩ := checkSsa_eq_ok.1 hssa
  have hyields := pruneDeadPhis_yields f
  have hcount : f.withoutDeadPhis.2 = sumOf (fun b => b.instrs.countP fun i => decide (f.IsDead i))
      f.blockList := by
    refine sumOf_congr fun b hmem => List.countP_congr fun i hi => ?_
    obtain ⟨l, hb⟩ := Table.mem_values.1 hmem
    rw [agree.isDeadPhi_iff hb hi, decide_eq_true_iff]
  rw [hcount] at hyields
  refine ⟨_, hyields, mapBlocks_congr fun l b hb => ?_, ?_, fun p p' key rep spec => ?_, ?_⟩
  · congr 1
    refine List.filter_congr fun i hi => ?_
    rw [Bool.eq_iff_iff, decide_eq_true_iff, ← agree.isDeadPhi_iff hb hi, Bool.not_eq_true',
      Bool.not_eq_true]
  · exact checkSsa_eq_ok.2 ⟨hssa, wf.withoutDeadPhis, form.withoutDeadPhis wf agree⟩
  · refine ((withoutDeadPhis_lockstep form.toDefinedOnce wf agree).program rep fun hr =>
      ?_).run_eq spec
    cases hr
    rfl
  · have hagain := pruneDeadPhis_yields f.withoutDeadPhis.1
    rwa [withoutDeadPhis_of_pruned fun l b hb i hi => agree.pruned hb hi] at hagain

/-- A loop whose counter goes through two phis, with two phis that feed each other only, and code
that cannot be reached. -/
def idlePair : Func where
  name := "main"
  params := ["n"]
  ssa := true
  blocks := Table.ofList [
    ("entry", { name := "entry", term := some (.jump "loop") }),
    ("loop",
      { name := "loop", preds := ["entry", "back"],
        term := some (.branch (.var ⟨"i", some 2⟩) "back" "done"),
               instrs := [.phi ⟨⟨"i", some 1⟩,
                 [⟨"entry", .var ⟨"n", some 0⟩⟩, ⟨"back", .var ⟨"i", some 3⟩⟩]⟩,
                          .phi ⟨⟨"k", some 1⟩, [⟨"entry", .const 0⟩, ⟨"back", .var ⟨"k", some 2⟩⟩]⟩,
                          .binary ⟨"i", some 2⟩ "sub" (.var ⟨"i", some 1⟩) (.const 1)] }),
    ("back", { name := "back", preds := ["loop"], term := some (.jump "loop"),
               instrs := [.phi ⟨⟨"i", some 3⟩, [⟨"loop", .var ⟨"i", some 2⟩⟩]⟩,
                          .phi ⟨⟨"k", some 2⟩, [⟨"loop", .var ⟨"k", some 1⟩⟩]⟩] }),
    ("done", { name := "done", preds := ["loop"], term := some (.ret none) }),
    ("lost", { name := "lost", preds := ["lost"], term := some (.jump "lost"),
               instrs := [.phi ⟨⟨"m", some 1⟩, [⟨"lost", .var ⟨"i", some 1⟩⟩]⟩] })]

theorem pruneDeadPhis_idlePair :
    idlePair.checkSsa = .ok () ∧ idlePair.PhisAgree ∧ ∃ f',
      Edit.pruneDeadPhis.Yields idlePair 3 f' ∧
      f'.checkSsa = .ok () ∧ (∀ p p' key, Replaces p p' key idlePair f' → ∀ spec,
        p'.run spec = p.run spec) ∧
      Edit.pruneDeadPhis.Yields f' 0 f' := by
  have hdests : ∀ n ∈ idlePair.nodes, ∀ n' ∈ idlePair.nodes, n.dest? ≠ none → n.dest? = n'.dest? →
      n = n' := by decide
  have agree : idlePair.PhisAgree := fun φ φ' hφ hφ' hdest v hv => by
    cases hdests _ hφ _ hφ' (Option.some_ne_none _) (congrArg some hdest)
    exact hv
  obtain ⟨f', hyields, _, hssa, hrun, hagain⟩ := pruneDeadPhis_exact idlePair rfl agree
  refine ⟨rfl, agree, f', ?_, hssa, hrun, hagain⟩
  have hthree : idlePair.withoutDeadPhis.2 = 3 := by decide
  rwa [← ((pruneDeadPhis_yields idlePair).unique hyields).1, hthree] at hyields

/-- A phi that cannot be reached has the result of one that can. -/
def overshadowed : Func where
  name := "main"
  params := []
  ssa := true
  blocks := Table.ofList [
    ("entry", { name := "entry", term := some (.jump "a") }),
    ("a", { name := "a", preds := ["entry"], term := some (.jump "b"),
            instrs := [.phi ⟨⟨"y", some 1⟩, [⟨"entry", .const 5⟩]⟩] }),
    ("b", { name := "b", preds := ["a"], term := some (.ret none),
            instrs := [.phi ⟨⟨"x", some 1⟩, [⟨"a", .var ⟨"y", some 1⟩⟩]⟩,
              .write (.var ⟨"x", some 1⟩)] }),
    ("lost", { name := "lost", preds := ["lost"], term := some (.jump "lost"),
               instrs := [.phi ⟨⟨"x", some 1⟩, [⟨"lost", .const 0⟩]⟩] })]

/-- The phi that cannot be reached hides the one that reads `y`: pruning takes `y` away although it
is needed, SSA form is lost, and a run that wrote 5 writes 0. -/
theorem pruneDeadPhis_breaks_overshadowed :
    overshadowed.checkSsa = .ok () ∧ overshadowed.Needed ⟨"y", some 1⟩ ∧
      ∃ f', Edit.pruneDeadPhis.Yields overshadowed 1 f' ∧ f'.checkSsa ≠ .ok () ∧
        (∀ φ : Phi, .instr (.phi φ) ∈ f'.nodes → φ.dest ≠ ⟨"y", some 1⟩) ∧
        (Program.run ⟨Table.ofList [("main", overshadowed)]⟩ {}).ending = ⟨.ok none, #[5], ∅⟩ ∧
        (Program.run ⟨Table.ofList [("main", f')]⟩ {}).ending = ⟨.ok none, #[0], ∅⟩ := by
  have hgone : ∀ n ∈ overshadowed.withoutDeadPhis.1.nodes, n.dest? ≠ some ⟨"y", some 1⟩ := by decide
  have hwrite : overshadowed.Needed ⟨"x", some 1⟩ := by
    refine .read (n := .instr (.write (.var ⟨"x", some 1⟩))) (by decide) (fun φ heq => ?_) (.head _)
    cases heq
  have hphi : .instr (.phi ⟨⟨"x", some 1⟩, [⟨"a", .var ⟨"y", some 1⟩⟩]⟩)
      ∈ overshadowed.nodes := by decide
  have hneeded : overshadowed.Needed ⟨"y", some 1⟩ := .phi hphi hwrite (.head _)
  exact ⟨rfl, hneeded, _,
    pruneDeadPhis_yields overshadowed, by decide, fun φ hφ heq => hgone _ hφ (congrArg some heq),
    rfl, rfl⟩

end Func

end ThreeAddress
