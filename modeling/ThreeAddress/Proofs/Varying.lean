import ThreeAddress.Proofs.GreatestFacts

/-!
# Functions without constants

In a function that varies no branch is on a literal, and no solution of its equations knows anything
of a definition.

1. What constant propagation leaves varies (`IsSsa.varies_propagated`): a solution for the result
   and the constants that were put in make a solution for the function before, and the search had
   found the greatest one.
2. On a function that varies, constant propagation changes nothing (`Varies.propagateConstants`).
-/

namespace ThreeAddress

open Constancy

variable {e l t x : Label} {c : Operand} {b : Block} {v : Var}

/-- No branch is on a literal, and nothing can be known of a definition. -/
structure Func.Varies (f : Func) : Prop where
  branch : ∀ {l b c t e}, f.block? l = some b → b.term = some (.branch c t e) → ∀ n, c ≠ .const n
  value : ∀ {σ : Guess}, σ.Solves f → ∀ {l v}, f.Defines l v → σ.value v = .bottom

namespace Func.Varies

variable {f : Func} {σ : Guess}

theorem value_eq (h : f.Varies) (hσ : σ.Solves f) (v : Var) : σ.value v = .bottom := by
  by_cases hv : ∃ l, f.Defines l v
  · exact h.value hσ hv.choose_spec
  · exact hσ.other v (not_exists.1 hv)

/-- The condition of a branch varies. -/
theorem known_eq (h : f.Varies) (hσ : σ.Solves f) (hb : f.block? l = some b)
    (ht : b.term = some (.branch c t e)) : σ.known c = .bottom := by
  cases c with
  | var v => exact h.value_eq hσ v
  | const n => exact absurd rfl (h.branch hb ht n)
  | undefined => rfl

/-- All edges from a block that runs do. -/
theorem goes (h : f.Varies) (hσ : σ.Solves f) (hl : σ.runs l) (hx : x ∈ f.graph.next l) :
    σ.goes l x := by
  obtain ⟨b, hb, hx⟩ := block_of_mem_next hx
  cases ht : b.term with
  | none =>
    rw [Block.successors, ht] at hx
    cases hx
  | some t =>
    rw [Block.successors, ht] at hx
    refine hσ.term hl hb ht ?_
    cases t with
    | jump t => exact hx
    | ret v => cases hx
    | branch c t e =>
      simp only [Terminator.follow, h.known_eq hσ hb ht]
      by_cases hte : t = e <;> simp_all [Terminator.targets]

/-- All blocks that can be reached run. -/
theorem runs (h : f.Varies) (hσ : σ.Solves f) (hl : f.graph.Reachable l) : σ.runs l := by
  obtain ⟨xs, hxs⟩ := hl
  induction hxs with
  | entry => exact hσ.entry
  | step _ hnext ih => exact hσ.edge (h.goes hσ ih hnext)

end Func.Varies

/-! ## What constant propagation leaves -/

theorem Instr.fold_mapUses (known : Operand → Constancy) (g : Operand → Operand) (i : Instr) :
    (i.mapUses g).fold known = i.fold fun x => known (g x) := by
  cases i <;> rfl

theorem Terminator.follow_mapUses (known : Operand → Constancy) (g : Operand → Operand)
    (t : Terminator) : (t.mapUses g).follow known = t.follow fun x => known (g x) := by
  cases t <;> rfl

namespace Facts

variable {f : Func} {s : Facts} {τ : Guess}

/-- The constants that are known, and what the guess says of the rest. -/
def refine (s : Facts) (τ : Guess) : Guess where
  value v := ((s.constOf? v).map .const).getD (τ.value v)
  runs l := l ∈ s.blocks ∧ τ.runs l
  goes p l := (p ∈ s.blocks ∧ (p, l) ∈ s.edges) ∧ τ.goes p l

theorem value_refine_of_none (h : s.constOf? v = none) : (s.refine τ).value v = τ.value v := by
  simp [refine, h]

theorem known_refine (s : Facts) (τ : Guess) :
    (s.refine τ).known = fun x => τ.known (s.substitute x) := by
  funext x
  cases x with
  | var v => cases h : s.constOf? v <;> simp [Guess.known, refine, substitute, h]
  | _ => rfl

theorem value_refine_of_const {n : Int} (h : s.constOf? v = some n) :
    (s.refine τ).value v = s.valueOf (.var v) := by
  rw [constOf?_eq_some.1 h]
  simp [refine, h]

/-- Where there is evidence, the facts know no more. -/
theorem below_refine {x : Operand} (h : s.valueOf x ≠ .top) :
    (s.valueOf x).Below ((s.refine τ).known x) := by
  cases x with
  | var v =>
    cases hv : s.valueOf (.var v) with
    | top => exact absurd hv h
    | bottom => exact bottom_below _
    | const n =>
      show Below _ ((s.refine τ).value v)
      rw [value_refine_of_const (constOf?_eq_some.2 hv), hv]
      exact meet_self _
  | const n => exact meet_self _
  | undefined => exact bottom_below _

/-- A terminator that is folded leads where the facts and the guess say. -/
theorem follow_foldTerm {t : Terminator} (h : x ∈ t.follow (s.refine τ).known)
    (htop : ∀ y ∈ t.uses, s.valueOf y ≠ .top) :
    x ∈ ((s.foldTerm t).mapUses s.substitute).follow τ.known := by
  cases t with
  | branch c t e =>
    have hbelow := below_refine (τ := τ) (htop c (by simp [Terminator.uses]))
    rw [Terminator.follow_mapUses, ← known_refine]
    cases hc : s.valueOf c with
    | top => exact absurd hc (htop c (by simp [Terminator.uses]))
    | bottom => simpa only [foldTerm, hc, Constancy.const?] using h
    | const n =>
      have hknown : x ∈ (Terminator.branch c t e).follow fun _ => .const n :=
        Terminator.follow_mono (fun y hy => by
          rw [Terminator.uses, List.mem_singleton] at hy
          rwa [hy, ← hc]) h
      simpa [foldTerm, hc, Constancy.const?, Terminator.follow] using hknown
  | _ => exact h

/-- A solution for what is left solves the function, once the constants are added to it. -/
theorem Solves.refine (sol : s.Solves f) (h : f.IsSsa) (hentry : f.EntryPhiFree)
    (hother : ∀ v, (∀ l, ¬ f.Defines l v) → s.valueOf (.var v) = .bottom)
    (hτ : τ.Solves (f.propagated s)) : (s.refine τ).Solves f where
  other v hv := by
    have hconst : s.constOf? v = none := by
      rw [Facts.constOf?, show s.values.getD v .bottom = .bottom from hother v hv]
      rfl
    rw [value_refine_of_none hconst]
    refine hτ.other v fun l hl => ?_
    obtain ⟨b', hb', hd⟩ := hl
    obtain ⟨_, b, hb, rfl⟩ := Func.of_block?_propagated hb'
    exact hv l ⟨b, hb, (Func.dests_sublist h.wf l hb).subset hd⟩
  entry := ⟨sol.entry, hτ.entry⟩
  edge hgoes := ⟨(sol.edge _ _ hgoes.1.2).1, hτ.edge hgoes.2⟩
  dominator {a l} hl hmem ha := by
    obtain ⟨b, hb⟩ := Func.exists_block.1 hmem
    have hruns := sol.dominator hl.1 ha
    refine ⟨hruns, hτ.dominator hl.2 (Func.mem_blocks (Func.block?_propagated hruns hb))
      fun xs hxs => ?_⟩
    exact ha xs ((Func.subgraph_propagated h).trail hxs)
  phi {l b φ a} hl hb hφ ha hgoes := by
    obtain ⟨⟨hp, he⟩, hgoes⟩ := hgoes
    cases hc : s.constOf? φ.dest with
    | some n =>
      have htop : s.valueOf a.value ≠ .top := sol.operand_ne_top h hentry hp fun _ hv =>
        h.form.phiUse (sol.reachable hl.1) hb hφ ha (sol.reachable hp) hv
      have hbelow := (sol.guess_solves h.wf hother).phi hl.1 hb hφ ha he
      rw [known_guess] at hbelow
      rw [value_refine_of_const hc]
      exact hbelow.trans (below_refine htop)
    | none =>
      rw [value_refine_of_none hc, known_refine]
      have hkept : f.keepsEdge s l a.block = true :=
        Func.keepsEdge_iff.2 ⟨hp,
          ((Func.mem_next_propagated h.wf).1 (Func.mem_next_of_edges sol h.wf hp he)).2.2⟩
      have hφ' : (φ.keep (f.keepsEdge s l)).mapValues s.substitute
          ∈ (s.putConstants (f.trimmed s l b)).phis := by
        rw [(Func.propagated_spec (h.wf.tidy hb) l).1]
        exact List.mem_map.2 ⟨φ, List.mem_filter.2 ⟨hφ, by simp [hc]⟩, rfl⟩
      have ha' : { a with value := s.substitute a.value } ∈
          ((φ.keep (f.keepsEdge s l)).mapValues s.substitute).incoming :=
        List.mem_map.2 ⟨a, List.mem_filter.2 ⟨ha, hkept⟩, rfl⟩
      exact hτ.phi hl.2 (Func.block?_propagated hl.1 hb) hφ' ha' hgoes
  instr {l b i d} hl hb hi hd := by
    have hphi := b.isPhi_of_mem_body hi
    have hmem : i ∈ b.instrs := (h.wf.tidy hb).instrs_eq ▸ List.mem_append_right _ hi
    cases hc : s.constOf? d with
    | some n =>
      have hbelow := (sol.guess_solves h.wf hother).instr hl.1 hb hi hd
      rw [known_guess] at hbelow
      rw [value_refine_of_const hc]
      refine hbelow.trans (Instr.fold_mono fun x hx => below_refine ?_)
      exact sol.operand_ne_top h hentry hl.1 fun _ hv =>
        h.form.availOut_of_use (sol.reachable hl.1) hb hmem hphi (hv ▸ hx)
    | none =>
      rw [value_refine_of_none hc, known_refine, ← Instr.fold_mapUses]
      have hkept : s.isRedundant i = false := by
        cases hred : s.isRedundant i with
        | false => rfl
        | true => exact absurd hc (Func.constOf?_of_redundant hred hd)
      refine hτ.instr hl.2 (Func.block?_propagated hl.1 hb) ?_ ((i.dest?_mapUses _).trans hd)
      rw [(Func.propagated_spec (h.wf.tidy hb) l).2.1]
      exact List.mem_map.2 ⟨i, List.mem_filter.2 ⟨hi, by simp [hkept]⟩, rfl⟩
  term {l b t x} hl hb ht hx := by
    have htop : ∀ y ∈ t.uses, s.valueOf y ≠ .top :=
      fun y hy => sol.term_ne_top h hentry hl.1 hb ht hy
    have htargets : x ∈ s.targets t := by
      rw [targets_eq]
      exact Terminator.follow_mono (fun y hy => below_refine (htop y hy)) hx
    refine ⟨⟨hl.1, sol.term l hl.1 b hb t ht x htargets⟩, ?_⟩
    refine hτ.term hl.2 (Func.block?_propagated hl.1 hb) ?_ (follow_foldTerm hx htop)
    rw [(Func.propagated_spec (h.wf.tidy hb) l).2.2, ht]
    rfl

end Facts

namespace Func

variable {f : Func} {s : Facts}

/-- Definitions of constants are not left. -/
theorem Defines.of_propagated (sol : s.Solves f) (wf : f.WellFormed)
    (h : (f.propagated s).Defines l v) : l ∈ s.blocks ∧ f.Defines l v ∧ s.constOf? v = none := by
  obtain ⟨b', hb', hv⟩ := h
  obtain ⟨hl, b, hb, rfl⟩ := of_block?_propagated hb'
  refine ⟨hl, ⟨b, hb, (dests_sublist wf l hb).subset hv⟩, ?_⟩
  rw [dests_propagated wf l hb] at hv
  rcases List.mem_append.1 hv with hv | hv
  · obtain ⟨φ, hφ, rfl⟩ := List.mem_map.1 hv
    simpa using (List.mem_filter.1 hφ).2
  · obtain ⟨i, hi, hd⟩ := mem_destsOf.1 hv
    obtain ⟨hi, hkept⟩ := List.mem_filter.1 hi
    have hmem : i ∈ b.instrs := (wf.tidy hb).instrs_eq ▸ List.mem_append_right _ hi
    exact sol.constOf?_of_kept hl hb hmem (by simpa using hkept) hd

/-- A branch that is left is not on a literal. -/
theorem branch_propagated (wf : f.WellFormed) (hb' : (f.propagated s).block? l = some b)
    (ht : b.term = some (.branch c t e)) (n : Int) : c ≠ .const n := by
  obtain ⟨_, b, hb, rfl⟩ := of_block?_propagated hb'
  rw [(propagated_spec (wf.tidy hb) l).2.2] at ht
  obtain ⟨t₀, _, heq⟩ := Option.map_eq_some_iff.1 ht
  cases t₀ with
  | jump t => cases heq
  | ret v => cases heq
  | branch c₀ t e =>
    cases hc : (s.valueOf c₀).const? with
    | some m => simp [Facts.foldTerm, hc, Terminator.mapUses] at heq
    | none =>
      simp only [Facts.foldTerm, hc, Terminator.mapUses] at heq
      cases heq
      cases c₀ with
      | const m => cases hc
      | undefined => exact Operand.noConfusion
      | var v =>
        have hnone : s.constOf? v = none := hc
        simp [Facts.substitute, hnone]

/-- Constant propagation leaves nothing that could be known. -/
theorem IsSsa.varies_propagated (h : f.IsSsa) (hentry : f.EntryPhiFree)
    (hreach : ∀ l ∈ f.blocks, f.graph.Reachable l) : (f.propagated f.facts).Varies where
  branch hb ht := branch_propagated h.wf hb ht
  value {τ} hτ l v hv := by
    have hparam : ∀ {l v}, f.Defines l v → v ∉ f.paramVars := fun {l v} hv =>
      h.form.not_param (hreach l (mem_blocks hv.choose_spec.1)) hv
    have sol := h.wf.facts_solves
    have hcovered := ((sol.refine h hentry h.wf.valueOf_other hτ).covered h.wf hparam).value v
    obtain ⟨hl, hdef, hnone⟩ := hv.of_propagated sol h.wf
    rw [Facts.value_refine_of_none hnone] at hcovered
    have hbottom : f.facts.valueOf (.var v) = .bottom := by
      cases hval : f.facts.valueOf (.var v) with
      | bottom => rfl
      | top => exact absurd hval (sol.ne_top h.wf h.form hentry hl (.inr hdef))
      | const n =>
        rw [Facts.constOf?_eq_some.2 hval] at hnone
        cases hnone
    rw [hbottom] at hcovered
    exact eq_bottom_of_below hcovered

end Func

/-! ## Nothing to do -/

theorem Instr.mapUses_id (i : Instr) : i.mapUses id = i := by
  cases i with
  | call d g args => simp [mapUses]
  | phi φ => simp [mapUses]
  | _ => rfl

theorem Terminator.mapUses_id (t : Terminator) : t.mapUses id = t := by
  cases t with
  | ret v => simp [mapUses]
  | _ => rfl

namespace Facts

variable {s : Facts}

section

variable (h : ∀ v, s.constOf? v = none)
include h

theorem isRedundant_of_none (i : Instr) : s.isRedundant i = false := by
  cases i <;> simp [isRedundant, h]

theorem isKnown_of_none (x : Operand) : s.isKnown x = false := by
  cases x <;> simp [isKnown, h]

theorem substitute_of_none : s.substitute = id := by
  funext x
  cases x <;> simp [substitute, h]

theorem putConstants_of_none (b : Block) : s.putConstants b = b := by
  have hinstrs : (b.instrs.filter (!s.isRedundant ·)) = b.instrs :=
    List.filter_eq_self.2 fun i _ => by rw [isRedundant_of_none h]; rfl
  have hbody : b.instrs.map (·.mapUses id) = b.instrs :=
    (List.map_congr_left fun i _ => i.mapUses_id).trans (List.map_id _)
  have hterm : b.term.map (·.mapUses id) = b.term := by
    cases b.term <;> simp [Terminator.mapUses_id]
  rw [putConstants, substitute_of_none h, hinstrs, Block.mapUses, hbody, hterm]

theorem replacedUses_of_none (b : Block) : s.replacedUses b = 0 :=
  sumOf_eq_zero fun _ _ => List.countP_eq_zero.2 fun x _ => by simp [isKnown_of_none h]

theorem removedInstrs_of_none (b : Block) : s.removedInstrs b = 0 :=
  List.countP_eq_zero.2 fun i _ => by simp [isRedundant_of_none h]

end

end Facts

namespace Func

variable {f : Func} {s : Facts}

/-- Branches on values that vary stay. -/
theorem foldBranches_of_open
    (h : ∀ {l b c t e}, f.block? l = some b → b.term = some (.branch c t e) →
      (s.valueOf c).const? = none) (labels : List Label) :
    (Edit.foldBranches s labels).Yields f 0 f := by
  induction labels with
  | nil => exact Edit.yields_pure 0 f
  | cons l labels ih =>
    refine (Edit.yields_get f).bind ?_
    cases hterm : (f.block? l).bind (·.term) with
    | none => exact ih
    | some t =>
      cases t with
      | branch c t e =>
        obtain ⟨b, hb, ht⟩ := Option.bind_eq_some_iff.1 hterm
        simp only [h hb ht]
        exact ih
      | _ => exact ih

/-- Where nothing can be known, constant propagation changes nothing and says so. -/
theorem Varies.propagateConstants (hvaries : f.Varies) (h : f.IsSsa)
    (hreach : ∀ l ∈ f.blocks, f.graph.Reachable l) :
    ∃ report, Edit.propagateConstants.Yields f (f.facts, report) f ∧ report.changed = false := by
  have hσ := h.wf.facts_guess
  have hnone : ∀ v, f.facts.constOf? v = none := fun v => by
    rw [Facts.constOf?, show f.facts.values.getD v .bottom = .bottom from hvaries.value_eq hσ v]
    rfl
  have hopen : ∀ {l b c t e}, f.block? l = some b → b.term = some (.branch c t e) →
      (f.facts.valueOf c).const? = none := fun {l b c t e} hb ht => by
    rw [← Facts.known_guess, hvaries.known_eq hσ hb ht]
    rfl
  have hdead : f.blocks.keys.filter (· ∉ f.facts.blocks) = [] :=
    List.filter_eq_nil_iff.2 fun l hl => by
      have hruns : l ∈ f.facts.blocks := hvaries.runs hσ (hreach l hl)
      simpa using hruns
  have hsame : f.mapBlocks f.facts.putConstants = f := mapBlocks_of_eq fun _ b _ =>
    Facts.putConstants_of_none hnone b
  refine ⟨{ function := f.name, constants := f.facts.values.values.countP (·.isConst),
            usesReplaced := sumOf f.facts.replacedUses f.blockList,
            instrsRemoved := sumOf f.facts.removedInstrs f.blockList }, (Edit.yields_get f).bind ?_,
            ?_⟩
  · rw [h.ssa]
    refine h.wf.findConstants.bind
      ((foldBranches_of_open hopen _).bind ((Edit.yields_get f).bind ?_))
    dsimp only
    rw [hdead]
    refine (Edit.yields_pure _ f).bind ((Edit.yields_get f).bind ((Edit.yields_modify _ f).bind ?_))
    rw [hsame]
    exact (Edit.yields_emit _ f).bind (Edit.yields_pure _ f)
  · simp [ConstantsReport.changed, sumOf_eq_zero fun b _ => Facts.replacedUses_of_none hnone b,
      sumOf_eq_zero fun b _ => Facts.removedInstrs_of_none hnone b]

end Func

end ThreeAddress
