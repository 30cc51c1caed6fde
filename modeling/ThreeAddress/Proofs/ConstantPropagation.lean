import ThreeAddress.Proofs.BranchFolding
import ThreeAddress.Proofs.SsaForm

/-!
# Constant propagation

1. In SSA form with no phi at the entry, what is available in a block that can run is never without
   evidence (`Solves.ne_top`). So the blocks that can run are closed under the edges that are left.
2. A variable that is found constant holds that number wherever it is available (`Facts.Right`).
   Activations with and without constants keep up with each other: variables agree off the constants
   (`propagated_simulation`).
3. The result is in SSA form again (`IsSsa.propagated`).
-/

namespace ThreeAddress

variable {l : Label} {b : Block} {x : Operand} {pre rest : List Instr} {i : Instr} {a c : Constancy}
  {d v : Var} {env env' : Env} {t : Terminator} {n : Int}

/-! ## Values without evidence -/

theorem Constancy.eq_top_of_below (h : Constancy.top.Below c) : c = .top := by
  unfold Below at h
  rwa [top_meet] at h

theorem Constancy.of_const_below (h : (Constancy.const n).Below c) : c = .top ∨ c = .const n := by
  cases c with
  | top => exact .inl rfl
  | bottom => cases h
  | const m =>
    by_cases hmn : n = m
    · exact .inr (hmn ▸ rfl)
    · simp [Below, meet, hmn] at h

/-- What a phi knows is below each operand that arrives along an edge that runs. -/
theorem Constancy.foldl_meet_below {l : List Constancy} (h : c ∈ l) (start : Constancy) :
    (l.foldl .meet start).Below c := by
  have hmono : ∀ (l : List Constancy) {a : Constancy}, a.Below c → (l.foldl .meet a).Below c := by
    intro l
    induction l with
    | nil => exact fun h => h
    | cons d l ih => exact fun h => ih (meet_below_left h d)
  induction l generalizing start with
  | nil => cases h
  | cons d l ih =>
    rcases List.mem_cons.1 h with rfl | h
    · exact hmono l (meet_below_right start c)
    · exact ih h _

theorem Constancy.Below.trans {b : Constancy} (hab : a.Below b) (hbc : b.Below c) : a.Below c := by
  unfold Below at *
  rw [← hab, meet_assoc, hbc]

namespace Facts

variable {f : Func} {s : Facts} {op : String}

theorem foldBinary_ne_top {b : Constancy} (ha : a ≠ .top) (hb : b ≠ .top) :
    (foldBinary op a b).toOption.getD .bottom ≠ .top := by
  cases a with
  | top => exact absurd rfl ha
  | bottom => cases b <;> simp [foldBinary, Except.toOption]
  | const m =>
    cases b with
    | top => exact absurd rfl hb
    | bottom => simp [foldBinary, Except.toOption]
    | const n => cases h : evalBinary op m n <;> simp [foldBinary, h, Except.map, Except.toOption]

theorem foldUnary_ne_top (ha : a ≠ .top) : (foldUnary op a).toOption.getD .bottom ≠ .top := by
  cases a with
  | top => exact absurd rfl ha
  | bottom => simp [foldUnary, Except.toOption]
  | const m => cases h : evalUnary op m <;> simp [foldUnary, h, Except.map, Except.toOption]

/-- An instruction with evidence for its operands has evidence for its result. -/
theorem result_ne_top (hphi : i.isPhi = false) (h : ∀ x ∈ i.uses, s.valueOf x ≠ .top) :
    s.result l i ≠ .top := by
  cases i with
  | phi φ => cases hphi
  | binary d op x y =>
    exact foldBinary_ne_top (h x (by simp [Instr.uses])) (h y (by simp [Instr.uses]))
  | unary d op x => exact foldUnary_ne_top (h x (by simp [Instr.uses]))
  | copy d x => exact h x (by simp [Instr.uses])
  | _ => simp [result]

namespace Solves

section

variable (sol : s.Solves f)
include sol

theorem valueOf_below (hl : l ∈ s.blocks) (hb : f.block? l = some b) (hi : i ∈ b.instrs)
    (hd : i.dest? = some d) : (s.valueOf (.var d)).Below (s.result l i) := by
  obtain ⟨hmem, hbelow⟩ := sol.instr l hl b hb i hi d hd
  obtain ⟨c, hc⟩ := Table.mem_iff_get?.1 hmem
  rw [Table.getD_of_get? hc] at hbelow
  show (s.values.getD d .bottom).Below _
  rwa [Table.getD_of_get? hc]

theorem mem_of_path (h : Relation.ReflTransGen (fun p t => (p, t) ∈ s.edges) f.entry l) :
    l ∈ s.blocks := by
  cases h with
  | refl => exact sol.entry
  | tail _ he => exact (sol.edge _ _ he).1

theorem reachable (hl : l ∈ s.blocks) : f.graph.Reachable l := by
  have hpath := sol.reached l hl
  clear hl
  induction hpath with
  | refl => exact Graph.reachable_entry
  | tail _ he ih => exact ih.step (sol.edge _ _ he).2

/-- If all that a block finds and its phis have evidence, so has what it leaves. -/
theorem ne_top_of_block (form : f.SsaForm) (hl : l ∈ s.blocks) (hb : f.block? l = some b)
    (hin : ∀ v, f.AvailIn l v → s.valueOf (.var v) ≠ .top)
    (hphis : ∀ φ, .phi φ ∈ b.instrs → s.valueOf (.var φ.dest) ≠ .top) (hv : f.AvailOut l v) :
    s.valueOf (.var v) ≠ .top := by
  have hdests : ∀ (k : Nat) (pre : List Instr) (i : Instr) (post : List Instr) (d : Var),
      pre.length = k →
      b.instrs = pre ++ i :: post → i.dest? = some d → s.valueOf (.var d) ≠ .top := by
    intro k
    induction k using Nat.strongRecOn with
    | ind k ih =>
      intro pre i post d hk heq hd htop
      have hi : i ∈ b.instrs := heq ▸ List.mem_append_right _ (.head _)
      cases hphi : i.isPhi with
      | true =>
        cases i with
        | phi φ =>
          cases hd
          exact hphis φ hi htop
        | _ => cases hphi
      | false =>
        have hbelow := sol.valueOf_below hl hb hi hd
        rw [htop] at hbelow
        refine result_ne_top hphi (fun x hx => ?_) (Constancy.eq_top_of_below hbelow)
        cases x with
        | var w =>
          rcases form.use (sol.reachable hl) hb heq hphi hx with hw | hw
          · exact hin w hw
          · -- An operand that is defined earlier in the block.
            obtain ⟨j, hj, hjd⟩ := mem_destsOf.1 hw
            obtain ⟨pre', post', rfl⟩ := List.append_of_mem hj
            refine ih pre'.length ?_ pre' j (post' ++ i :: post) w rfl ?_ hjd
            · rw [← hk, List.length_append, List.length_cons]
              omega
            · rw [heq, List.append_assoc, List.cons_append]
        | const n => simp [valueOf]
        | undefined => simp [valueOf]
  rcases hv with hv | ⟨b', hb', hv⟩
  · exact hin v hv
  · cases hb.symm.trans hb'
    obtain ⟨i, hi, hd⟩ := mem_destsOf.1 hv
    obtain ⟨pre, post, heq⟩ := List.append_of_mem hi
    exact hdests _ pre i post v rfl heq hd

/-- What is available in a block that can run has evidence. -/
theorem ne_top (wf : f.WellFormed) (form : f.SsaForm) (hentry : f.EntryPhiFree) (hl : l ∈ s.blocks)
    (hv : f.AvailOut l v) : s.valueOf (.var v) ≠ .top := by
  have hpath := sol.reached l hl
  induction hpath generalizing v with
  | refl =>
    obtain ⟨b, hb⟩ := Func.exists_block.1 wf.entry_mem
    refine sol.ne_top_of_block form hl hb (fun w hw => ?_) (fun φ hφ => ?_) hv
    · rcases hw with hw | ⟨a, ha, _⟩
      · obtain ⟨p, hp, rfl⟩ := List.mem_map.1 hw
        rw [show s.valueOf (.var ⟨p, some 0⟩) = .bottom from Table.getD_of_get? (sol.params p hp)]
        exact Constancy.noConfusion
      · exact absurd rfl ha.ne_entry
    · have := (wf.tidy hb).phi_mem_iff.1 hφ
      rw [hentry b hb] at this
      cases this
  | @tail p t hpath he ih =>
    obtain ⟨ht, hnext⟩ := sol.edge _ _ he
    have hp : p ∈ s.blocks := sol.mem_of_path hpath
    obtain ⟨b, hb⟩ := Func.exists_block.1 (sol.block t ht)
    refine sol.ne_top_of_block form ht hb (fun w hw => ih hp (hw.of_edge hnext))
      (fun φ hφ htop => ?_) hv
    -- The operand for the edge that the path takes has evidence.
    have hφ' := (wf.tidy hb).phi_mem_iff.1 hφ
    have hlabel : p ∈ φ.labels := (wf.tidy hb).labels_eq φ hφ' ▸ (wf.mem_preds hb).2 hnext
    obtain ⟨a, ha, rfl⟩ := List.mem_map.1 hlabel
    have hbelow := sol.valueOf_below ht hb hφ rfl
    rw [htop] at hbelow
    have hvalue : (s.phiValue t φ).Below (s.valueOf a.value) :=
      Constancy.foldl_meet_below (List.mem_map.2 ⟨a, List.mem_filter.2 ⟨ha, decide_eq_true he⟩,
        rfl⟩) _
    rw [show s.phiValue t φ = .top from Constancy.eq_top_of_below hbelow] at hvalue
    have hatop := Constancy.eq_top_of_below hvalue
    cases hval : a.value with
    | var w =>
      exact ih hp (form.phiUse (sol.reachable ht) hb hφ' ha (sol.reachable hp) hval) (hval ▸ hatop)
    | const n => rw [hval] at hatop; cases hatop
    | undefined => rw [hval] at hatop; cases hatop

/-- An operand that is available in a block that can run has evidence. -/
theorem operand_ne_top (h : f.IsSsa) (hentry : f.EntryPhiFree) (hl : l ∈ s.blocks)
    (hx : ∀ v, x = .var v → f.AvailOut l v) : s.valueOf x ≠ .top := by
  cases x with
  | var v => exact sol.ne_top h.wf h.form hentry hl (hx v rfl)
  | const n => simp [valueOf]
  | undefined => simp [valueOf]

theorem instr_ne_top (h : f.IsSsa) (hentry : f.EntryPhiFree) (hl : l ∈ s.blocks)
    (hb : f.block? l = some b) (hi : i ∈ b.instrs) (hphi : i.isPhi = false) (hx : x ∈ i.uses) :
    s.valueOf x ≠ .top :=
  sol.operand_ne_top h hentry hl fun _ hv => h.form.availOut_of_use (sol.reachable hl) hb hi hphi
    (hv ▸ hx)

theorem term_ne_top (h : f.IsSsa) (hentry : f.EntryPhiFree) (hl : l ∈ s.blocks)
    (hb : f.block? l = some b) (ht : b.term = some t) (hx : x ∈ t.uses) : s.valueOf x ≠ .top :=
  sol.operand_ne_top h hentry hl fun _ hv => h.form.termUse (sol.reachable hl) hb ht (hv ▸ hx)

end

end Solves

/-! ## Putting constants in -/

theorem constOf?_eq_some : s.constOf? v = some n ↔ s.valueOf (.var v) = .const n := by
  show (s.values.getD v .bottom).const? = _ ↔ s.values.getD v .bottom = _
  cases s.values.getD v .bottom <;> simp [Constancy.const?]

end Facts

/-- The phi with its operands replaced. -/
def Phi.mapValues (g : Operand → Operand) (φ : Phi) : Phi :=
  { φ with incoming := φ.incoming.map fun a => { a with value := g a.value } }

theorem Phi.labels_mapValues (g : Operand → Operand) (φ : Phi) :
    (φ.mapValues g).labels = φ.labels := by
  simp [Phi.mapValues, Phi.labels, Function.comp_def]

theorem Phi.operand_mapValues {g : Operand → Operand} (hg : g .undefined = .undefined) (φ : Phi)
    (p : Label) : (φ.mapValues g).operand p = g (φ.operand p) := by
  unfold Phi.operand Phi.valueFrom? Phi.mapValues
  rw [List.find?_map]
  show ((Option.map _ (φ.incoming.find? fun a => decide (a.block = p))).map _).getD _ = _
  cases φ.incoming.find? fun a => decide (a.block = p) with
  | none => exact hg.symm
  | some a => rfl

namespace Facts

variable {f : Func} {s : Facts}

/-- What is left of a block once its constants are put in. -/
theorem putConstants_spec (s : Facts) (h : b.Tidy) :
    (s.putConstants b).phis = (b.phis.filter fun φ => (s.constOf? φ.dest).isNone).map
      (Phi.mapValues s.substitute) ∧
      (s.putConstants b).body = (b.body.filter (!s.isRedundant ·)).map (·.mapUses s.substitute) ∧
      (s.putConstants b).Tidy := by
  refine Block.tidy_of_eq ?_ (fun i hi => ?_) fun φ hφ => ?_
  · show (b.instrs.filter (!s.isRedundant ·)).map (·.mapUses s.substitute) = _
    conv => lhs; rw [h.instrs_eq]
    rw [List.filter_append, List.map_append, List.filter_map, List.map_map, List.map_map]
    congr 1
    congr 1
    refine List.filter_congr fun φ _ => ?_
    show (!(s.constOf? φ.dest).isSome) = _
    cases s.constOf? φ.dest <;> rfl
  · obtain ⟨j, hj, rfl⟩ := List.mem_map.1 hi
    have := b.isPhi_of_mem_body (List.mem_filter.1 hj).1
    cases j with
    | phi φ => cases this
    | _ => rfl
  · obtain ⟨ψ, hψ, rfl⟩ := List.mem_map.1 hφ
    rw [Phi.labels_mapValues]
    exact h.labels_eq ψ (List.mem_filter.1 hψ).1

theorem successors_putConstants (s : Facts) (b : Block) :
    (s.putConstants b).successors = b.successors := by
  have hterm : (s.putConstants b).term = b.term.map (·.mapUses s.substitute) := rfl
  unfold Block.successors
  rw [hterm]
  cases b.term with
  | none => rfl
  | some t => exact t.targets_mapUses _

end Facts

namespace Func

variable {f : Func} {s : Facts}

/-- The function with branches folded, without the blocks that cannot run, and with constants put
in. -/
def propagated (f : Func) (s : Facts) : Func :=
  ((f.foldedOn s s.blocks).keepBlocks fun l => decide (l ∈ s.blocks)).rewrite fun _ b =>
    s.putConstants b

/-- The edge from `p` to `l` is left. -/
def keepsEdge (f : Func) (s : Facts) (l p : Label) : Bool :=
  !(decide (p ∈ s.blocks) && f.loses s p l) && decide (p ∈ s.blocks)

/-- The block as it is before constants are put in. -/
def trimmed (f : Func) (s : Facts) (l : Label) (b : Block) : Block :=
  { b with term := b.term.map s.foldTerm }.keepPreds (f.keepsEdge s l)

theorem block?_propagated (hl : l ∈ s.blocks) (hb : f.block? l = some b) :
    (f.propagated s).block? l = some (s.putConstants (f.trimmed s l b)) := by
  refine block?_rewrite_of_some (fun _ b => s.putConstants b) ?_
  rw [block?_keepBlocks_of_keep (decide_eq_true hl) (block?_foldedOn s s.blocks hb), foldedBlock,
    if_pos hl, Block.keepPreds_keepPreds]
  rfl

theorem of_block?_propagated {b' : Block} (h : (f.propagated s).block? l = some b') :
    l ∈ s.blocks ∧ ∃ b, f.block? l = some b ∧ b' = s.putConstants (f.trimmed s l b) := by
  obtain ⟨b₁, hb₁, rfl⟩ := of_block?_rewrite h
  obtain ⟨hl, b₂, hb₂, rfl⟩ := of_block?_keepBlocks hb₁
  obtain ⟨b, hb, rfl⟩ := of_block?_rewrite hb₂
  refine ⟨of_decide_eq_true hl, b, hb, ?_⟩
  rw [block?_propagated (of_decide_eq_true hl) hb] at h
  exact (Option.some.inj h).symm

theorem trimmed_spec (h : b.Tidy) (l : Label) :
    (f.trimmed s l b).phis = b.phis.map (Phi.keep (f.keepsEdge s l)) ∧
      (f.trimmed s l b).body = b.body ∧
      (f.trimmed s l b).Tidy := by
  have htidy : Block.Tidy { b with term := b.term.map s.foldTerm } := ⟨h.instrs_eq, h.labels_eq⟩
  exact htidy.keepPreds _

/-- The phis, the body and the terminator of a block of the result. -/
theorem propagated_spec (h : b.Tidy) (l : Label) :
    (s.putConstants (f.trimmed s l b)).phis
        = (b.phis.filter fun φ => (s.constOf? φ.dest).isNone).map
            (fun φ => (φ.keep (f.keepsEdge s l)).mapValues s.substitute) ∧
      (s.putConstants (f.trimmed s l b)).body = (b.body.filter (!s.isRedundant ·)).map
        (·.mapUses s.substitute) ∧
      (s.putConstants (f.trimmed s l b)).term = b.term.map fun t =>
        (s.foldTerm t).mapUses s.substitute := by
  obtain ⟨hphis, hbody, htidy⟩ := trimmed_spec (f := f) (s := s) h l
  obtain ⟨hphis', hbody', _⟩ := s.putConstants_spec htidy
  refine ⟨?_, ?_, ?_⟩
  · rw [hphis', hphis, List.filter_map, List.map_map]
    rfl
  · rw [hbody', hbody]
  · show (b.term.map s.foldTerm).map (·.mapUses s.substitute) = _
    rw [Option.map_map]
    rfl

/-! ## The edit -/

/-- Only blocks that are there count among those that are folded. -/
theorem foldedOn_congr {done done' : List Label} (h : ∀ l ∈ f.blocks, (l ∈ done ↔ l ∈ done')) :
    f.foldedOn s done = f.foldedOn s done' := by
  refine eq_of_blocks rfl ((keys_foldedOn _ _ _).trans (keys_foldedOn _ _ _).symm) fun l => ?_
  cases hb : f.block? l with
  | none =>
    rw [foldedOn, foldedOn, block?_rewrite, block?_rewrite, hb, Option.map_none, Option.map_none]
  | some b =>
    have hkeep : (fun p => !(decide (p ∈ done) && f.loses s p l)) = fun p =>
        !(decide (p ∈ done') && f.loses s p l) := by
      funext p
      cases hp : f.block? p with
      | none => simp [loses, hp]
      | some c => simp only [h p (mem_blocks hp)]
    rw [block?_foldedOn s _ hb, block?_foldedOn s _ hb, foldedBlock, foldedBlock, hkeep]
    simp only [h l (mem_blocks hb)]

end Func

theorem Edit.yields_emitAll (log : List Event) (f : Func) : (log.forM emit).Yields f ⟨⟩ f := by
  induction log with
  | nil => exact yields_pure _ f
  | cons e log ih => exact (yields_emit e f).bind ih

namespace Func

variable {f : Func} {s : Facts} {p : Label}

theorem WellFormed.findConstants (wf : f.WellFormed) : Edit.findConstants.Yields f f.facts f := by
  refine (Edit.yields_get f).bind ((Edit.yields_emitAll _ f).bind ?_)
  simp only [wf.facts_solves.missing]
  exact Edit.yields_pure _ f

theorem IsSsa.propagateConstants (h : f.IsSsa) :
    ∃ report, Edit.propagateConstants.Yields f (f.facts, report) (f.propagated f.facts) := by
  have hkeys : (f.blocks.keys.filter (· ∈ f.facts.blocks) ++ []).Nodup := by
    rw [List.append_nil]
    exact f.blocks.nodup_keys.sublist List.filter_sublist
  obtain ⟨folded, hfold⟩ :=
    foldBranches_yields (s := f.facts) h.wf (fun l hl => (List.mem_filter.1 hl).1) hkeys
  have hdone : f.foldedOn f.facts ((f.blocks.keys.filter (· ∈ f.facts.blocks)).reverse ++ [])
      = f.foldedOn f.facts f.facts.blocks := by
    refine foldedOn_congr fun l hl => ?_
    have hl : l ∈ f.blocks.keys := hl
    simp [hl]
  rw [foldedOn_nil h.wf, hdone] at hfold
  have hdead : ∀ d ∈ (f.foldedOn f.facts f.facts.blocks).blocks.keys.filter (· ∉ f.facts.blocks),
      d ∈ (f.foldedOn f.facts f.facts.blocks).blocks := fun d hd => (List.mem_filter.1 hd).1
  have hdelete := ((h.wf.foldedOn f.facts f.facts.blocks).linked).deleteBlocks
    (List.Nodup.sublist List.filter_sublist (Table.nodup_keys _)) hdead
  have hsame : (f.foldedOn f.facts f.facts.blocks).keepBlocks (fun l =>
        decide (l ∉ (f.foldedOn f.facts f.facts.blocks).blocks.keys.filter (· ∉ f.facts.blocks)))
      = (f.foldedOn f.facts f.facts.blocks).keepBlocks fun l => decide (l ∈ f.facts.blocks) := by
    refine ((h.wf.foldedOn f.facts f.facts.blocks).linked).keepBlocks_congr fun l hl => ?_
    have hl : l ∈ (f.foldedOn f.facts f.facts.blocks).blocks.keys := hl
    simp [hl]
  rw [hsame] at hdelete
  apply Exists.intro
  refine (Edit.yields_get f).bind ?_
  rw [h.ssa]
  refine h.wf.findConstants.bind
    (hfold.bind ((Edit.yields_get _).bind (hdelete.bind ((Edit.yields_get _).bind
    ((Edit.yields_modify _ _).bind ?_)))))
  exact (Edit.yields_emit _ _).bind (Edit.yields_pure _ _)

/-! ## The result is well-formed -/

theorem mem_next_propagated (wf : f.WellFormed) {x : Label} :
    x ∈ (f.propagated s).graph.next p ↔ p ∈ s.blocks ∧ x ∈ f.graph.next p ∧
      f.loses s p x = false := by
  have hgraph : (f.propagated s).graph = ((f.foldedOn s s.blocks).keepBlocks fun l =>
      decide (l ∈ s.blocks)).graph :=
    graph_rewrite fun _ b _ => s.successors_putConstants b
  rw [hgraph, next_keepBlocks]
  by_cases hp : p ∈ s.blocks
  · rw [if_pos (decide_eq_true hp), mem_next_foldedOn wf]
    simp [hp]
  · rw [if_neg (by simpa using hp)]
    simp [hp]

theorem keepsEdge_iff : f.keepsEdge s l p = true ↔ p ∈ s.blocks ∧ f.loses s p l = false := by
  by_cases hp : p ∈ s.blocks <;> simp [keepsEdge, hp]

/-- Control in the result runs along edges that the search found. -/
theorem mem_edges_of_next (sol : s.Solves f) (h : f.IsSsa) (hentry : f.EntryPhiFree) {x : Label}
    (hx : x ∈ (f.propagated s).graph.next p) : (p, x) ∈ s.edges := by
  obtain ⟨hp, hnext, hlost⟩ := (mem_next_propagated h.wf).1 hx
  obtain ⟨b, hb⟩ := exists_block.1 (sol.block p hp)
  obtain ⟨t, ht⟩ := Option.ne_none_iff_exists'.1 (h.wf.closed hb)
  rw [loses_of_block hb ht] at hlost
  rw [next_graph hb, Block.successors, ht] at hnext
  have hfold : x ∈ (s.foldTerm t).targets :=
    Facts.mem_targets_foldTerm.2 ⟨hnext, of_decide_eq_false hlost⟩
  refine sol.term p hp b hb t ht x (Facts.mem_targets_of_foldTerm (fun y hy => ?_) hfold)
  exact sol.term_ne_top h hentry hp hb ht hy

/-- An edge that the search found is left. -/
theorem mem_next_of_edges (sol : s.Solves f) (wf : f.WellFormed) {x : Label} (hp : p ∈ s.blocks)
    (he : (p, x) ∈ s.edges) : x ∈ (f.propagated s).graph.next p := by
  obtain ⟨b, t, hb, ht, hx⟩ := sol.allowed p x he
  refine (mem_next_propagated wf).2 ⟨hp, (sol.edge p x he).2, ?_⟩
  rw [loses_of_block hb ht]
  exact decide_eq_false (Facts.mem_targets_foldTerm.1 (Facts.mem_foldTerm_of_targets hx)).2

/-- Nothing is left that cannot be reached. -/
theorem reachable_propagated (sol : s.Solves f) (wf : f.WellFormed)
    (hl : l ∈ (f.propagated s).blocks) : (f.propagated s).graph.Reachable l := by
  obtain ⟨b, hb⟩ := exists_block.1 hl
  -- The search came to each of its blocks along edges that are left.
  have hpath := sol.reached l (of_block?_propagated hb).1
  clear hl hb
  induction hpath with
  | refl => exact Graph.reachable_entry
  | tail hpath he ih => exact ih.step (mem_next_of_edges sol wf (sol.mem_of_path hpath) he)

theorem wf_propagated (sol : s.Solves f) (h : f.IsSsa) (hentry : f.EntryPhiFree) :
    (f.propagated s).WellFormed := by
  have hkeep : ((f.foldedOn s s.blocks).keepBlocks fun l => decide (l ∈ s.blocks)).WellFormed := by
    refine (h.wf.foldedOn s s.blocks).keepBlocks (decide_eq_true sol.entry) fun l x hl hx => ?_
    have hnext := (mem_next_foldedOn h.wf).1 hx
    have hl := of_decide_eq_true hl
    have hedge := mem_edges_of_next sol h hentry ((mem_next_propagated h.wf).2 ⟨hl, hnext.1,
      hnext.2 hl⟩)
    exact decide_eq_true (sol.edge _ _ hedge).1
  refine hkeep.rewrite fun l b hb => ⟨rfl, rfl, s.successors_putConstants b, fun hterm => ?_,
    fun htidy => ?_⟩
  · show b.term.map _ ≠ none
    simpa using hterm
  · exact (s.putConstants_spec htidy).2.2

end Func

/-! ## The function runs as before -/

namespace Facts

variable {f : Func} {s : Facts}

/-- After the instructions `pre` of block `l`, variables hold what they are known to hold. -/
def Right (s : Facts) (f : Func) (l : Label) (pre : List Instr) (env : Env) : Prop :=
  ∀ v, f.AvailIn l v ∨ v ∈ destsOf pre → ∀ n, s.constOf? v = some n → env.getD v 0 = n

theorem Right.value (h : s.Right f l pre env)
    (hx : ∀ v, x = .var v → f.AvailIn l v ∨ v ∈ destsOf pre) (hn : s.valueOf x = .const n) :
    env.value x = n := by
  cases x with
  | const m =>
    cases hn
    rfl
  | var v => exact h v (hx v rfl) n (constOf?_eq_some.2 hn)
  | undefined => cases hn

/-- Operands keep their values when constants are put in. -/
theorem Right.value_substitute (h : s.Right f l pre env)
    (hagree : ∀ v, s.constOf? v = none → env'.getD v 0 = env.getD v 0)
    (hx : ∀ v, x = .var v → f.AvailIn l v ∨ v ∈ destsOf pre) :
    env'.value (s.substitute x) = env.value x := by
  cases x with
  | const m => rfl
  | undefined => rfl
  | var v =>
    cases hc : s.constOf? v with
    | none =>
      simp only [substitute, hc]
      exact hagree v hc
    | some n =>
      simp only [substitute, hc]
      exact (h v (hx v rfl) n hc).symm

/-- A pure definition of a constant computes that constant. -/
theorem Solves.effect_of_redundant (sol : s.Solves f) (hl : l ∈ s.blocks) (hb : f.block? l = some b)
    (hi : i ∈ b.instrs) (hphi : i.isPhi = false) (hred : s.isRedundant i = true)
    (htop : ∀ x ∈ i.uses, s.valueOf x ≠ .top)
    (hvalue : ∀ x ∈ i.uses, ∀ n, s.valueOf x = .const n → env.value x = n) (w : World) :
    ∃ d n, i.dest? = some d ∧ s.constOf? d = some n ∧ i.effect env.value w = .assign d n w := by
  have hresult : ∀ {d n}, i.dest? = some d → s.constOf? d = some n → s.result l i = .const n := by
    intro d n hd hn
    have hbelow := sol.valueOf_below hl hb hi hd
    rw [constOf?_eq_some.1 hn] at hbelow
    exact (Constancy.of_const_below hbelow).resolve_left (result_ne_top hphi htop)
  cases i with
  | phi φ => cases hphi
  | copy d x =>
    obtain ⟨n, hn⟩ := Option.isSome_iff_exists.1 hred
    have hx : s.valueOf x = .const n := hresult rfl hn
    exact ⟨d, n, rfl, hn, by rw [Instr.effect, hvalue x (by simp [Instr.uses]) n hx]⟩
  | unary d op x =>
    obtain ⟨n, hn⟩ := Option.isSome_iff_exists.1 hred
    have hr : (foldUnary op (s.valueOf x)).toOption.getD .bottom = .const n := hresult rfl hn
    refine ⟨d, n, rfl, hn, ?_⟩
    cases hx : s.valueOf x with
    | top => exact absurd hx (htop x (by simp [Instr.uses]))
    | bottom => simp [hx, foldUnary, Except.toOption] at hr
    | const a =>
      have ha := hvalue x (by simp [Instr.uses]) a hx
      cases he : evalUnary op a <;> simp [hx, foldUnary, he, Except.map, Except.toOption] at hr
      simp only [Instr.effect, ha, he, hr]
  | binary d op x y =>
    obtain ⟨n, hn⟩ := Option.isSome_iff_exists.1 hred
    have hr : (foldBinary op (s.valueOf x) (s.valueOf y)).toOption.getD .bottom = .const n :=
      hresult rfl hn
    refine ⟨d, n, rfl, hn, ?_⟩
    cases hx : s.valueOf x with
    | top => exact absurd hx (htop x (by simp [Instr.uses]))
    | bottom => simp [hx, foldBinary, Except.toOption] at hr
    | const a =>
      cases hy : s.valueOf y with
      | top => exact absurd hy (htop y (by simp [Instr.uses]))
      | bottom => simp [hx, hy, foldBinary, Except.toOption] at hr
      | const c =>
        have ha := hvalue x (by simp [Instr.uses]) a hx
        have hc := hvalue y (by simp [Instr.uses]) c hy
        cases he : evalBinary op a c <;>
          simp [hx, hy, foldBinary, he, Except.map, Except.toOption] at hr
        simp only [Instr.effect, ha, hc, he, hr]
  | _ => cases hred

/-- Where facts are right, that constant is assigned. -/
theorem Solves.effect_of_right (sol : s.Solves f) (h : f.IsSsa) (hentry : f.EntryPhiFree)
    (hl : l ∈ s.blocks) (hb : f.block? l = some b) (heq : b.instrs = pre ++ i :: rest)
    (hi : i.isPhi = false) (hred : s.isRedundant i = true) (hright : s.Right f l pre env)
    (w : World) :
    ∃ d n, i.dest? = some d ∧ s.constOf? d = some n ∧ i.effect env.value w = .assign d n w := by
  have hmem : i ∈ b.instrs := heq ▸ List.mem_append_right _ (.head _)
  refine sol.effect_of_redundant hl hb hmem hi hred (fun x hx =>
    sol.instr_ne_top h hentry hl hb hmem hi hx)
    (fun x hx n hn => hright.value ?_ hn) w
  exact h.form.operand_available (sol.reachable hl) hb heq hi hx

/-- Other instructions define no constants. -/
theorem Solves.constOf?_of_kept (sol : s.Solves f) (hl : l ∈ s.blocks) (hb : f.block? l = some b)
    (hi : i ∈ b.instrs) (hkept : s.isRedundant i = false) (hd : i.dest? = some d) :
    s.constOf? d = none := by
  cases hn : s.constOf? d with
  | none => rfl
  | some n =>
    have hbelow := sol.valueOf_below hl hb hi hd
    rw [constOf?_eq_some.1 hn] at hbelow
    cases i with
    | load e a => cases hbelow
    | read e => cases hbelow
    | call e g args => cases hbelow
    | store a v => cases hd
    | write v => cases hd
    | _ =>
      cases hd
      simp [isRedundant, hn] at hkept

/-- Right facts stay right when an instruction assigns what they say. -/
theorem Right.write (h : s.Right f l pre env)
    (hn : ∀ d, i.dest? = some d → ∀ m, s.constOf? d = some m → n = m) :
    s.Right f l (pre ++ [i]) (env.write i.dest? n) := by
  intro v hv m hm
  by_cases hd : i.dest? = some v
  · rw [hd, Env.getD_write_self]
    exact hn v hd m hm
  · rw [Env.getD_write_of_ne hd]
    refine h v (hv.imp_right fun hv => ?_) m hm
    obtain ⟨j, hj, hjd⟩ := mem_destsOf.1 hv
    rcases List.mem_append.1 hj with hj | hj
    · exact mem_destsOf.2 ⟨j, hj, hjd⟩
    · rw [List.mem_singleton.1 hj] at hjd
      exact absurd hjd hd

/-- At the entry only the parameters are available, and nothing is known of them. -/
theorem Solves.right_entry (sol : s.Solves f) (env : Env) : s.Right f f.entry [] env := by
  intro v hv n hn
  rcases hv with (hv | ⟨a, ha, _⟩) | hv
  · obtain ⟨p, hp, rfl⟩ := List.mem_map.1 hv
    have hbottom : s.valueOf (.var ⟨p, some 0⟩) = .bottom := Table.getD_of_get? (sol.params p hp)
    rw [constOf?_eq_some, hbottom] at hn
    cases hn
  · exact absurd rfl ha.ne_entry
  · cases hv

/-- At the end of a block, facts are right for all that is available there. -/
theorem Right.value_of_availOut (h : s.Right f l b.instrs env) (hb : f.block? l = some b)
    (hx : ∀ v, x = .var v → f.AvailOut l v) (hn : s.valueOf x = .const n) : env.value x = n :=
  h.value (fun v hv => (hx v hv).imp_right (Func.defines_iff hb).1) hn

end Facts

namespace Func

variable {f : Func} {s : Facts}

/-- What relates activations: variables hold what is known of them, and agree off the constants. -/
inductive OffConstants (f : Func) (s : Facts) : Frame → Frame → Prop
  | mk {l : Label} {b : Block} {pre rest : List Instr} {env env' : Env} : l ∈ s.blocks →
    f.block? l = some b →
    b.instrs = pre ++ rest → (∀ i ∈ rest, i.isPhi = false) → s.Right f l pre env →
    (∀ v, s.constOf? v = none → env'.getD v 0 = env.getD v 0) →
    OffConstants f s ⟨f, l, rest, b.term, env⟩
      ⟨f.propagated s, l, (rest.filter (!s.isRedundant ·)).map (·.mapUses s.substitute),
        b.term.map fun t => (s.foldTerm t).mapUses s.substitute, env'⟩

/-- Only definitions of constants are skipped: the function with them walks on by itself until one
is due that is left in both. -/
theorem OffConstants.skip (sol : s.Solves f) (h : f.IsSsa) (hentry : f.EntryPhiFree)
    {fr fr' : Frame} (hr : OffConstants f s fr fr') (w : World) :
    ∃ n fr₁, Walks n fr w fr₁ w ∧ OffConstants f s fr₁ fr' ∧ ∀ i ∈ fr₁.code.head?,
      s.isRedundant i = false := by
  cases hr with
  | @mk l b pre rest env env' hl hb heq hrest hright hagree =>
    induction rest generalizing pre env with
    | nil => exact ⟨0, _, .refl, .mk hl hb heq hrest hright hagree, by simp⟩
    | cons i rest ih =>
      cases hred : s.isRedundant i with
      | false => exact ⟨0, _, .refl, .mk hl hb heq hrest hright hagree, by simpa using hred⟩
      | true =>
        have hi : i.isPhi = false := hrest i (.head _)
        obtain ⟨d, n, hd, hn, heff⟩ := sol.effect_of_right h hentry hl hb heq hi hred hright w
        have hact : Frame.act ⟨f, l, i :: rest, b.term, env⟩ w = .go ⟨f, l, rest, b.term,
            env.insert d n⟩ w := by
          show Frame.after _ rest (i.effect env.value w) = _
          rw [heff]
          rfl
        have hright' : s.Right f l (pre ++ [i]) (env.insert d n) := by
          have := hright.write (i := i) (n := n) fun d' hd' m hm => by
            cases hd.symm.trans hd'
            exact Option.some.inj (hn.symm.trans hm)
          rwa [hd] at this
        have hagree' : ∀ v, s.constOf? v = none → env'.getD v 0 = (env.insert d n).getD v 0 := by
          intro v hv
          rw [Env.getD_insert_ne _ _ fun hvd => by rw [hvd, hn] at hv; cases hv]
          exact hagree v hv
        obtain ⟨k, fr₁, hwalks, hr₁, hhead⟩ := ih (by rw [heq, List.append_assoc]; rfl)
          (fun j hj => hrest j (.tail _ hj)) hright' hagree'
        rw [List.filter_cons_of_neg (by simp [hred])]
        exact ⟨k + 1, fr₁, .step hact hwalks, hr₁, hhead⟩

/-- A phi that is found constant gets that constant on each edge that runs. -/
theorem operand_of_const (sol : s.Solves f) (h : f.IsSsa) (hentry : f.EntryPhiFree) {x : Label}
    {c : Block} (hl : l ∈ s.blocks) (he : (l, x) ∈ s.edges) (hc : f.block? x = some c) {φ : Phi}
    (hφ : φ ∈ c.phis) (hn : s.constOf? φ.dest = some n) : s.valueOf (φ.operand l) = .const n := by
  obtain ⟨hx, hnext⟩ := sol.edge _ _ he
  have hlabel : l ∈ φ.labels := (h.wf.tidy hc).labels_eq φ hφ ▸ (h.wf.mem_preds hc).2 hnext
  have hbelow := sol.valueOf_below hx hc ((h.wf.tidy hc).phi_mem_iff.2 hφ) rfl
  rw [Facts.constOf?_eq_some.1 hn] at hbelow
  have hoperand : (s.phiValue x φ).Below (s.valueOf (φ.operand l)) := by
    obtain ⟨a, ha, rfl, hval⟩ := Phi.exists_operand hlabel
    rw [← hval]
    exact Constancy.foldl_meet_below (List.mem_map.2 ⟨a, List.mem_filter.2 ⟨ha, decide_eq_true he⟩,
      rfl⟩) _
  refine (Constancy.of_const_below (hbelow.trans hoperand)).resolve_left fun htop => ?_
  cases hval : φ.operand l with
  | var v =>
    rw [hval] at htop
    exact sol.ne_top h.wf h.form hentry hl
      (h.form.phi_operand_available (sol.reachable hl) (sol.reachable hx) hc hφ v hval) htop
  | const m => rw [hval] at htop; cases htop
  | undefined => rw [hval] at htop; cases htop

/-- Facts are right again after an edge. -/
theorem right_of_edge (sol : s.Solves f) (h : f.IsSsa) (hentry : f.EntryPhiFree) {x : Label}
    {c : Block} (hl : l ∈ s.blocks) (hb : f.block? l = some b) (he : (l, x) ∈ s.edges)
    (hc : f.block? x = some c) (hright : s.Right f l b.instrs env) :
    s.Right f x (c.phis.map .phi) (env.assign (phiAssignments env l c.phis)) := by
  obtain ⟨hx, hnext⟩ := sol.edge _ _ he
  have hnodup := h.form.nodup_phis (sol.reachable hx) hc (h.wf.tidy hc)
  intro v hv n hn
  by_cases hmem : v ∈ c.phis.map (·.dest)
  · obtain ⟨φ, hφ, rfl⟩ := List.mem_map.1 hmem
    rw [getD_phiAssignments _ _ _ hnodup hφ]
    exact hright.value_of_availOut hb
      (h.form.phi_operand_available (sol.reachable hl) (sol.reachable hx) hc hφ)
      (operand_of_const sol h hentry hl he hc hφ hn)
  · rw [getD_phiAssignments_of_not_mem hmem]
    have hv : f.AvailIn x v := hv.resolve_right fun hdest => by
      rw [destsOf, List.filterMap_map] at hdest
      obtain ⟨φ, hφ, heq⟩ := List.mem_filterMap.1 hdest
      cases heq
      exact hmem (List.mem_map_of_mem hφ)
    exact hright v ((hv.of_edge hnext).imp_right (defines_iff hb).1) n hn

/-- The phis that are left assign what they did. -/
theorem agree_of_edge (sol : s.Solves f) (h : f.IsSsa) {x : Label} {c : Block} (hl : l ∈ s.blocks)
    (hb : f.block? l = some b) (hnext : x ∈ (f.propagated s).graph.next l) (hx : x ∈ s.blocks)
    (hc : f.block? x = some c) (hright : s.Right f l b.instrs env)
    (hagree : ∀ v, s.constOf? v = none → env'.getD v 0 = env.getD v 0) (hv : s.constOf? v = none) :
    (env'.assign (phiAssignments env' l (s.putConstants (f.trimmed s x c)).phis)).getD v 0
      = (env.assign (phiAssignments env l c.phis)).getD v 0 := by
  obtain ⟨_, hedge, hkept⟩ := (mem_next_propagated h.wf).1 hnext
  have hphis := (propagated_spec (f := f) (s := s) (h.wf.tidy hc) x).1
  have hnodup := h.form.nodup_phis (sol.reachable hx) hc (h.wf.tidy hc)
  have hdests : (s.putConstants (f.trimmed s x c)).phis.map (·.dest)
      = (c.phis.filter fun φ => (s.constOf? φ.dest).isNone).map (·.dest) := by
    rw [hphis, List.map_map]
    rfl
  by_cases hmem : v ∈ c.phis.map (·.dest)
  · obtain ⟨φ, hφ, rfl⟩ := List.mem_map.1 hmem
    rw [getD_phiAssignments _ _ _ hnodup hφ]
    have hleft : (φ.keep (f.keepsEdge s x)).mapValues s.substitute
        ∈ (s.putConstants (f.trimmed s x c)).phis := by
      rw [hphis]
      exact List.mem_map.2 ⟨φ, List.mem_filter.2 ⟨hφ, by simp [hv]⟩, rfl⟩
    have hnodup' : ((s.putConstants (f.trimmed s x c)).phis.map (·.dest)).Nodup := by
      rw [hdests]
      exact hnodup.sublist (List.filter_sublist.map _)
    have hoperand : ((φ.keep (f.keepsEdge s x)).mapValues s.substitute).operand l
        = s.substitute (φ.operand l) := by
      rw [Phi.operand_mapValues rfl, Phi.operand, Phi.valueFrom?_keep (keepsEdge_iff.2 ⟨hl, hkept⟩)]
      rfl
    refine (getD_phiAssignments env' env' l hnodup' hleft).trans ?_
    rw [hoperand]
    refine hright.value_substitute hagree fun w hw => ?_
    exact (h.form.phi_operand_available (sol.reachable hl) (sol.reachable hx) hc hφ w hw).imp_right
      (defines_iff hb).1
  · rw [getD_phiAssignments_of_not_mem hmem, getD_phiAssignments_of_not_mem, hagree v hv]
    rw [hdests]
    exact fun hv' => hmem ((List.filter_sublist.map _).subset hv')

section Related

/-- An instruction that is left does the same in both. -/
theorem OffConstants.instr (sol : s.Solves f) (h : f.IsSsa) (hl : l ∈ s.blocks)
    (hb : f.block? l = some b) (heq : b.instrs = pre ++ i :: rest)
    (hrest : ∀ j ∈ i :: rest, j.isPhi = false) (hright : s.Right f l pre env)
    (hagree : ∀ v, s.constOf? v = none → env'.getD v 0 = env.getD v 0)
    (hkept : s.isRedundant i = false) (w : World) :
    Agree (OffConstants f s) (Frame.act ⟨f, l, i :: rest, b.term, env⟩ w)
      (Frame.act ⟨f.propagated s, l,
        i.mapUses s.substitute :: (rest.filter (!s.isRedundant ·)).map (·.mapUses s.substitute),
        b.term.map fun t => (s.foldTerm t).mapUses s.substitute, env'⟩ w) := by
  have hi : i.isPhi = false := hrest i (.head _)
  have hmem : i ∈ b.instrs := heq ▸ List.mem_append_right _ (.head _)
  have heff : (i.mapUses s.substitute).effect env'.value w = i.effect env.value w := by
    rw [Instr.effect_mapUses i hi]
    exact Instr.effect_congr hi w fun x hx =>
      hright.value_substitute hagree (h.form.operand_available (sol.reachable hl) hb heq hi hx)
  have hname : f.name = (f.propagated s).name := rfl
  refine agree_instr_of_eq hname hi (i.dest?_mapUses _) heff fun n => ?_
  refine .mk hl hb (by rw [heq, List.append_assoc]; rfl) (fun j hj => hrest j (.tail _ hj))
    (hright.write fun d hd m hm => ?_) fun v hv => Env.getD_write_congr (hagree v hv) i.dest? n
  rw [sol.constOf?_of_kept hl hb hmem hkept hd] at hm
  cases hm

/-- The terminator that is left leads where it did. -/
theorem exit_propagated (sol : s.Solves f) (h : f.IsSsa) (hl : l ∈ s.blocks)
    (hb : f.block? l = some b) (ht : b.term = some t) (hright : s.Right f l b.instrs env)
    (hagree : ∀ v, s.constOf? v = none → env'.getD v 0 = env.getD v 0) :
    ((s.foldTerm t).mapUses s.substitute).exit env'.value = t.exit env.value := by
  have havail : ∀ x ∈ t.uses, ∀ v, x = .var v → f.AvailIn l v ∨ v ∈ destsOf b.instrs :=
    fun x hx v hv =>
    (h.form.termUse (sol.reachable hl) hb ht (hv ▸ hx)).imp_right (defines_iff hb).1
  have hvalues : ∀ x ∈ t.uses, env'.value (s.substitute x) = env.value x := fun x hx =>
    hright.value_substitute hagree (havail x hx)
  rw [Terminator.exit_mapUses, Facts.exit_foldTerm]
  · exact Terminator.exit_congr hvalues
  · intro x hx n hn
    rw [hvalues x hx]
    exact hright.value (havail x hx) hn

/-- An edge that is left leads to related activations. -/
theorem OffConstants.edge (sol : s.Solves f) (h : f.IsSsa) (hentry : f.EntryPhiFree) {x : Label}
    (hl : l ∈ s.blocks) (hb : f.block? l = some b) (hright : s.Right f l b.instrs env)
    (hagree : ∀ v, s.constOf? v = none → env'.getD v 0 = env.getD v 0)
    (hnext : x ∈ (f.propagated s).graph.next l) :
    ∃ fr fr', Frame.enter f env (some l) x = .ok fr ∧
      Frame.enter (f.propagated s) env' (some l) x = .ok fr' ∧
      OffConstants f s fr fr' := by
  have he := mem_edges_of_next sol h hentry hnext
  obtain ⟨hx, hedge⟩ := sol.edge _ _ he
  obtain ⟨c, hc⟩ := exists_block.1 (sol.block x hx)
  have henter := (wf_propagated sol h hentry).enter_eq env' (block?_propagated hx hc) hnext
  obtain ⟨_, hbody, hterm⟩ := propagated_spec (f := f) (s := s) (h.wf.tidy hc) x
  rw [hbody, hterm] at henter
  exact ⟨_, _, h.wf.enter_eq env hc hedge, henter,
    .mk hx hc (h.wf.tidy hc).instrs_eq (fun i hi => c.isPhi_of_mem_body hi)
      (right_of_edge sol h hentry hl hb he hc hright)
      fun v hv => agree_of_edge sol h hl hb hnext hx hc hright hagree hv⟩

end Related

theorem propagated_simulation (sol : s.Solves f) (h : f.IsSsa) (hentry : f.EntryPhiFree) :
    Simulation NoMore f (f.propagated s) fun _ => OffConstants f s where
  start args := by
    obtain ⟨b, hb⟩ := exists_block.1 h.wf.entry_mem
    have hb' : (f.propagated s).block? (f.propagated s).entry = some _ :=
      block?_propagated sol.entry hb
    obtain ⟨_, hbody, hterm⟩ :=
      propagated_spec (f := f) (s := s) (h.wf.tidy hb) (f.propagated s).entry
    refine ⟨_, _, start_eq hb args, start_eq hb' args, fun _ => ?_⟩
    rw [hbody, hterm]
    exact .mk sol.entry hb (hentry.instrs_eq h.wf hb) (fun i hi => b.isPhi_of_mem_body hi)
      (sol.right_entry _)
      fun _ _ => rfl
  step fr fr' w hr := by
    obtain ⟨n, fr₁, hwalks, hr₁, hhead⟩ := hr.skip sol h hentry w
    refine .after_walks pace_noMore (Nat.zero_le n) hwalks .refl ?_
    clear hr hwalks
    cases hr₁ with
    | @mk l b pre rest env env' hl hb heq hrest hright hagree =>
      cases rest with
      | cons i rest =>
        have hkept : s.isRedundant i = false := hhead i rfl
        rw [List.filter_cons_of_pos (by simp [hkept]), List.map_cons]
        exact (OffConstants.instr sol h hl hb heq hrest hright hagree hkept w).match pace_noMore
          fun _ _ _ hab => hab
      | nil =>
        obtain ⟨t, ht⟩ := Option.ne_none_iff_exists'.1 (h.wf.closed hb)
        rw [List.append_nil] at heq
        subst heq
        have hexit := exit_propagated sol h hl hb ht hright hagree
        rw [ht]
        refine (agree_exit hexit fun x hgoto => ?_).match pace_noMore fun _ _ _ hab => hab
        refine OffConstants.edge sol h hentry hl hb hright hagree ?_
        rw [next_graph (block?_propagated hl hb), Block.successors,
          (propagated_spec (f := f) (s := s) (h.wf.tidy hb) l).2.2, ht]
        exact Terminator.mem_targets_of_exit (hexit.trans hgoto)

/-! ## SSA form stays -/

theorem subgraph_propagated (h : f.IsSsa) : (f.propagated s).graph.Subgraph f.graph where
  entry_eq := rfl
  next _ _ hx := ((mem_next_propagated h.wf).1 hx).2.1

theorem destsOf_map_mapUses (g : Operand → Operand) (instrs : List Instr) :
    destsOf (instrs.map (·.mapUses g)) = destsOf instrs := by
  rw [destsOf, List.filterMap_map]
  exact List.filterMap_congr fun i _ => i.dest?_mapUses g

theorem dests_propagated (wf : f.WellFormed) (l : Label) (hb : f.block? l = some b) :
    destsOf (s.putConstants (f.trimmed s l b)).instrs
      = (b.phis.filter fun φ => (s.constOf? φ.dest).isNone).map (·.dest) ++
      destsOf (b.body.filter (!s.isRedundant ·)) := by
  have htidy := (s.putConstants_spec (trimmed_spec (f := f) (s := s) (wf.tidy hb) l).2.2).2.2
  obtain ⟨hphis, hbody, _⟩ := propagated_spec (f := f) (s := s) (wf.tidy hb) l
  rw [htidy.destsOf_eq, hphis, hbody, List.map_map, destsOf_map_mapUses]
  rfl

theorem dests_sublist (wf : f.WellFormed) (l : Label) (hb : f.block? l = some b) :
    (destsOf (s.putConstants (f.trimmed s l b)).instrs).Sublist (destsOf b.instrs) := by
  rw [dests_propagated wf l hb, (wf.tidy hb).destsOf_eq]
  exact (List.filter_sublist.map _).append (List.filter_sublist.filterMap _)

theorem constOf?_of_redundant (h : s.isRedundant i = true) (hd : i.dest? = some d) :
    s.constOf? d ≠ none := by
  intro hn
  cases i with
  | load e a => cases h
  | read e => cases h
  | call e g args => cases h
  | store a v => cases h
  | write v => cases h
  | _ =>
    cases hd
    simp [Facts.isRedundant, hn] at h

theorem mem_dests_of_filter {instrs : List Instr} (hv : v ∈ destsOf instrs)
    (hn : s.constOf? v = none) : v ∈ destsOf (instrs.filter (!s.isRedundant ·)) := by
  obtain ⟨i, hi, hd⟩ := mem_destsOf.1 hv
  refine mem_destsOf.2 ⟨i, List.mem_filter.2 ⟨hi, ?_⟩, hd⟩
  cases hred : s.isRedundant i with
  | false => rfl
  | true => exact absurd hn (constOf?_of_redundant hred hd)

/-- What is not constant is still defined. -/
theorem Defines.propagated (wf : f.WellFormed) (h : f.Defines l v) (hl : l ∈ s.blocks)
    (hn : s.constOf? v = none) : (f.propagated s).Defines l v := by
  obtain ⟨b, hb, hv⟩ := h
  refine ⟨_, block?_propagated hl hb, ?_⟩
  rw [dests_propagated wf l hb]
  rw [(wf.tidy hb).destsOf_eq] at hv
  rcases List.mem_append.1 hv with hv | hv
  · obtain ⟨φ, hφ, rfl⟩ := List.mem_map.1 hv
    exact List.mem_append_left _ (List.mem_map_of_mem (List.mem_filter.2 ⟨hφ, by simp [hn]⟩))
  · exact List.mem_append_right _ (mem_dests_of_filter hv hn)

theorem AvailIn.propagated (h : f.IsSsa) (wf' : (f.propagated s).WellFormed)
    (hl : (f.propagated s).graph.Reachable l) (hv : f.AvailIn l v) (hn : s.constOf? v = none) :
    (f.propagated s).AvailIn l v := by
  rcases hv with hv | ⟨a, ha, hdef⟩
  · exact .inl hv
  · have ha' := (subgraph_propagated (s := s) h).strictlyDominates ha
    obtain ⟨b', hb'⟩ := wf'.block_of_reachable (ha'.2.reachable hl)
    exact .inr ⟨a, ha', hdef.propagated h.wf (of_block?_propagated hb').1 hn⟩

theorem AvailOut.propagated (h : f.IsSsa) (wf' : (f.propagated s).WellFormed)
    (hl : (f.propagated s).graph.Reachable l) (hv : f.AvailOut l v) (hn : s.constOf? v = none) :
    (f.propagated s).AvailOut l v := by
  obtain ⟨b', hb'⟩ := wf'.block_of_reachable hl
  exact hv.imp (·.propagated h wf' hl hn) (·.propagated h.wf (of_block?_propagated hb').1 hn)

/-- A variable that is left was there, and is not constant. -/
theorem substitute_eq_var (h : s.substitute x = .var v) : x = .var v ∧ s.constOf? v = none := by
  cases x with
  | var w =>
    cases hw : s.constOf? w with
    | none =>
      simp only [Facts.substitute, hw] at h
      cases h
      exact ⟨rfl, hw⟩
    | some n =>
      simp only [Facts.substitute, hw] at h
      cases h
  | const n => cases h
  | undefined => cases h

theorem substitute_eq_undefined (h : s.substitute x = .undefined) : x = .undefined := by
  cases x with
  | var w => cases hw : s.constOf? w <;> simp [Facts.substitute, hw] at h
  | const n => cases h
  | undefined => rfl

/-- The phis of the result come from phis, with fewer operands. -/
theorem of_mem_phis_propagated (wf : f.WellFormed) (hb : f.block? l = some b) {φ' : Phi}
    (hφ' : φ' ∈ (s.putConstants (f.trimmed s l b)).phis) {a' : PhiArg} (ha' : a' ∈ φ'.incoming) :
    ∃ φ ∈ b.phis, ∃ a ∈ φ.incoming, a'.block = a.block ∧ a'.value = s.substitute a.value := by
  rw [(propagated_spec (wf.tidy hb) l).1] at hφ'
  obtain ⟨φ, hφ, rfl⟩ := List.mem_map.1 hφ'
  obtain ⟨a, ha, rfl⟩ := List.mem_map.1 ha'
  exact ⟨φ, (List.mem_filter.1 hφ).1, a, (List.mem_filter.1 ha).1, rfl, rfl⟩

theorem SsaForm.propagated (h : f.IsSsa) (wf' : (f.propagated s).WellFormed) :
    (f.propagated s).SsaForm where
  toDefinedOnce := by
    refine h.form.toDefinedOnce.of_sublist rfl (fun l hl => (subgraph_propagated h).reachable hl)
      fun l b' hb' => ?_
    obtain ⟨_, b, hb, rfl⟩ := of_block?_propagated hb'
    exact ⟨b, hb, dests_sublist h.wf l hb⟩
  use {l b' pre i post v} hl hb' heq hi hv := by
    obtain ⟨hmem, b, hb, rfl⟩ := of_block?_propagated hb'
    obtain ⟨hphis, hbody, _⟩ := propagated_spec (f := f) (s := s) (h.wf.tidy hb) l
    obtain ⟨pre', rfl, hpre'⟩ := (wf'.tidy hb').split_body heq hi
    rw [hbody] at hpre'
    obtain ⟨xs, ys, hfilter, rfl, hys⟩ := List.map_eq_append_iff.1 hpre'
    obtain ⟨j, zs, rfl, rfl, _⟩ := List.map_eq_cons_iff.1 hys
    obtain ⟨before, rest, hsplit, rfl, hrest⟩ := List.filter_eq_append_iff.1 hfilter
    obtain ⟨skipped, after, rfl, hskipped, _, _⟩ := List.filter_eq_cons_iff.1 hrest
    rw [Instr.isPhi_mapUses] at hi
    rw [Instr.uses_mapUses] at hv
    obtain ⟨x, hx, hxv⟩ := List.mem_map.1 hv
    obtain ⟨rfl, hn⟩ := substitute_eq_var hxv
    have hinstrs : b.instrs = (b.phis.map .phi ++ (before ++ skipped)) ++ j :: after := by
      rw [(h.wf.tidy hb).instrs_eq, hsplit, List.append_assoc, List.append_assoc]
    rcases h.form.use ((subgraph_propagated h).reachable hl) hb hinstrs hi hx with hin | hpre
    · exact .inl (hin.propagated h wf' hl hn)
    · refine .inr ?_
      rw [destsOf_append, destsOf_map_phi] at hpre ⊢
      rw [destsOf_map_mapUses, hphis, List.map_map]
      rcases List.mem_append.1 hpre with hpre | hpre
      · obtain ⟨φ, hφ, rfl⟩ := List.mem_map.1 hpre
        refine List.mem_append_left _ (List.mem_map.2 ⟨φ, List.mem_filter.2 ⟨hφ, by simp [hn]⟩,
          rfl⟩)
      · have := mem_dests_of_filter hpre hn
        rw [List.filter_append, List.filter_eq_nil_iff.2 hskipped, List.append_nil] at this
        exact List.mem_append_right _ this
  termUse {l b' t' v} hl hb' ht' hv := by
    obtain ⟨hmem, b, hb, rfl⟩ := of_block?_propagated hb'
    rw [(propagated_spec (h.wf.tidy hb) l).2.2] at ht'
    obtain ⟨t, ht, rfl⟩ := Option.map_eq_some_iff.1 ht'
    rw [Terminator.uses_mapUses] at hv
    obtain ⟨x, hx, hxv⟩ := List.mem_map.1 hv
    obtain ⟨rfl, hn⟩ := substitute_eq_var hxv
    exact (h.form.termUse ((subgraph_propagated h).reachable hl) hb ht
      (Facts.mem_uses_of_foldTerm hx)).propagated
      h wf' hl hn
  phiUse {l b' φ' a' v} hl hb' hφ' ha' hp hv := by
    obtain ⟨hmem, b, hb, rfl⟩ := of_block?_propagated hb'
    obtain ⟨φ, hφ, a, ha, hblock, hvalue⟩ := of_mem_phis_propagated h.wf hb hφ' ha'
    rw [hvalue] at hv
    obtain ⟨hvar, hn⟩ := substitute_eq_var hv
    rw [hblock] at hp ⊢
    have sub := subgraph_propagated (s := s) h
    exact (h.form.phiUse (sub.reachable hl) hb hφ ha (sub.reachable hp) hvar).propagated h wf' hp hn

theorem IsSsa.propagated (h : f.IsSsa) (sol : s.Solves f) (hentry : f.EntryPhiFree) :
    (f.propagated s).IsSsa where
  wf := wf_propagated sol h hentry
  ssa := h.ssa
  form := .propagated h (wf_propagated sol h hentry)

theorem Counted.propagated (hcount : f.Counted) (wf : f.WellFormed) : (f.propagated s).Counted := by
  refine ⟨hcount.nonneg, fun {l v n} hv hn => ?_⟩
  obtain ⟨b', hb', hv⟩ := hv
  obtain ⟨_, b, hb, rfl⟩ := of_block?_propagated hb'
  exact hcount.bound ⟨b, hb, (dests_sublist wf l hb).subset hv⟩ hn

theorem EntryPhiFree.propagated (hentry : f.EntryPhiFree) (wf : f.WellFormed) :
    (f.propagated s).EntryPhiFree := by
  intro b' hb'
  obtain ⟨_, b, hb, rfl⟩ := of_block?_propagated hb'
  rw [(propagated_spec (wf.tidy hb) _).1, hentry b hb]
  rfl

theorem UndefinedAcyclic.propagated (hundef : f.UndefinedAcyclic) (h : f.IsSsa) :
    (f.propagated s).UndefinedAcyclic := by
  intro l b' φ' a' hl hb' hφ' ha' hvalue hleads
  obtain ⟨_, b, hb, rfl⟩ := of_block?_propagated hb'
  obtain ⟨φ, hφ, a, ha, hblock, heq⟩ := of_mem_phis_propagated h.wf hb hφ' ha'
  rw [heq] at hvalue
  have sub := subgraph_propagated (s := s) h
  exact hundef l b φ a (sub.reachable hl) hb hφ ha (substitute_eq_undefined hvalue)
    (hblock ▸ sub.leads hleads)

end Func

end ThreeAddress
