import ThreeAddress.Proofs.LegibleCode

/-!
# Runs of what is read back

A function that is printed and read again has the same code, with predecessors and phi operands in
layout order (`Func.Reordered`). It may have lost its form: a function in SSA form that mentions no
version is read as one that is not, and its parameters then arrive in other variables. Since no code
that control can come to reads a variable without a version in SSA form, no run can tell
(`Program.run_reread`).
-/

namespace ThreeAddress

open Text

variable {preds : List Label}

/-! ## The same code in another order -/

/-- The instructions are the same, or phis with the same operands in some order. -/
inductive Instr.Reordered : Instr → Instr → Prop
  | same (i : Instr) : Reordered i i
  | phi {φ φ' : Phi} : φ'.dest = φ.dest → φ'.incoming.Perm φ.incoming → Reordered (.phi φ) (.phi φ')

/-- The blocks are the same up to the order of predecessors and phi operands. -/
structure Block.Reordered (b b' : Block) : Prop where
  name_eq : b'.name = b.name
  instrs : List.Forall₂ Instr.Reordered b.instrs b'.instrs
  term_eq : b'.term = b.term
  preds : b'.preds.Perm b.preds

/-- The functions have the same name, parameters and entry, and the same blocks in the same order,
up to the order of predecessors and phi operands. -/
structure Func.Reordered (f f' : Func) : Prop where
  name_eq : f'.name = f.name
  params_eq : f'.params = f.params
  entry_eq : f'.entry = f.entry
  labels_eq : f'.blocks.keys = f.blocks.keys
  blocks : ∀ {l b}, f.block? l = some b → ∃ b', f'.block? l = some b' ∧ b.Reordered b'

/-- The programs have the same functions in the same order, up to the order of predecessors and phi
operands. -/
structure Program.Reordered (p p' : Program) : Prop where
  names_eq : p'.functions.keys = p.functions.keys
  functions : ∀ {key f}, p.function? key = some f → ∃ f', p'.function? key = some f' ∧
    f.Reordered f'

theorem forall₂_mapLeadingPhis {g : Phi → Phi} {instrs : List Instr}
    (h : ∀ φ ∈ leadingPhis instrs, Instr.Reordered (.phi φ) (.phi (g φ))) :
    List.Forall₂ Instr.Reordered instrs (mapLeadingPhis g instrs) := by
  induction instrs with
  | nil => exact .nil
  | cons i rest ih =>
    cases i with
    | phi φ => exact .cons (h φ (.head _)) (ih fun ψ hψ => h ψ (.tail _ hψ))
    | _ => exact List.forall₂_same.2 fun j _ => .same j

theorem filter_mapLeadingPhis (g : Phi → Phi) (instrs : List Instr) :
    (mapLeadingPhis g instrs).filter (!·.isPhi) = instrs.filter (!·.isPhi) := by
  induction instrs with
  | nil => rfl
  | cons i rest ih =>
    cases i with
    | phi φ => exact ih
    | _ => rfl

/-- Aligning a phi changes the order of its operands only. -/
theorem perm_alignPhi {φ : Phi} (hpreds : preds.Nodup) (h : φ.labels.Nodup) :
    (alignPhi preds φ).incoming.Perm φ.incoming := by
  refine (List.perm_ext_iff_of_nodup (labels_alignPhi_nodup hpreds h).of_map h.of_map).2 fun a =>
    ⟨mem_alignPhi, fun ha => ?_⟩
  by_cases hp : a.block ∈ preds
  · obtain ⟨a', ha'⟩ : ∃ a', φ.incoming.find? (·.block = a.block) = some a' :=
      Option.isSome_iff_exists.1 (List.find?_isSome.2 ⟨a, ha, by simp⟩)
    have hblock : a'.block = a.block := by simpa using List.find?_some ha'
    cases List.inj_on_of_nodup_map h (List.mem_of_find?_eq_some ha') ha hblock
    exact List.mem_append_left _ (List.mem_filterMap.2 ⟨_, hp, ha'⟩)
  · exact List.mem_append_right _ (List.mem_filter.2 ⟨ha, decide_eq_true hp⟩)

namespace Func

variable {f : Func} {l p : Label} {b : Block} {v : Var}

/-! ## What can be printed -/

theorem WellFormed.phisLead (wf : f.WellFormed) (hb : f.block? l = some b) : PhisLead b.instrs := by
  rw [(wf.tidy hb).instrs_eq, PhisLead, List.pairwise_append]
  refine ⟨List.pairwise_map.2 (List.pairwise_of_forall fun _ _ _ => rfl), ?_, fun i hi _ _ _ => ?_⟩
  · refine List.pairwise_iff_forall_sublist.2 fun hsub hphi => ?_
    rw [b.isPhi_of_mem_body (hsub.subset (List.mem_pair.2 (.inr rfl)))] at hphi
    cases hphi
  · obtain ⟨φ, _, rfl⟩ := List.mem_map.1 hi
    rfl

theorem WellFormed.labels_mem (wf : f.WellFormed) (hb : f.block? l = some b) {n : Node}
    (hn : n ∈ b.nodes) {x : Label} (hx : x ∈ n.labels) : x ∈ f.blocks := by
  rcases List.mem_append.1 hn with hn | hn
  · obtain ⟨i, hi, rfl⟩ := List.mem_map.1 hn
    cases i with
    | phi φ =>
      have hx : x ∈ φ.labels := hx
      rw [(wf.tidy hb).labels_eq φ ((wf.tidy hb).phi_mem_iff.1 hi), wf.mem_preds hb] at hx
      obtain ⟨c, hc, _⟩ := block_of_mem_next hx
      exact mem_blocks hc
    | _ => cases hx
  · obtain ⟨t, ht, rfl⟩ := List.mem_map.1 hn
    refine wf.targets hb x ?_
    rw [Block.successors, Option.mem_toList.1 ht]
    exact Terminator.mem_labels.1 hx

theorem Legible.printable (h : f.Legible) (wf : f.WellFormed) : f.Printable where
  spelled := h.spelled
  params_nodup := h.params_nodup
  entry_mem := wf.entry_mem
  name_eq := wf.name_eq
  closed := wf.closed
  lead := wf.phisLead
  labels hb _ hn _ hx := wf.labels_mem hb hn hx
  labels_nodup hb φ hφ := (wf.tidy hb).labels_eq φ hφ ▸ wf.nodup_preds hb

/-! ## The blocks that are read back -/

theorem WellFormed.laid (wf : f.WellFormed) : Laid f.blocks where
  nonempty := List.ne_nil_of_mem wf.entry_mem
  name_eq := wf.name_eq
  closed := wf.closed
  targets := wf.targets

theorem WellFormed.mem_sources (wf : f.WellFormed) : p ∈ f.sources l ↔ l ∈ f.graph.next p := by
  refine ((wf.laid.preds l).2 p).trans ⟨fun ⟨b, hb, hl⟩ => ?_, block_of_mem_next⟩
  rw [next_graph hb]
  exact hl

theorem WellFormed.perm_sources (wf : f.WellFormed) (hb : f.block? l = some b) :
    (f.sources l).Perm b.preds := by
  refine (List.perm_ext_iff_of_nodup (wf.laid.preds l).1 (wf.nodup_preds hb)).2 fun p => ?_
  exact wf.mem_sources.trans (wf.mem_preds hb).symm

/-- The block under a label as it is read back. -/
def readBack (f : Func) (l : Label) (b : Block) : Block :=
  { b with preds := f.sources l }.mapPhis (alignPhi (f.sources l))

theorem PhiFree.readBack (h : f.PhiFree) (hb : f.block? l = some b) :
    f.readBack l b = { b with preds := f.sources l } := by
  rw [Func.readBack, Block.mapPhis, mapLeadingPhis_of_phiFree _ (h l b hb)]

section Reread

variable (h : f.Printable) (hfirst : f.blocks.keys.head? = some f.entry)
include h hfirst

theorem Printable.ssa_reread : f.reread.ssa = f.nodes.any isSsaNode := by
  rw [← h.ssa_unaligned hfirst]
  unfold reread
  split
  · rfl
  · rfl

theorem Printable.block?_reread (l : Label) :
    f.reread.block? l = (f.block? l).map (f.readBack l) := by
  have hblock := h.block?_unaligned hfirst l
  unfold reread
  split
  · have haligned : f.unaligned.aligned.block? l = (f.unaligned.block? l).map fun b =>
        b.mapPhis (alignPhi b.preds) :=
      Table.get?_mapValues _ _ l
    rw [haligned, hblock, Option.map_map]
    rfl
  · rename_i hssa
    rw [h.ssa_unaligned hfirst, Bool.not_eq_true] at hssa
    rw [hblock]
    refine Option.map_congr fun b hb => ?_
    exact ((any_isSsaNode_eq_false.1 hssa).1.readBack hb).symm

theorem Printable.keys_reread : f.reread.blocks.keys = f.blocks.keys := by
  rw [← h.keys_unaligned hfirst]
  unfold reread
  split
  · exact Table.keys_mapValues _ _
  · rfl

theorem Printable.entry_reread : f.reread.entry = f.entry := by
  rw [← h.entry_unaligned hfirst]
  unfold reread
  split
  · rfl
  · rfl

end Reread

theorem params_reread (f : Func) : f.reread.params = f.params := by
  unfold reread
  split
  · rfl
  · rfl

theorem WellFormed.reordered_readBack (wf : f.WellFormed) (hb : f.block? l = some b) :
    b.Reordered (f.readBack l b) where
  name_eq := rfl
  instrs := by
    refine forall₂_mapLeadingPhis fun φ hφ => .phi rfl (perm_alignPhi (wf.laid.preds l).1 ?_)
    rw [(wf.tidy hb).labels_eq φ hφ]
    exact wf.nodup_preds hb
  term_eq := rfl
  preds := wf.perm_sources hb

/-! ## Runs -/

theorem phiValues_alignPhi (env : Env) (hp : p ∈ preds) (φs : List Phi) :
    phiValues env p (φs.map (alignPhi preds)) = phiValues env p φs := by
  induction φs with
  | nil => rfl
  | cons φ φs ih =>
    have hvalue : (alignPhi preds φ).valueFrom? p = φ.valueFrom? p := by
      rw [Phi.valueFrom?, find?_alignPhi hp, Phi.valueFrom?]
    rw [List.map_cons, phiValues, phiValues, hvalue, ih]
    rfl

/-- A block does the same when it is read back. -/
theorem WellFormed.sameCode_readBack (wf : f.WellFormed) (l : Label) (b : Block) :
    SameCode f l b (f.readBack l b) where
  body_eq := filter_mapLeadingPhis _ b.instrs
  term_eq := rfl
  values_eq p _ hl env := by
    rw [readBack, Block.phis, Block.mapPhis, leadingPhis_mapLeadingPhis]
    exact phiValues_alignPhi env (wf.mem_sources.2 hl) b.phis

/-- All that runs depend on shows in the text of the function. Where its form does not show, the
function is in SSA form and reads no variable. -/
structure Faithful (f : Func) : Prop extends Presentable f where
  wf : f.WellFormed
  form : f.IsSsa ∨ f.ssa = f.nodes.any isSsaNode

theorem Faithful.printable (h : f.Faithful) : f.Printable := h.toLegible.printable h.wf

theorem Faithful.reordered (h : f.Faithful) : f.Reordered f.reread where
  name_eq := f.name_reread
  params_eq := f.params_reread
  entry_eq := h.printable.entry_reread h.entry_first
  labels_eq := h.printable.keys_reread h.entry_first
  blocks {l b} hb := by
    refine ⟨f.readBack l b, ?_, h.wf.reordered_readBack hb⟩
    rw [h.printable.block?_reread h.entry_first, hb]
    rfl

/-- In SSA form only versioned names are read. -/
theorem IsSsa.version_of_reads (h : f.IsSsa) (hv : f.Reads v) : v.version ≠ none := by
  cases hv with
  | instr hl hb hi hv =>
    have hmem := List.mem_of_mem_filter hi
    exact h.form.version_of_availOut hl
      (h.form.availOut_of_use hl hb hmem (Block.isPhi_of_mem_body hi) hv)
  | term hl hb ht hv => exact h.form.version_of_availOut hl (h.form.termUse hl hb ht hv)
  | phi hp hl hb hφ hv =>
    exact h.form.version_of_availOut hp (h.form.phi_operand_available hp (hp.step hl) hb hφ v hv)

theorem Reads.version_of_plain (hv : f.Reads v) (hphi : f.PhiFree) (hplain : f.Plain) :
    v.version = none := by
  cases hv with
  | instr _ hb hi hv =>
    exact (hplain _ (mem_nodes_instr.2 ⟨_, _, hb, List.mem_of_mem_filter hi⟩)).2 v hv
  | term _ hb ht hv => exact (hplain _ (mem_nodes_term hb ht)).2 v hv
  | phi _ _ hb hφ _ =>
    rw [(Block.of_phiFree (hphi _ _ hb)).1] at hφ
    cases hφ

/-- What is read arrives in both functions. -/
theorem Faithful.getD_bindParams (h : f.Faithful) (args : List Int) (hv : f.Reads v) :
    (bindParams f.reread args).getD v 0 = (bindParams f args).getD v 0 := by
  have hform := h.printable.ssa_reread h.entry_first
  have hsame : f.reread.ssa = f.ssa → bindParams f.reread args = bindParams f args := by
    intro hssa
    rw [bindParams, bindParams, hssa, f.params_reread]
  rcases h.form with hssa | hssa
  · cases hany : f.nodes.any isSsaNode with
    | true => rw [hsame (hform.trans (hany.trans hssa.ssa.symm))]
    | false =>
      obtain ⟨hphi, hplain⟩ := any_isSsaNode_eq_false.1 hany
      exact absurd (hv.version_of_plain hphi hplain) (hssa.version_of_reads hv)
  · rw [hsame (hform.trans hssa.symm)]

theorem Faithful.start (h : f.Faithful) (args : List Int) :
    ∃ fr fr', f.start args = .ok fr ∧ f.reread.start args = .ok fr' ∧
      SamePlace f f.reread fr fr' := by
  obtain ⟨b, hb⟩ := exists_block.1 h.wf.entry_mem
  have hentry := h.printable.entry_reread h.entry_first
  have hb' : f.reread.block? f.reread.entry = some (f.readBack f.entry b) := by
    rw [hentry, h.printable.block?_reread h.entry_first, hb]
    rfl
  have same := h.wf.sameCode_readBack f.entry b
  refine ⟨_, _, start_eq hb args, start_eq hb' args, ?_⟩
  rw [same.body_eq, same.term_eq, hentry]
  exact .mk Graph.reachable_entry hb (List.Subset.refl _) fun v hv => h.getD_bindParams args hv

theorem Faithful.step (h : f.Faithful) {fr fr' : Frame} (w : World)
    (hr : SamePlace f f.reread fr fr') : Agree (SamePlace f f.reread) (fr.act w) (fr'.act w) := by
  refine samePlace_step h.wf f.name_reread (fun {l b} _ hb => ⟨f.readBack l b, ?_,
    h.wf.sameCode_readBack l b⟩) w hr
  rw [h.printable.block?_reread h.entry_first, hb]
  rfl

/-- A function that shows no SSA form prints as before. -/
theorem Faithful.render_reread (h : f.Faithful) (hnodes : f.nodes.any isSsaNode = false) :
    f.reread.render false = f.render false := by
  have hentry := h.printable.entry_reread h.entry_first
  have hkeys := h.printable.keys_reread h.entry_first
  have hphi := (any_isSsaNode_eq_false.1 hnodes).1
  have hblocks : f.reread.blocks = f.blocks.mapValues fun l b =>
      { b with preds := f.sources l } := by
    refine Table.ext_of_keys (hkeys.trans (Table.keys_mapValues _ _).symm) fun l _ => ?_
    rw [Table.get?_mapValues]
    refine (h.printable.block?_reread h.entry_first l).trans (Option.map_congr fun b hb =>
      hphi.readBack hb)
  have hfirst : f.reread.blocks.keys.head? = some f.reread.entry := by
    rw [hkeys, hentry]
    exact h.entry_first
  have hlines : (f.reread.blockList.flatMap fun b => b.lines false) = f.blockList.flatMap fun b =>
      b.lines false := by
    rw [blockList, hblocks, Table.values, Table.mapValues, blockList, Table.values, List.map_map,
      List.flatMap_map, List.flatMap_map]
    rfl
  rw [Func.render, Func.lines, Func.header, printOrder_of_first hfirst, hlines, f.name_reread,
    f.params_reread, Func.render, Func.lines, printOrder_of_first h.entry_first]
  rfl

end Func

/-! ## Programs -/

/-- All that runs depend on shows in the text of the program. -/
def Program.Faithful (p : Program) : Prop := ∀ {key f}, p.function? key = some f → f.name = key ∧
    f.Faithful

namespace Program

variable {p : Program}

theorem function?_reread (p : Program) (key : String) :
    p.reread.function? key = (p.function? key).map Func.reread :=
  Table.get?_mapValues _ _ key

theorem Faithful.printable (h : p.Faithful) : p.Printable :=
  fun hf => ⟨(h hf).1, (h hf).2.printable⟩

theorem Faithful.reordered (h : p.Faithful) : p.Reordered p.reread where
  names_eq := Table.keys_mapValues _ _
  functions {key f} hf := by
    refine ⟨f.reread, ?_, (h hf).2.reordered⟩
    rw [function?_reread, hf]
    rfl

/-- Activations of a function and of the function that is read back. -/
inductive Mirrors (p : Program) : Frame → Frame → Prop
  | mk {key : String} {f : Func} {fr fr' : Frame} : p.function? key = some f →
    SamePlace f f.reread fr fr' →
    Mirrors p fr fr'

theorem Faithful.lockstep (h : p.Faithful) : p.Lockstep p.reread p.Mirrors where
  name_eq hr := by
    cases hr with
    | @mk _ f _ _ _ hr =>
      cases hr
      exact f.name_reread
  activated maxDepth g args depth := by
    rw [activate_eq, activate_eq, function?_reread]
    cases hg : p.function? g with
    | none => exact .error
    | some f =>
      obtain ⟨fr, fr', hfr, hfr', hr⟩ := (h hg).2.start args
      show Activated _ (if _ then _ else _) (if _ then _ else _)
      split
      · exact .error
      · rw [hfr, hfr']
        exact .ok fun _ => .mk hg hr
  step fr fr' w hr := by
    obtain ⟨hf, hr⟩ := hr
    have hagree := (h hf).2.step w hr
    generalize fr.act w = a, fr'.act w = a' at hagree
    cases hagree with
    | go hr => exact .go (.mk hf hr)
    | call hr => exact .call fun v => .mk hf (hr v)
    | ret => exact .ret
    | stop => exact .stop

/-- A program that is printed and read again runs as before, under any budget. -/
theorem run_reread (h : p.Faithful) (spec : RunSpec) : p.reread.run spec = p.run spec :=
  h.lockstep.run_eq spec

theorem Faithful.render_reread (h : p.Faithful)
    (hnodes : ∀ f ∈ p.functions.values, f.nodes.any isSsaNode = false) :
    p.reread.render false = p.render false := by
  have htexts : (p.reread.functions.values.map fun f => f.render false)
      = p.functions.values.map fun f => f.render false := by
    show ((p.functions.mapValues fun _ f => f.reread).values.map fun f => f.render false) = _
    rw [Table.values, Table.mapValues, Table.values, List.map_map, List.map_map, List.map_map]
    refine List.map_congr_left fun e he => ?_
    have hf : p.function? e.1 = some e.2 := Table.get?_eq_some_iff.2 he
    have hnone := hnodes e.2 (Table.mem_values.2 ⟨e.1, hf⟩)
    simp only [Function.comp_apply]
    exact (h hf).2.render_reread hnone
  rw [Program.render, htexts, Program.render]

end Program

end ThreeAddress
