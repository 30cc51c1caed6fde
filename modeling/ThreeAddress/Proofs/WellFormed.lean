import Mathlib.Data.List.Nodup
import ThreeAddress.Func.Check
import ThreeAddress.Proofs.DominatorSets

/-!
# Well-formed functions

`Func.WellFormed` says what the check of the graph asks for, in terms of blocks; `checkCfg_eq_ok` is
the equivalence. In a well-formed function the graph has no edge to a block that is not there, and
predecessor lists are what the terminators say.
-/

namespace ThreeAddress

variable {l p : Label} {b : Block} {instrs rest : List Instr} {φs : List Phi} {preds : List Label}
  {φ : Phi} {α β ε : Type} {i : Instr} {a : PhiArg} {f : Func} {n : Node}

/-! ## Checks that succeed -/

theorem bind_eq_ok {x : Except ε α} {k : α → Except ε β} {b : β} :
    (x >>= k) = .ok b ↔ ∃ a, x = .ok a ∧ k a = .ok b := by
  cases x with
  | error e =>
    constructor
    · intro h
      cases h
    · rintro ⟨a, ha, _⟩
      cases ha
  | ok a =>
    constructor
    · intro h
      exact ⟨a, rfl, h⟩
    · rintro ⟨a', ha, h⟩
      cases ha
      exact h

/-- A check that says nothing, followed by something else. -/
theorem check_bind_eq_ok {x : Except ε Unit} {k : Unit → Except ε β} {b : β} :
    (x >>= k) = .ok b ↔ x = .ok () ∧ k () = .ok b := by
  rw [bind_eq_ok]
  constructor
  · rintro ⟨⟨⟩, hx, hk⟩
    exact ⟨hx, hk⟩
  · rintro ⟨hx, hk⟩
    exact ⟨(), hx, hk⟩

theorem checkAll_eq_ok {check : α → Except ε Unit} {l : List α} :
    checkAll check l = .ok () ↔ ∀ a ∈ l, check a = .ok () := by
  induction l with
  | nil => simp [checkAll]
  | cons a l ih =>
    rw [checkAll]
    cases h : check a with
    | error e => simp [h]
    | ok u => simp [h, ih]

theorem require_eq_ok {p : Prop} [Decidable p] {e : ε} : require p e = .ok () ↔ p := by
  unfold require
  split
  · simp [*]
  · simp [*]

/-! ## Phis that lead -/

theorem leadingPhis_append (h : ∀ i ∈ rest, i.isPhi = false) :
    leadingPhis (φs.map .phi ++ rest) = φs := by
  induction φs with
  | nil =>
    cases rest with
    | nil => rfl
    | cons i rest =>
      have hi := h i (.head _)
      cases i with
      | phi φ => cases hi
      | _ => rfl
  | cons φ φs ih => simp only [List.map_cons, List.cons_append, leadingPhis, ih]

theorem filter_phis_append (h : ∀ i ∈ rest, i.isPhi = false) :
    (φs.map Instr.phi ++ rest).filter (!·.isPhi) = rest := by
  rw [List.filter_append]
  have hleft : (φs.map Instr.phi).filter (!·.isPhi) = [] := by
    rw [List.filter_eq_nil_iff]
    intro i hi
    obtain ⟨φ, _, rfl⟩ := List.mem_map.1 hi
    simp [Instr.isPhi]
  have hright : rest.filter (!·.isPhi) = rest := by
    rw [List.filter_eq_self]
    intro i hi
    simp [h i hi]
  rw [hleft, hright, List.nil_append]

/-- The phis lead the block and list its predecessors in order. -/
structure Block.Tidy (b : Block) : Prop where
  instrs_eq : b.instrs = b.phis.map .phi ++ b.body
  labels_eq : ∀ φ ∈ b.phis, φ.labels = b.preds

theorem Block.isPhi_of_mem_body (h : i ∈ b.body) : i.isPhi = false := by
  have := (List.mem_filter.1 h).2
  simpa using this

theorem Block.Tidy.phi_mem_iff (h : b.Tidy) : .phi φ ∈ b.instrs ↔ φ ∈ b.phis := by
  rw [h.instrs_eq, List.mem_append, List.mem_map]
  constructor
  · rintro (⟨ψ, hψ, heq⟩ | hbody)
    · cases heq
      exact hψ
    · cases b.isPhi_of_mem_body hbody
  · exact fun hφ => .inl ⟨φ, hφ, rfl⟩

/-- What stands before an instruction that is no phi: the phis, and some of the body. -/
theorem Block.Tidy.split_body (h : b.Tidy) {pre post : List Instr}
    (heq : b.instrs = pre ++ i :: post) (hi : i.isPhi = false) :
    ∃ pre', pre = b.phis.map .phi ++ pre' ∧ b.body = pre' ++ i :: post := by
  have heq' := heq.symm.trans h.instrs_eq
  rcases List.append_eq_append_iff.1 heq' with ⟨c, hphis, hpost⟩ | ⟨c, hpre, hbody⟩
  · cases c with
    | nil => exact ⟨[], by rw [List.append_nil, hphis, List.append_nil], hpost.symm⟩
    | cons j c =>
      -- The instruction would be among the phis.
      injection hpost with hij _
      have hmem : i ∈ b.phis.map .phi := by
        rw [hphis, hij]
        exact List.mem_append_right _ (.head _)
      obtain ⟨φ, _, rfl⟩ := List.mem_map.1 hmem
      cases hi
  · exact ⟨c, hpre, hbody⟩

/-- A block made of phis and of instructions that are none. -/
theorem Block.tidy_of_eq (h : b.instrs = φs.map .phi ++ rest) (hrest : ∀ i ∈ rest, i.isPhi = false)
    (hlabels : ∀ φ ∈ φs, φ.labels = b.preds) : b.phis = φs ∧ b.body = rest ∧ b.Tidy := by
  have hphis : b.phis = φs := by rw [Block.phis, h, leadingPhis_append hrest]
  have hbody : b.body = rest := by rw [Block.body, h, filter_phis_append hrest]
  refine ⟨hphis, hbody, ⟨?_, ?_⟩⟩
  · rw [hphis, hbody, h]
  · rw [hphis]
    exact hlabels

/-! ## Operands of phis -/

/-- The operand for a predecessor. -/
def Phi.operand (φ : Phi) (p : Label) : Operand := (φ.valueFrom? p).getD .undefined

theorem Phi.valueFrom?_of_mem (h : p ∈ φ.labels) : φ.valueFrom? p = some (φ.operand p) := by
  obtain ⟨a, ha, rfl⟩ := List.mem_map.1 h
  have hsome : (φ.incoming.find? (·.block = a.block)).isSome := by
    rw [List.find?_isSome]
    exact ⟨a, ha, by simp⟩
  obtain ⟨a', ha'⟩ := Option.isSome_iff_exists.1 hsome
  simp [Phi.operand, Phi.valueFrom?, ha']

theorem Phi.exists_operand (h : p ∈ φ.labels) :
    ∃ a ∈ φ.incoming, a.block = p ∧ a.value = φ.operand p := by
  have hsome := Phi.valueFrom?_of_mem h
  unfold Phi.valueFrom? at hsome
  obtain ⟨a, ha, hval⟩ := Option.map_eq_some_iff.1 hsome
  exact ⟨a, List.mem_of_find?_eq_some ha, by simpa using List.find?_some ha, hval⟩

theorem Phi.mem_incoming_of_operand {x : Operand} (h : φ.operand p = x) (hx : x ≠ .undefined) :
    ∃ a ∈ φ.incoming, a.block = p ∧ a.value = x := by
  unfold Phi.operand Phi.valueFrom? at h
  cases ha : φ.incoming.find? (·.block = p) with
  | none =>
    rw [ha] at h
    exact absurd h.symm hx
  | some a =>
    rw [ha] at h
    exact ⟨a, List.mem_of_find?_eq_some ha, by simpa using List.find?_some ha, h⟩

/-- With one operand for each predecessor, each operand counts. -/
theorem Phi.operand_of_mem (nodup : φ.labels.Nodup) (h : a ∈ φ.incoming) :
    φ.operand a.block = a.value := by
  obtain ⟨a', ha', hblock, hvalue⟩ := Phi.exists_operand (List.mem_map_of_mem h)
  rw [← hvalue, List.inj_on_of_nodup_map nodup ha' h hblock]

/-! ## The check -/

theorem checkPhis_true_eq_ok :
    f.checkPhis l preds true instrs = .ok () ↔ ∀ i ∈ instrs, i.isPhi = false := by
  induction instrs with
  | nil => simp [Func.checkPhis]
  | cons i rest ih => cases i <;> simp [Func.checkPhis, Instr.isPhi, ih]

theorem checkPhis_false_eq_ok :
    f.checkPhis l preds false instrs = .ok () ↔
      ∃ (φs : List Phi) (rest : List Instr), instrs = φs.map .phi ++ rest ∧
      (∀ i ∈ rest, i.isPhi = false) ∧ ∀ φ ∈ φs, φ.labels = preds := by
  induction instrs with
  | nil =>
    constructor
    · intro _
      exact ⟨[], [], rfl, fun _ h => (nomatch h), fun _ h => (nomatch h)⟩
    · intro _
      rfl
  | cons i rest ih =>
    by_cases hi : i.isPhi = true
    · obtain ⟨φ, rfl⟩ : ∃ φ, i = .phi φ := by cases i <;> simp_all [Instr.isPhi]
      rw [Func.checkPhis, bind_eq_ok]
      constructor
      · rintro ⟨_, hreq, h⟩
        obtain ⟨φs, rest', rfl, hrest, hlabels⟩ := ih.1 h
        refine ⟨φ :: φs, rest', rfl, hrest, fun ψ hψ => ?_⟩
        rcases List.mem_cons.1 hψ with rfl | hψ
        · exact require_eq_ok.1 hreq
        · exact hlabels ψ hψ
      · rintro ⟨φs, rest', heq, hrest, hlabels⟩
        cases φs with
        | nil =>
          rw [List.map_nil, List.nil_append] at heq
          have := hrest (.phi φ) (heq ▸ List.mem_cons_self)
          cases this
        | cons ψ φs =>
          injection heq with heq hrest'
          cases heq
          refine ⟨(), require_eq_ok.2 (hlabels φ (.head _)), ih.2 ⟨φs, rest', hrest', hrest, ?_⟩⟩
          exact fun ψ hψ => hlabels ψ (.tail _ hψ)
    · have hstep : f.checkPhis l preds false (i :: rest) = f.checkPhis l preds true rest := by
        cases i <;> simp_all [Func.checkPhis, Instr.isPhi]
      rw [hstep, checkPhis_true_eq_ok]
      constructor
      · intro h
        refine ⟨[], i :: rest, rfl, fun j hj => ?_, fun _ h => (nomatch h)⟩
        rcases List.mem_cons.1 hj with rfl | hj
        · exact Bool.not_eq_true _ ▸ hi
        · exact h j hj
      · rintro ⟨φs, rest', heq, hrest, -⟩
        cases φs with
        | nil =>
          rw [List.map_nil, List.nil_append] at heq
          intro j hj
          exact hrest j (heq ▸ List.mem_cons_of_mem _ hj)
        | cons ψ φs =>
          injection heq with heq _
          rw [heq] at hi
          exact absurd rfl hi

theorem checkPhis_eq_ok : f.checkPhis l b.preds false b.instrs = .ok () ↔ b.Tidy := by
  rw [checkPhis_false_eq_ok]
  constructor
  · rintro ⟨φs, rest, h, hrest, hlabels⟩
    exact (Block.tidy_of_eq h hrest hlabels).2.2
  · intro h
    exact ⟨b.phis, b.body, h.instrs_eq, fun i hi => b.isPhi_of_mem_body hi, h.labels_eq⟩

/-- The block `b'` may stand for `b` in a well-formed function. -/
structure Block.Fits (b b' : Block) : Prop where
  name_eq : b'.name = b.name
  preds_eq : b'.preds = b.preds
  successors_eq : b'.successors = b.successors
  closed : b.term ≠ none → b'.term ≠ none
  tidy : b.Tidy → b'.Tidy

theorem Node.mem_vars {v : Var} : v ∈ n.vars ↔ n.dest? = some v ∨ .var v ∈ n.uses := by
  rw [Node.vars, List.mem_append, Option.mem_toList, List.mem_filterMap]
  refine or_congr_right ⟨?_, fun h => ⟨.var v, h, rfl⟩⟩
  rintro ⟨x, hx, hv⟩
  cases x with
  | var x =>
    cases hv
    exact hx
  | const n => cases hv
  | undefined => cases hv

/-! ## The graph of a function -/

namespace Func

variable {g : Label → Block → Block} {s : Label}

theorem get?_graph (f : Func) (l : Label) :
    f.graph.succs.get? l = (f.block? l).map Block.successors :=
  Table.get?_mapValues _ _ _

theorem next_graph (h : f.block? l = some b) : f.graph.next l = b.successors := by
  rw [Graph.next, Table.getD, get?_graph, h]
  rfl

theorem next_graph_of_none (h : f.block? l = none) : f.graph.next l = [] := by
  rw [Graph.next, Table.getD, get?_graph, h]
  rfl

theorem mem_graph : l ∈ f.graph.succs ↔ l ∈ f.blocks := Table.mem_mapValues

theorem exists_block : l ∈ f.blocks ↔ ∃ b, f.block? l = some b := Table.mem_iff_get?

theorem mem_blocks (h : f.block? l = some b) : l ∈ f.blocks := Table.mem_of_get? h

/-- An edge leaves a block that is there. -/
theorem block_of_mem_next (h : s ∈ f.graph.next l) :
    ∃ b, f.block? l = some b ∧ s ∈ b.successors := by
  cases hb : f.block? l with
  | none =>
    rw [next_graph_of_none hb] at h
    cases h
  | some b => exact ⟨b, rfl, next_graph hb ▸ h⟩

theorem mem_nodes : n ∈ f.nodes ↔ ∃ l b, f.block? l = some b ∧ n ∈ b.nodes := by
  rw [nodes, List.mem_flatMap]
  constructor
  · rintro ⟨b, hb, hn⟩
    obtain ⟨l, hl⟩ := Table.mem_values.1 hb
    exact ⟨l, b, hl, hn⟩
  · rintro ⟨l, b, hb, hn⟩
    exact ⟨b, Table.mem_values.2 ⟨l, hb⟩, hn⟩

theorem mem_nodes_instr : .instr i ∈ f.nodes ↔ ∃ l b, f.block? l = some b ∧ i ∈ b.instrs := by
  rw [mem_nodes]
  refine exists_congr fun l => exists_congr fun b => and_congr_right fun _ => ?_
  rw [Block.nodes, List.mem_append]
  constructor
  · rintro (hi | hi)
    · obtain ⟨j, hj, heq⟩ := List.mem_map.1 hi
      cases heq
      exact hj
    · obtain ⟨t, _, heq⟩ := List.mem_map.1 hi
      cases heq
  · exact fun hi => .inl (List.mem_map_of_mem hi)

theorem mem_nodes_term {t : Terminator} (hb : f.block? l = some b) (ht : b.term = some t) :
    .term t ∈ f.nodes :=
  mem_nodes.2 ⟨l, b, hb, List.mem_append_right _ (List.mem_map_of_mem (Option.mem_toList.2 ht))⟩

theorem mem_sourcesOf : p ∈ f.sourcesOf l ↔ l ∈ f.graph.next p := by
  rw [sourcesOf, Graph.mem_predsWithin]
  constructor
  · exact fun h => h.2
  · intro h
    obtain ⟨b, hb, _⟩ := block_of_mem_next h
    exact ⟨mem_blocks hb, h⟩

theorem nodup_sourcesOf (f : Func) (l : Label) : (f.sourcesOf l).Nodup :=
  List.Nodup.sublist (List.Sublist.map Prod.fst List.filter_sublist) f.graph.succs.nodup

/-- What the check of the graph asks for. -/
structure WellFormed (f : Func) : Prop where
  entry_mem : f.entry ∈ f.blocks
  name_eq : ∀ {l b}, f.block? l = some b → b.name = l
  closed : ∀ {l b}, f.block? l = some b → b.term ≠ none
  targets : ∀ {l b}, f.block? l = some b → ∀ s ∈ b.successors, s ∈ f.blocks
  preds : ∀ {l b}, f.block? l = some b → b.preds.Perm (f.sourcesOf l)
  tidy : ∀ {l b}, f.block? l = some b → b.Tidy

theorem checkEnds_eq_ok :
    f.checkEnds l b = .ok () ↔ b.name = l ∧ b.term ≠ none ∧ ∀ s ∈ b.successors, s ∈ f.blocks := by
  simp only [checkEnds, check_bind_eq_ok, checkAll_eq_ok, require_eq_ok]

theorem checkPreds_eq_ok : f.checkPreds l b = .ok () ↔ b.preds.Perm (f.sourcesOf l) := by
  simp only [checkPreds, require_eq_ok, List.isPerm_iff]

theorem checkCfg_eq_ok : f.checkCfg = .ok () ↔ f.WellFormed := by
  simp only [checkCfg, check_bind_eq_ok, checkAll_eq_ok, require_eq_ok, checkEnds_eq_ok,
    checkPreds_eq_ok, checkPhis_eq_ok]
  constructor
  · rintro ⟨hentry, hends, hrest⟩
    have hmem : ∀ {l b}, f.block? l = some b → (l, b) ∈ f.blocks.entries := Table.get?_eq_some_iff.1
    exact
      { entry_mem := hentry
        name_eq := fun hb => (hends _ (hmem hb)).1
        closed := fun hb => (hends _ (hmem hb)).2.1
        targets := fun hb => (hends _ (hmem hb)).2.2
        preds := fun hb => (hrest _ (hmem hb)).1
        tidy := fun hb => (hrest _ (hmem hb)).2 }
  · intro h
    have hget : ∀ {e : Label × Block}, e ∈ f.blocks.entries → f.block? e.1 = some e.2 :=
      Table.get?_eq_some_iff.2
    refine ⟨h.entry_mem, fun e he => ?_, fun e he => ?_⟩
    · exact ⟨h.name_eq (hget he), h.closed (hget he), h.targets (hget he)⟩
    · exact ⟨h.preds (hget he), h.tidy (hget he)⟩

/-- Predecessor lists may be given by their members. -/
theorem wellFormed_of_mem_preds (entry_mem : f.entry ∈ f.blocks)
    (name_eq : ∀ {l b}, f.block? l = some b → b.name = l)
    (closed : ∀ {l b}, f.block? l = some b → b.term ≠ none)
    (targets : ∀ {l b}, f.block? l = some b → ∀ s ∈ b.successors, s ∈ f.blocks)
    (nodup : ∀ {l b}, f.block? l = some b → b.preds.Nodup)
    (mem_preds : ∀ {l b}, f.block? l = some b → ∀ p, p ∈ b.preds ↔ l ∈ f.graph.next p)
    (tidy : ∀ {l b}, f.block? l = some b → b.Tidy) : f.WellFormed where
  entry_mem := entry_mem
  name_eq := name_eq
  closed := closed
  targets := targets
  preds {l b} hb := by
    rw [List.perm_ext_iff_of_nodup (nodup hb) (f.nodup_sourcesOf l)]
    intro p
    rw [mem_preds hb, mem_sourcesOf]
  tidy := tidy

namespace WellFormed

section

variable (wf : f.WellFormed)
include wf

theorem mem_preds (h : f.block? l = some b) : p ∈ b.preds ↔ l ∈ f.graph.next p := by
  rw [(wf.preds h).mem_iff, mem_sourcesOf]

theorem nodup_preds (h : f.block? l = some b) : b.preds.Nodup :=
  (wf.preds h).nodup_iff.2 (f.nodup_sourcesOf l)

/-- The phis of a block have one operand for each edge into it. -/
theorem operand_of_mem (hb : f.block? l = some b) (hφ : φ ∈ b.phis) (ha : a ∈ φ.incoming) :
    φ.operand a.block = a.value ∧ l ∈ f.graph.next a.block := by
  have hlabels := (wf.tidy hb).labels_eq φ hφ
  refine ⟨Phi.operand_of_mem (hlabels ▸ wf.nodup_preds hb) ha, (wf.mem_preds hb).1 ?_⟩
  exact hlabels ▸ List.mem_map_of_mem ha

theorem mem_of_next (h : s ∈ f.graph.next l) : s ∈ f.blocks := by
  obtain ⟨b, hb, hs⟩ := block_of_mem_next h
  exact wf.targets hb s hs

theorem graph_closed : f.graph.Closed := by
  rintro l ⟨xs, hxs⟩
  rw [mem_graph]
  cases hxs with
  | entry => exact wf.entry_mem
  | step _ hl => exact wf.mem_of_next hl

theorem block_of_reachable (h : f.graph.Reachable l) : ∃ b, f.block? l = some b :=
  exists_block.1 (mem_graph.1 (wf.graph_closed l h))

end

end WellFormed

/-- The check looks at the blocks and the entry only. -/
theorem WellFormed.congr {f' : Func} (wf : f.WellFormed) (hblocks : f'.blocks = f.blocks)
    (hentry : f'.entry = f.entry) : f'.WellFormed := by
  cases f
  cases f'
  cases hblocks
  cases hentry
  exact
    { entry_mem := wf.entry_mem
      name_eq := wf.name_eq
      closed := wf.closed
      targets := wf.targets
      preds := wf.preds
      tidy := wf.tidy }

/-! ## Rewriting the code of blocks -/

/-- The function with its blocks rewritten. -/
def rewrite (f : Func) (g : Label → Block → Block) : Func :=
    { f with blocks := f.blocks.mapValues g }

theorem block?_rewrite (f : Func) (g : Label → Block → Block) (l : Label) :
    (f.rewrite g).block? l = (f.block? l).map (g l) :=
  Table.get?_mapValues f.blocks g l

theorem block?_rewrite_of_some (g : Label → Block → Block) (h : f.block? l = some b) :
    (f.rewrite g).block? l = some (g l b) := by
  rw [block?_rewrite, h, Option.map_some]

theorem of_block?_rewrite {b' : Block} (h : (f.rewrite g).block? l = some b') :
    ∃ b, f.block? l = some b ∧ b' = g l b := by
  rw [block?_rewrite] at h
  obtain ⟨b, hb, rfl⟩ := Option.map_eq_some_iff.1 h
  exact ⟨b, hb, rfl⟩

theorem mem_rewrite : l ∈ (f.rewrite g).blocks ↔ l ∈ f.blocks :=
  Table.mem_mapValues

/-- Rewritings that lead to the same blocks keep the graph. -/
theorem graph_rewrite (h : ∀ l b, f.block? l = some b → (g l b).successors = b.successors) :
    (f.rewrite g).graph = f.graph := by
  unfold graph rewrite
  congr 1
  apply Table.ext_entries
  show (f.blocks.entries.map _).map _ = f.blocks.entries.map _
  rw [List.map_map]
  apply List.map_congr_left
  intro e he
  show (e.1, (g e.1 e.2).successors) = (e.1, e.2.successors)
  rw [h e.1 e.2 (Table.get?_eq_some_iff.2 he)]

theorem WellFormed.rewrite (wf : f.WellFormed) (h : ∀ l b, f.block? l = some b → b.Fits (g l b)) :
    (f.rewrite g).WellFormed := by
  have hgraph : (f.rewrite g).graph = f.graph := graph_rewrite fun l b hb =>
    (h l b hb).successors_eq
  apply wellFormed_of_mem_preds
  · exact mem_rewrite.2 wf.entry_mem
  · intro l b' hb'
    obtain ⟨b, hb, rfl⟩ := of_block?_rewrite hb'
    rw [(h l b hb).name_eq]
    exact wf.name_eq hb
  · intro l b' hb'
    obtain ⟨b, hb, rfl⟩ := of_block?_rewrite hb'
    exact (h l b hb).closed (wf.closed hb)
  · intro l b' hb' s hs
    obtain ⟨b, hb, rfl⟩ := of_block?_rewrite hb'
    rw [(h l b hb).successors_eq] at hs
    exact mem_rewrite.2 (wf.targets hb s hs)
  · intro l b' hb'
    obtain ⟨b, hb, rfl⟩ := of_block?_rewrite hb'
    rw [(h l b hb).preds_eq]
    exact wf.nodup_preds hb
  · intro l b' hb' p
    obtain ⟨b, hb, rfl⟩ := of_block?_rewrite hb'
    rw [(h l b hb).preds_eq, hgraph]
    exact wf.mem_preds hb
  · intro l b' hb'
    obtain ⟨b, hb, rfl⟩ := of_block?_rewrite hb'
    exact (h l b hb).tidy (wf.tidy hb)

end Func

end ThreeAddress
