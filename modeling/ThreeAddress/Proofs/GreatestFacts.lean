import Mathlib.Order.Bounds.Basic
import ThreeAddress.Proofs.ConstantPropagation

/-!
# The search finds the most

A guess says what is known of each variable, and which blocks and edges run. It obeys a function if
no instruction, phi or terminator of a block that runs speaks against it. A guess is greater if it
knows more and lets less run.

1. The facts that the search holds stay above every guess that obeys (`Covers.step`), so what such a
   guess calls constant is found to be that constant (`Obeys.covered`).
2. The facts at the end obey themselves (`WellFormed.facts_obeys`).

Together: whatever function passes the check of its graph, in SSA form or not, the search ends and
finds the greatest of the guesses that obey it (`findConstants_isGreatest`).
-/

namespace ThreeAddress

variable {a a' b c : Constancy} {l : Label} {i : Instr} {σ : Guess} {op : String} {f : Func}

/-! ## The order -/

namespace Constancy

theorem bottom_below (a : Constancy) : Below .bottom a := bottom_meet a

theorem below_top (a : Constancy) : a.Below .top := meet_top a

theorem eq_bottom_of_below (h : a.Below .bottom) : a = .bottom := by
  unfold Below at h
  rw [meet_bottom] at h
  exact h.symm

theorem Below.antisymm (hab : a.Below b) (hba : b.Below a) : a = b := by
  unfold Below at *
  rw [← hab, meet_comm, hba]

theorem below_meet (hb : a.Below b) (hc : a.Below c) : a.Below (b.meet c) := by
  unfold Below at *
  rw [← meet_assoc, hb, hc]

theorem below_foldl_meet {start : Constancy} {cs : List Constancy} (hstart : a.Below start)
    (h : ∀ c ∈ cs, a.Below c) : a.Below (cs.foldl .meet start) := by
  induction cs generalizing start with
  | nil => exact hstart
  | cons c cs ih =>
    exact ih (below_meet hstart (h c (.head _))) fun d hd => h d (.tail _ hd)

end Constancy

open Constancy

theorem foldBinary_mono {b' : Constancy} (ha : a'.Below a) (hb : b'.Below b) :
    ((foldBinary op a' b').toOption.getD .bottom).Below
      ((foldBinary op a b).toOption.getD .bottom) := by
  cases a' with
  | bottom => exact bottom_below _
  | top =>
    cases eq_top_of_below ha
    cases b' with
    | bottom => exact bottom_below _
    | top =>
      cases eq_top_of_below hb
      exact below_top _
    | const n => rcases of_const_below hb with rfl | rfl <;> exact below_top _
  | const m =>
    cases b' with
    | bottom => exact bottom_below _
    | top =>
      cases eq_top_of_below hb
      rcases of_const_below ha with rfl | rfl <;> exact below_top _
    | const n =>
      rcases of_const_below ha with rfl | rfl
      · rcases of_const_below hb with rfl | rfl <;> exact below_top _
      · rcases of_const_below hb with rfl | rfl
        · exact below_top _
        · exact meet_self _

theorem foldUnary_mono (ha : a'.Below a) :
    ((foldUnary op a').toOption.getD .bottom).Below ((foldUnary op a).toOption.getD .bottom) := by
  cases a' with
  | bottom => exact bottom_below _
  | top =>
    cases eq_top_of_below ha
    exact below_top _
  | const m =>
    rcases of_const_below ha with rfl | rfl
    · exact below_top _
    · exact meet_self _

/-- What an instruction that is no phi gives by what is known of its operands. -/
def Instr.fold (known : Operand → Constancy) : Instr → Constancy
  | .binary _ op l r => (foldBinary op (known l) (known r)).toOption.getD .bottom
  | .unary _ op x => (foldUnary op (known x)).toOption.getD .bottom
  | .copy _ x => known x
  | _ => .bottom

theorem Instr.fold_mono {known known' : Operand → Constancy}
    (h : ∀ x ∈ i.uses, (known' x).Below (known x)) : (i.fold known').Below (i.fold known) := by
  cases i with
  | binary d op l r => exact foldBinary_mono (h l (by simp [uses])) (h r (by simp [uses]))
  | unary d op x => exact foldUnary_mono (h x (by simp [uses]))
  | copy d x => exact h x (by simp [uses])
  | _ => exact bottom_below _

theorem Facts.result_eq_fold (s : Facts) (l : Label) (h : i.isPhi = false) :
    s.result l i = i.fold s.valueOf := by
  cases i with
  | phi φ => cases h
  | _ => rfl

/-! ## Guesses -/

/-- What may be known of a function: of each variable, and which blocks and edges run. -/
structure Guess where
  /-- What is known of a variable. -/
  value : Var → Constancy
  /-- The block runs. -/
  runs : Label → Prop
  /-- The edge runs. -/
  goes : Label → Label → Prop

namespace Guess

variable {φ : Phi}

/-- What is known of an operand. -/
def known (σ : Guess) : Operand → Constancy
  | .const n => .const n
  | .var v => σ.value v
  | .undefined => .bottom

open Classical in
/-- What an instruction of block `l` gives by the guess: a phi gives the meet of its operands along
edges that run. -/
noncomputable def transfer (σ : Guess) (l : Label) : Instr → Constancy
  | .phi φ => ((φ.incoming.filter fun a => decide (σ.goes a.block l)).map fun a =>
    σ.known a.value).foldl .meet .top
  | i => i.fold σ.known

theorem transfer_of_not_phi (σ : Guess) (l : Label) (h : i.isPhi = false) :
    σ.transfer l i = i.fold σ.known := by
  cases i with
  | phi φ => cases h
  | _ => rfl

theorem transfer_phi_below (σ : Guess) {a : PhiArg} (ha : a ∈ φ.incoming)
    (hgoes : σ.goes a.block l) : (σ.transfer l (.phi φ)).Below (σ.known a.value) := by
  classical
  exact foldl_meet_below (List.mem_map.2 ⟨a, List.mem_filter.2 ⟨ha, decide_eq_true hgoes⟩, rfl⟩) _

theorem below_transfer_phi (h : ∀ a ∈ φ.incoming, σ.goes a.block l → c.Below (σ.known a.value)) :
    c.Below (σ.transfer l (.phi φ)) := by
  classical
  refine below_foldl_meet (below_top _) fun d hd => ?_
  obtain ⟨a, ha, rfl⟩ := List.mem_map.1 hd
  obtain ⟨ha, hgoes⟩ := List.mem_filter.1 ha
  exact h a ha (of_decide_eq_true hgoes)

/-- Nothing in the function speaks against the guess: parameters and what is defined nowhere vary,
control starts at the entry and follows the terminators, and where a block runs nothing is known of
a variable beyond what its definition gives. -/
structure Obeys (σ : Guess) (f : Func) : Prop where
  param : ∀ p ∈ f.params, σ.value ⟨p, some 0⟩ = .bottom
  other : ∀ v, (∀ l, ¬ f.Defines l v) → σ.value v = .bottom
  entry : σ.runs f.entry
  edge : ∀ {p l}, σ.goes p l → σ.runs l
  dest : ∀ {l b i d}, σ.runs l → f.block? l = some b → i ∈ b.instrs → i.dest? = some d →
    (σ.value d).Below (σ.transfer l i)
  term : ∀ {l b t x}, σ.runs l → f.block? l = some b → b.term = some t → x ∈ t.follow σ.known →
    σ.goes l x

/-- The guess that knows nothing. -/
def blank : Guess := ⟨fun _ => .bottom, fun _ => True, fun _ _ => True⟩

theorem obeys_blank (f : Func) : blank.Obeys f where
  param _ _ := rfl
  other _ _ := rfl
  entry := trivial
  edge _ := trivial
  dest _ _ _ _ := bottom_below _
  term _ _ _ _ := trivial

/-- As `Obeys`, where parameters are no definitions: phis and other instructions apart, and where a
block runs, the blocks that dominate it do as well. -/
structure Solves (σ : Guess) (f : Func) : Prop where
  other : ∀ v, (∀ l, ¬ f.Defines l v) → σ.value v = .bottom
  entry : σ.runs f.entry
  edge : ∀ {p l}, σ.goes p l → σ.runs l
  dominator : ∀ {a l}, σ.runs l → a ∈ f.blocks → f.graph.Dominates a l → σ.runs a
  phi : ∀ {l b φ a}, σ.runs l → f.block? l = some b → φ ∈ b.phis → a ∈ φ.incoming →
    σ.goes a.block l →
    (σ.value φ.dest).Below (σ.known a.value)
  instr : ∀ {l b i d}, σ.runs l → f.block? l = some b → i ∈ b.body → i.dest? = some d →
    (σ.value d).Below (i.fold σ.known)
  term : ∀ {l b t x}, σ.runs l → f.block? l = some b → b.term = some t → x ∈ t.follow σ.known →
    σ.goes l x

theorem Solves.obeys (hσ : σ.Solves f) (wf : f.WellFormed)
    (hparam : ∀ {l v}, f.Defines l v → v ∉ f.paramVars) : σ.Obeys f where
  param p hp := hσ.other _ fun l hl => hparam hl (List.mem_map_of_mem hp)
  other := hσ.other
  entry := hσ.entry
  edge := hσ.edge
  dest {l b i d} hl hb hi hd := by
    rw [(wf.tidy hb).instrs_eq] at hi
    rcases List.mem_append.1 hi with hi | hi
    · obtain ⟨φ, hφ, rfl⟩ := List.mem_map.1 hi
      cases hd
      exact below_transfer_phi fun a ha hgoes => hσ.phi hl hb hφ ha hgoes
    · rw [σ.transfer_of_not_phi l (b.isPhi_of_mem_body hi)]
      exact hσ.instr hl hb hi hd
  term := hσ.term

theorem Obeys.solves (hσ : σ.Obeys f) (wf : f.WellFormed)
    (hdominator : ∀ {a l}, σ.runs l → a ∈ f.blocks → f.graph.Dominates a l → σ.runs a) :
    σ.Solves f where
  other := hσ.other
  entry := hσ.entry
  edge := hσ.edge
  dominator := hdominator
  phi hl hb hφ ha hgoes :=
    (hσ.dest hl hb ((wf.tidy hb).phi_mem_iff.2 hφ) rfl).trans (σ.transfer_phi_below ha hgoes)
  instr {l b i d} hl hb hi hd := by
    have hmem : i ∈ b.instrs := (wf.tidy hb).instrs_eq ▸ List.mem_append_right _ hi
    rw [← σ.transfer_of_not_phi l (b.isPhi_of_mem_body hi)]
    exact hσ.dest hl hb hmem hd
  term := hσ.term

/-- A guess is greater if it knows more of the variables and lets fewer blocks and edges run. -/
instance : PartialOrder Guess where
  le σ τ := (∀ v, (σ.value v).Below (τ.value v)) ∧ (∀ l, τ.runs l → σ.runs l) ∧ ∀ p l, τ.goes p l →
  σ.goes p l
  le_refl σ := ⟨fun v => meet_self _, fun _ h => h, fun _ _ h => h⟩
  le_trans _ _ _ h h' :=
    ⟨fun v => (h.1 v).trans (h'.1 v), fun l hl => h.2.1 l (h'.2.1 l hl),
      fun p l hl => h.2.2 p l (h'.2.2 p l hl)⟩
  le_antisymm σ τ h h' := by
    obtain ⟨value, runs, goes⟩ := σ
    obtain ⟨value', runs', goes'⟩ := τ
    obtain rfl : value = value' := funext fun v => (h.1 v).antisymm (h'.1 v)
    obtain rfl : runs = runs' := funext fun l => propext ⟨h'.2.1 l, h.2.1 l⟩
    obtain rfl : goes = goes' := funext fun p => funext fun l => propext ⟨h'.2.2 p l, h.2.2 p l⟩
    rfl

end Guess

/-! ## Facts above a guess -/

namespace Facts

variable {s s' : Facts} {v : Var}

/-- The facts claim at least what the guess does, and nothing of variables that no block defines. -/
structure Covers (s : Facts) (f : Func) (σ : Guess) : Prop where
  value : ∀ v, (σ.value v).Below (s.valueOf (.var v))
  other : ∀ v, (∀ l, ¬ f.Defines l v) → s.valueOf (.var v) = .bottom
  present : ∀ {l v}, f.Defines l v → v ∈ s.values
  blocks : ∀ {l}, l ∈ s.blocks → σ.runs l
  edges : ∀ {p l}, (p, l) ∈ s.edges → σ.goes p l
  start : ∀ {l}, (none, l) ∈ s.edgeQueue → σ.runs l
  queue : ∀ {p l}, (some p, l) ∈ s.edgeQueue → σ.goes p l
  uses : ∀ {n l}, (n, l) ∈ s.useQueue → ∃ b, f.block? l = some b ∧ n ∈ b.nodes

namespace Covers

variable {n : Node}

section

variable (h : s.Covers f σ)
include h

theorem known_below (x : Operand) : (σ.known x).Below (s.valueOf x) := by
  cases x with
  | var v => exact h.value v
  | const n => exact meet_self _
  | undefined => exact meet_self _

/-- What a definition gives by the guess is below what it gives by the facts. -/
theorem transfer_below (l : Label) (i : Instr) : (σ.transfer l i).Below (s.result l i) := by
  cases hphi : i.isPhi with
  | false =>
    rw [σ.transfer_of_not_phi l hphi, s.result_eq_fold l hphi]
    exact Instr.fold_mono fun x _ => h.known_below x
  | true =>
    obtain ⟨φ, rfl⟩ : ∃ φ, i = .phi φ := by cases i <;> simp_all [Instr.isPhi]
    refine below_foldl_meet (below_top _) fun c hc => ?_
    obtain ⟨a, ha, rfl⟩ := List.mem_map.1 hc
    obtain ⟨ha, hedge⟩ := List.mem_filter.1 ha
    exact (σ.transfer_phi_below ha (h.edges (of_decide_eq_true hedge))).trans
      (h.known_below a.value)

theorem setLog (log : List Event) : Covers { s with log := log } f σ :=
  ⟨h.value, h.other, h.present, h.blocks, h.edges, h.start, h.queue, h.uses⟩

/-- A definition is met with something above what the guess says of it. -/
theorem update (wf : f.WellFormed) {d : Var} (hd : f.Defines l d) (hc : (σ.value d).Below c) :
    (s.update f d c).Covers f σ := by
  have hvalue : ∀ v, (σ.value v).Below ((s.update f d c).valueOf (.var v)) := by
    intro v
    by_cases hv : v = d
    · subst hv
      obtain ⟨old, hold⟩ := Table.mem_iff_get?.1 (h.present hd)
      have hbefore := h.value v
      rw [show s.valueOf (.var v) = old from Table.getD_of_get? hold] at hbefore
      have hafter : (s.update f v c).valueOf (.var v) = old.meet c := by
        rcases update_cases f v c s with ⟨heq, hbelow⟩ | ⟨_, heq⟩
        · rw [heq, show s.valueOf (.var v) = old from Table.getD_of_get? hold]
          rw [Table.getD_of_get? hold] at hbelow
          exact hbelow.symm
        · rw [heq]
          show (s.values.insert v ((s.values.getD v .top).meet c)).getD v .bottom = _
          rw [Table.getD_insert, if_pos rfl, Table.getD_of_get? hold]
      rw [hafter]
      exact below_meet hbefore hc
    · rw [valueOf_update c s fun heq => hv (Operand.var.inj heq)]
      exact h.value v
  have hother : ∀ v, (∀ l, ¬ f.Defines l v) → (s.update f d c).valueOf (.var v) = .bottom := by
    intro v hv
    have hne : v ≠ d := by
      rintro rfl
      exact hv l hd
    rw [valueOf_update c s fun heq => hne (Operand.var.inj heq)]
    exact h.other v hv
  rcases update_cases f d c s with ⟨heq, _⟩ | ⟨_, heq⟩
  · rwa [heq]
  · rw [heq] at hvalue hother ⊢
    refine ⟨hvalue, hother, fun hv => Table.mem_insert.2 (.inr (h.present hv)), h.blocks, h.edges,
      h.start, h.queue, fun hu => ?_⟩
    rcases List.mem_append.1 hu with hu | hu
    · exact h.uses hu
    · obtain ⟨b, hb, hn, _⟩ := (mem_usesOf wf).1 hu
      exact ⟨b, hb, hn⟩

/-! ## Steps -/

theorem visit (hσ : σ.Obeys f) (wf : f.WellFormed) {b : Block} (hl : σ.runs l)
    (hb : f.block? l = some b) (hn : n ∈ b.nodes) : (s.visit f l n).Covers f σ := by
  cases n with
  | instr i =>
    have hi : i ∈ b.instrs := by simpa [Block.nodes] using hn
    show (s.visitInstr f l i).Covers f σ
    cases hd : i.dest? with
    | none => rwa [visitInstr_of_none hd]
    | some d =>
      obtain ⟨log, heq⟩ := visitInstr_of_some (f := f) (s := s) hd l
      rw [heq]
      exact (h.setLog log).update wf ⟨b, hb, mem_destsOf.2 ⟨i, hi, hd⟩⟩
        ((hσ.dest hl hb hi hd).trans (h.transfer_below l i))
  | term t =>
    have ht : b.term = some t := by simpa [Block.nodes] using hn
    show (s.visitTerm l t).Covers f σ
    rw [visitTerm_eq]
    refine ⟨h.value, h.other, h.present, h.blocks, h.edges, fun hq => ?_, fun hq => ?_, h.uses⟩
    · rcases List.mem_append.1 hq with hq | hq
      · exact h.start hq
      · obtain ⟨x, _, heq⟩ := List.mem_map.1 hq
        cases heq
    · rcases List.mem_append.1 hq with hq | hq
      · exact h.queue hq
      · obtain ⟨x, hx, heq⟩ := List.mem_map.1 hq
        cases heq
        -- The guess knows less of the condition, so it lets control go there as well.
        rw [targets_eq] at hx
        exact hσ.term hl hb ht (Terminator.follow_mono (fun y _ => h.known_below y) hx)

theorem visits (hσ : σ.Obeys f) (wf : f.WellFormed) {b : Block} {ns : List Node} (hl : σ.runs l)
    (hb : f.block? l = some b) (hns : ∀ n ∈ ns, n ∈ b.nodes) :
    (ns.foldl (Facts.visit f l) s).Covers f σ := by
  induction ns generalizing s with
  | nil => exact h
  | cons n ns ih =>
    exact ih (h.visit hσ wf hl hb (hns n (.head _))) fun m hm => hns m (.tail _ hm)

theorem enter (hσ : σ.Obeys f) (wf : f.WellFormed) (hl : σ.runs l) : (s.enter f l).Covers f σ := by
  unfold Facts.enter
  cases hb : f.block? l with
  | none => exact ⟨h.value, h.other, h.present, h.blocks, h.edges, h.start, h.queue, h.uses⟩
  | some b =>
    dsimp only
    split
    · rw [foldl_visitPhi]
      exact h.visits hσ wf hl hb fun n hn => phi_mem_nodes (wf.tidy hb) hn
    · have hentered : Covers { s with blocks := s.blocks ++ [l] } f σ := by
        refine ⟨h.value, h.other, h.present, fun hx => ?_, h.edges, h.start, h.queue, h.uses⟩
        rcases List.mem_append.1 hx with hx | hx
        · exact h.blocks hx
        · rwa [List.mem_singleton.1 hx]
      exact hentered.visits hσ wf hl hb fun n hn => hn

/-- An edge from the front of the queue. -/
theorem visitEdge (hσ : σ.Obeys f) (wf : f.WellFormed) {src : Option Label} {dst : Label}
    {rest : List (Option Label × Label)} (hq : s.edgeQueue = (src, dst) :: rest) (turn : Turn) :
    (Facts.visitEdge f src dst { s with edgeQueue := rest, turn := turn }).Covers f σ := by
  have hfirst : (src, dst) ∈ s.edgeQueue := hq ▸ List.mem_cons_self
  have hrest : ∀ {e}, e ∈ rest → e ∈ s.edgeQueue := fun he => hq ▸ List.mem_cons_of_mem _ he
  have hpopped : Covers { s with edgeQueue := rest, turn := turn } f σ :=
    ⟨h.value, h.other, h.present, h.blocks, h.edges, fun he => h.start (hrest he),
      fun he => h.queue (hrest he), h.uses⟩
  cases src with
  | none => exact hpopped.enter hσ wf (h.start hfirst)
  | some p =>
    have hgoes := h.queue hfirst
    show (if (p, dst) ∈ s.edges then _ else _ : Facts).Covers f σ
    split
    · exact hpopped
    · have htaken : Covers
          { s with edgeQueue := rest, turn := turn, edges := s.edges ++ [(p, dst)] } f σ := by
        refine ⟨h.value, h.other, h.present, h.blocks, fun he => ?_, hpopped.start, hpopped.queue,
          h.uses⟩
        rcases List.mem_append.1 he with he | he
        · exact h.edges he
        · cases List.mem_singleton.1 he
          exact hgoes
      exact htaken.enter hσ wf (hσ.edge hgoes)

/-- A use from the front of the queue. -/
theorem visitUse (hσ : σ.Obeys f) (wf : f.WellFormed) {rest : List (Node × Label)}
    (hq : s.useQueue = (n, l) :: rest) (turn : Turn) :
    (Facts.visitUse f n l { s with useQueue := rest, turn := turn }).Covers f σ := by
  obtain ⟨b, hb, hn⟩ := h.uses (hq ▸ List.mem_cons_self)
  have hpopped : Covers { s with useQueue := rest, turn := turn } f σ :=
    ⟨h.value, h.other, h.present, h.blocks, h.edges, h.start, h.queue,
      fun hu => h.uses (hq ▸ List.mem_cons_of_mem _ hu)⟩
  show (if l ∈ s.blocks then _ else _ : Facts).Covers f σ
  split
  · rename_i hl
    exact hpopped.visit hσ wf (h.blocks hl) hb hn
  · exact hpopped

/-- A step of the search keeps the facts above the guess. -/
theorem step (hσ : σ.Obeys f) (wf : f.WellFormed) (hstep : s.step f = some s') : s'.Covers f σ :=
  step_cases (P := (Covers · f σ)) hstep (h.visitEdge hσ wf) (h.visitUse hσ wf)

theorem search (hσ : σ.Obeys f) (wf : f.WellFormed) (fuel : Nat) : (s.search f fuel).Covers f σ :=
  search_keeps (P := (Covers · f σ)) (fun h => h.step hσ wf) h

end

end Covers

theorem exists_node_iff : (∃ n ∈ f.nodes, n.dest? = some v) ↔ ∃ l, f.Defines l v := by
  constructor
  · rintro ⟨n, hn, hd⟩
    cases n with
    | term t => cases hd
    | instr i =>
      obtain ⟨l, b, hb, hi⟩ := Func.mem_nodes_instr.1 hn
      exact ⟨l, b, hb, mem_destsOf.2 ⟨i, hi, hd⟩⟩
  · rintro ⟨l, b, hb, hv⟩
    obtain ⟨i, hi, hd⟩ := mem_destsOf.1 hv
    exact ⟨.instr i, Func.mem_nodes_instr.2 ⟨l, b, hb, hi⟩, hd⟩

/-- At the start nothing is known of what is defined, and parameters vary. -/
theorem of_get?_initialFacts (h : f.initialFacts.values.get? v = some c) :
    (c = .top ∧ ∃ l, f.Defines l v) ∨ (c = .bottom ∧ v ∈ f.paramVars) := by
  rcases List.mem_append.1 (Table.mem_of_get?_ofList h) with hmem | hmem
  · obtain ⟨n, hn, heq⟩ := List.mem_filterMap.1 hmem
    obtain ⟨d, hd, heq⟩ := Option.map_eq_some_iff.1 heq
    cases heq
    exact .inl ⟨rfl, exists_node_iff.1 ⟨n, hn, hd⟩⟩
  · obtain ⟨p, hp, heq⟩ := List.mem_map.1 hmem
    cases heq
    exact .inr ⟨rfl, List.mem_map_of_mem hp⟩

theorem covers_initial (hσ : σ.Obeys f) : f.initialFacts.Covers f σ where
  value v := by
    by_cases hv : ∃ l, f.Defines l v
    · obtain ⟨n, hn, hd⟩ := exists_node_iff.2 hv
      obtain ⟨c, hc⟩ := Table.mem_iff_get?.1 ((sound_initial f).known n hn v hd)
      rcases of_get?_initialFacts hc with ⟨rfl, _⟩ | ⟨_, hmem⟩
      · rw [show f.initialFacts.valueOf (.var v) = .top from Table.getD_of_get? hc]
        exact below_top _
      · obtain ⟨p, hp, rfl⟩ := List.mem_map.1 hmem
        rw [hσ.param p hp]
        exact bottom_below _
    · rw [hσ.other v (not_exists.1 hv)]
      exact bottom_below _
  other v hv := by
    by_cases hmem : v ∈ f.initialFacts.values
    · obtain ⟨c, hc⟩ := Table.mem_iff_get?.1 hmem
      rcases of_get?_initialFacts hc with ⟨_, l, hl⟩ | ⟨rfl, _⟩
      · exact absurd hl (hv l)
      · exact Table.getD_of_get? hc
    · exact Table.getD_of_not_mem hmem
  present {l v} hv := by
    obtain ⟨n, hn, hd⟩ := exists_node_iff.2 ⟨l, hv⟩
    exact (sound_initial f).known n hn v hd
  blocks := by simp [Func.initialFacts]
  edges := by simp [Func.initialFacts]
  start hl := by
    cases List.mem_singleton.1 hl
    exact hσ.entry
  queue := by simp [Func.initialFacts]
  uses := by simp [Func.initialFacts]

end Facts

/-- No guess that obeys knows more than the search finds. -/
theorem Guess.Obeys.covered (hσ : σ.Obeys f) (wf : f.WellFormed) : f.facts.Covers f σ :=
  (Facts.covers_initial hσ).search hσ wf _

theorem Guess.Solves.covered (hσ : σ.Solves f) (wf : f.WellFormed)
    (hparam : ∀ {l v}, f.Defines l v → v ∉ f.paramVars) : f.facts.Covers f σ :=
  (hσ.obeys wf hparam).covered wf

/-- What is defined nowhere is found to vary. -/
theorem Func.WellFormed.valueOf_other (wf : f.WellFormed) (v : Var) (hv : ∀ l, ¬ f.Defines l v) :
    f.facts.valueOf (.var v) = .bottom :=
  ((Guess.obeys_blank f).covered wf).other v hv

/-! ## The facts as a guess -/

namespace Facts

variable {s : Facts}

/-- What the facts say. -/
def guess (s : Facts) : Guess := ⟨fun v => s.valueOf (.var v), fun l => l ∈ s.blocks,
    fun p l => (p, l) ∈ s.edges⟩

theorem known_guess (s : Facts) : s.guess.known = s.valueOf := by
  funext x
  cases x <;> rfl

theorem transfer_guess (s : Facts) (l : Label) (i : Instr) :
    s.guess.transfer l i = s.result l i := by
  cases i with
  | phi φ =>
    have hfilter : φ.incoming.filter
        (fun a => @decide (s.guess.goes a.block l) (Classical.propDecidable _))
        = φ.incoming.filter fun a => decide ((a.block, l) ∈ s.edges) :=
      List.filter_congr fun a _ => decide_eq_decide.2 Iff.rfl
    show (List.map _ (φ.incoming.filter _)).foldl _ _ = s.phiValue l φ
    rw [hfilter, known_guess]
    rfl
  | _ =>
    rw [s.guess.transfer_of_not_phi l rfl, known_guess]
    rfl

/-- Where a block can run, its dominators can. -/
theorem Solves.dominator (sol : s.Solves f) {a : Label} (hl : l ∈ s.blocks)
    (ha : f.graph.Dominates a l) : a ∈ s.blocks := by
  have hpath := sol.reached l hl
  induction hpath with
  | refl => exact Graph.eq_entry_of_dominates ha ▸ sol.entry
  | @tail p t hpath he ih =>
    obtain ⟨hmem, hnext⟩ := sol.edge _ _ he
    by_cases heq : a = t
    · exact heq ▸ hmem
    · exact ih (sol.mem_of_path hpath) (Graph.dominates_of_edge ha heq hnext)

theorem Solves.guess_obeys (sol : s.Solves f)
    (hother : ∀ v, (∀ l, ¬ f.Defines l v) → s.valueOf (.var v) = .bottom) : s.guess.Obeys f where
  param p hp := Table.getD_of_get? (sol.params p hp)
  other := hother
  entry := sol.entry
  edge he := (sol.edge _ _ he).1
  dest {l b i d} hl hb hi hd := by
    rw [transfer_guess]
    exact sol.valueOf_below hl hb hi hd
  term {l b t x} hl hb ht hx := by
    rw [known_guess, ← targets_eq] at hx
    exact sol.term l hl b hb t ht x hx

theorem Solves.guess_solves (sol : s.Solves f) (wf : f.WellFormed)
    (hother : ∀ v, (∀ l, ¬ f.Defines l v) → s.valueOf (.var v) = .bottom) : s.guess.Solves f :=
  (sol.guess_obeys hother).solves wf fun hl _ ha => sol.dominator hl ha

end Facts

namespace Func

/-- What the search finds obeys the function. -/
theorem WellFormed.facts_obeys (wf : f.WellFormed) : f.facts.guess.Obeys f :=
  wf.facts_solves.guess_obeys wf.valueOf_other

theorem WellFormed.facts_guess (wf : f.WellFormed) : f.facts.guess.Solves f :=
  wf.facts_solves.guess_solves wf wf.valueOf_other

/-- The search stops by itself: more items would not change what it finds. -/
theorem WellFormed.step_facts (wf : f.WellFormed) : f.facts.step f = none :=
  Facts.step_search wf (Facts.sound_initial f) (Facts.work_initial f)

/-- A function outside SSA form, with a variable that gets the same constant twice, one that gets
two constants, and an assignment to a parameter as it arrives. -/
def reassigned : Func where
  name := "main"
  params := ["n"]
  blocks := Table.ofList [
    ("entry", { name := "entry", term := some (.jump "loop"),
                instrs := [.copy ⟨"x", none⟩ (.const 1), .copy ⟨"y", none⟩ (.const 2),
                  .copy ⟨"n", some 0⟩ (.const 5)] }),
    ("loop",
      { name := "loop", preds := ["entry", "loop"],
        term := some (.branch (.var ⟨"y", none⟩) "loop" "done"),
               instrs := [.copy ⟨"x", none⟩ (.var ⟨"x", none⟩),
                          .binary ⟨"y", none⟩ "sub" (.var ⟨"n", some 0⟩) (.var ⟨"x", none⟩)] }),
    ("done", { name := "done", preds := ["loop"], term := some (.ret (some (.var ⟨"x", none⟩))) })]

/-- On every function whose graph passes the check, the search ends by itself with a result, and
what it finds is the greatest guess that obeys the function: it knows as much of each variable as
any, and lets no block or edge run that need not. -/
theorem findConstants_isGreatest (f : Func) (hcfg : f.checkCfg = .ok ()) :
    ∃ s, Edit.findConstants.Yields f s f ∧ (∃ n, s = f.initialFacts.search f n) ∧ s.step f = none ∧
      IsGreatest {σ | Guess.Obeys σ f} s.guess := by
  have wf := checkCfg_eq_ok.1 hcfg
  refine ⟨f.facts, wf.findConstants, ⟨_, rfl⟩, wf.step_facts, wf.facts_obeys, fun σ hσ => ?_⟩
  have hcovers := Guess.Obeys.covered hσ wf
  exact ⟨hcovers.value, fun l hl => hcovers.blocks hl, fun p l hl => hcovers.edges hl⟩

theorem findConstants_isGreatest_reassigned :
    reassigned.checkCfg = .ok () ∧
      ∃ s, Edit.findConstants.Yields reassigned s reassigned ∧
      (∃ n, s = reassigned.initialFacts.search reassigned n) ∧
        s.step reassigned = none ∧ IsGreatest {σ | Guess.Obeys σ reassigned} s.guess :=
  ⟨rfl, findConstants_isGreatest reassigned rfl⟩

end Func

end ThreeAddress
