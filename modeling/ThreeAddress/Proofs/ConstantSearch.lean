import ThreeAddress.Constants.Analysis
import ThreeAddress.Proofs.WellFormed

/-!
# The search for constants

1. A node that is settled would teach nothing if it were looked at again. `Facts.Sound` says that
   every node of a block that can run is settled or queued; a step of the search keeps it
   (`Sound.step`).
2. `Facts.work` counts what is still to be done. It falls with each step (`work_step`) and is within
   the bound of the search at the start, so both queues are empty at the end.

Together: the facts found solve the equations of the function (`Func.WellFormed.facts_solves`).
-/

namespace ThreeAddress

variable {rest : List (Option Label × Label)} {dst l : Label} {t : Terminator} {n : Node}
  {known : Operand → Constancy} {src : Option Label} {v : Var} {ns : List Node} {α β : Type}
  {fuel : Nat}

/-! ## The lattice -/

namespace Constancy

variable {a b : Constancy}

theorem meet_comm (a b : Constancy) : a.meet b = b.meet a := by
  cases a with
  | const m =>
    cases b with
    | const n =>
      by_cases h : m = n
      · rw [h]
      · simp [meet, h, Ne.symm h]
    | _ => rfl
  | _ => cases b <;> rfl

theorem meet_assoc (a b c : Constancy) : (a.meet b).meet c = a.meet (b.meet c) := by
  cases a with
  | top => simp
  | bottom => simp
  | const m =>
    cases b with
    | top => simp
    | bottom => simp
    | const n =>
      cases c with
      | top => simp
      | bottom => simp
      | const k =>
        by_cases hmn : m = n
        · subst hmn
          by_cases hmk : m = k <;> simp [meet, hmk]
        · by_cases hnk : n = k
          · subst hnk
            simp [meet, hmn]
          · simp [meet, hmn, hnk]

/-- Meeting with `b` would not change `a`. -/
def Below (a b : Constancy) : Prop := a.meet b = a

theorem meet_below_left (h : a.Below b) (c : Constancy) : (a.meet c).Below b := by
  unfold Below at *
  rw [meet_assoc, meet_comm c b, ← meet_assoc, h]

theorem meet_below_right (a b : Constancy) : (a.meet b).Below b := by
  unfold Below
  rw [meet_assoc, meet_self]

/-- How often a fact can still go down. -/
def height : Constancy → Nat
  | top => 2
  | const _ => 1
  | bottom => 0

theorem height_le (c : Constancy) : c.height ≤ 2 := by cases c <;> simp [height]

theorem height_meet_lt (h : a.meet b ≠ a) : (a.meet b).height < a.height := by
  cases a with
  | top =>
    cases b with
    | top => exact absurd rfl h
    | const n => exact Nat.lt_succ_self 1
    | bottom => exact Nat.zero_lt_two
  | const m =>
    cases b with
    | top => exact absurd rfl h
    | bottom => exact Nat.zero_lt_one
    | const n =>
      by_cases hmn : m = n
      · exact absurd (by simp [meet, hmn]) h
      · simp [meet, hmn, height]
  | bottom => exact absurd (bottom_meet b) h

end Constancy

/-- Where a terminator may lead by what is known of its condition. -/
def Terminator.follow (known : Operand → Constancy) : Terminator → List Label
  | .jump t => [t]
  | .branch c t e =>
    match known c with
    | .top => []
    | .const n => [if n ≠ 0 then t else e]
    | .bottom => [t, e]
  | .ret _ => []

theorem Terminator.follow_mono {known' : Operand → Constancy}
    (h : ∀ x ∈ t.uses, (known' x).Below (known x)) (hl : l ∈ t.follow known) :
    l ∈ t.follow known' := by
  cases t with
  | jump t => exact hl
  | ret v => exact hl
  | branch c t e =>
    have hc := h c (by simp [uses])
    cases hold : known c with
    | top => simp [follow, hold] at hl
    | const n =>
      rw [hold] at hc
      cases hnew : known' c with
      | top => simp [hnew, Constancy.Below] at hc
      | const m =>
        rw [hnew] at hc
        have hmn : m = n := by
          by_contra hne
          simp [Constancy.Below, Constancy.meet, hne] at hc
        simpa [follow, hold, hnew, hmn] using hl
      | bottom =>
        simp only [follow, hold, List.mem_singleton] at hl
        by_cases hn : n = 0 <;> simp [follow, hnew, hl, hn]
    | bottom =>
      rw [hold] at hc
      have hnew : known' c = .bottom := by simpa [Constancy.Below] using hc.symm
      simpa [follow, hold, hnew] using hl

theorem Terminator.mem_targets_of_follow (h : l ∈ t.follow known) : l ∈ t.targets := by
  cases t with
  | jump t => exact h
  | ret v => exact h
  | branch c t e =>
    by_cases hte : t = e
    · cases hc : known c <;> simp_all [follow, targets]
    · cases hc : known c with
      | const n => by_cases hn : n = 0 <;> simp_all [follow, targets]
      | _ => simp_all [follow, targets]

/-! ## What looking at a node does -/

namespace Facts

variable {f : Func} {s s' : Facts} {b : Block} {i : Instr} {p : Label} {d : Var}

/-- What an instruction of block `b` gives by the facts at hand. -/
def result (s : Facts) (b : Label) : Instr → Constancy
  | .phi φ => s.phiValue b φ
  | .binary _ op l r => (foldBinary op (s.valueOf l) (s.valueOf r)).toOption.getD .bottom
  | .unary _ op x => (foldUnary op (s.valueOf x)).toOption.getD .bottom
  | .copy _ x => s.valueOf x
  | _ => .bottom

/-- Where a terminator may lead by the facts at hand. -/
def targets (s : Facts) : Terminator → List Label
  | .jump t => [t]
  | .branch c t e =>
    match s.valueOf c with
    | .top => []
    | .const n => [if n ≠ 0 then t else e]
    | .bottom => [t, e]
  | .ret _ => []

theorem targets_eq (s : Facts) (t : Terminator) : s.targets t = t.follow s.valueOf := by
  cases t <;> rfl

/-- What is known of operands depends on nothing but the values. -/
theorem valueOf_congr (h : s'.values = s.values) (x : Operand) : s'.valueOf x = s.valueOf x := by
  cases x with
  | var v => simp only [valueOf, h]
  | _ => rfl

theorem visitInstr_of_none (h : i.dest? = none) (b : Label) : s.visitInstr f b i = s := by
  cases i with
  | call d g args =>
    cases h
    rfl
  | store a v => rfl
  | write v => rfl
  | _ => cases h

theorem visitInstr_of_some (h : i.dest? = some d) (b : Label) :
    ∃ log, s.visitInstr f b i = { s with log := log }.update f d (s.result b i) := by
  cases i with
  | binary d' op l r =>
    cases h
    cases hr : foldBinary op (s.valueOf l) (s.valueOf r) with
    | ok c => exact ⟨s.log, by simp only [visitInstr, updateWith, result, hr]; rfl⟩
    | error e =>
      exact ⟨s.log ++ [keptEvent op e], by simp only [visitInstr, updateWith, result, hr]; rfl⟩
  | unary d' op x =>
    cases h
    cases hr : foldUnary op (s.valueOf x) with
    | ok c => exact ⟨s.log, by simp only [visitInstr, updateWith, result, hr]; rfl⟩
    | error e =>
      exact ⟨s.log ++ [keptEvent op e], by simp only [visitInstr, updateWith, result, hr]; rfl⟩
  | store a v => cases h
  | write v => cases h
  | _ =>
    cases h
    exact ⟨s.log, rfl⟩

theorem visitTerm_eq (b : Label) (s : Facts) (t : Terminator) :
    s.visitTerm b t
      = { s with edgeQueue := s.edgeQueue ++ (s.targets t).map fun l => (some b, l) } := by
  cases t with
  | jump t => rfl
  | ret v => simp [visitTerm, targets]
  | branch c t e => cases h : s.valueOf c <;> simp [visitTerm, targets, pushEdge, h]

theorem length_targets_le (s : Facts) (t : Terminator) : (s.targets t).length ≤ 2 := by
  cases t with
  | branch c t e => cases h : s.valueOf c <;> simp [targets, h]
  | _ => simp [targets]

theorem mem_targets (h : l ∈ s.targets t) : l ∈ t.targets :=
  Terminator.mem_targets_of_follow (targets_eq s t ▸ h)

/-- Looking at the node again would teach nothing. -/
def Settled (s : Facts) (b : Label) : Node → Prop
  | .instr i => ∀ d, i.dest? = some d → (s.values.getD d .top).Below (s.result b i)
  | .term t => ∀ l ∈ s.targets t, (b, l) ∈ s.edges ∨ (some b, l) ∈ s.edgeQueue

/-- The result depends on the operands and, for a phi, on the edges into its block. -/
theorem result_congr {b : Label} (hvalues : ∀ x ∈ i.uses, s'.valueOf x = s.valueOf x)
    (hedges : i.isPhi = true → ∀ p, (p, b) ∈ s'.edges ↔ (p, b) ∈ s.edges) :
    s'.result b i = s.result b i := by
  cases i with
  | binary d op l r =>
    simp [result, hvalues l (by simp [Instr.uses]), hvalues r (by simp [Instr.uses])]
  | unary d op x => simp [result, hvalues x (by simp [Instr.uses])]
  | copy d x => simp [result, hvalues x (by simp [Instr.uses])]
  | phi φ =>
    have hfilter : φ.incoming.filter (fun a => decide ((a.block, b) ∈ s'.edges))
        = φ.incoming.filter fun a => decide ((a.block, b) ∈ s.edges) :=
      List.filter_congr fun a _ => by simp only [hedges rfl a.block]
    have hmap : (φ.incoming.filter fun a => decide ((a.block, b) ∈ s.edges)).map
        (fun a => s'.valueOf a.value)
        = (φ.incoming.filter fun a => decide ((a.block, b) ∈ s.edges)).map fun a =>
          s.valueOf a.value :=
      List.map_congr_left fun a ha => hvalues a.value (List.mem_map_of_mem (List.mem_filter.1 ha).1)
    simp only [result, phiValue, hfilter, hmap]
  | _ => rfl

theorem targets_congr (h : ∀ x ∈ t.uses, s'.valueOf x = s.valueOf x) :
    s'.targets t = s.targets t := by
  cases t with
  | branch c t e => simp only [targets, h c (by simp [Terminator.uses])]
  | _ => rfl

/-- Less is known of the operands, so more blocks may follow. -/
theorem targets_mono (h : ∀ x ∈ t.uses, (s'.valueOf x).Below (s.valueOf x)) (hl : l ∈ s.targets t) :
    l ∈ s'.targets t := by
  rw [targets_eq] at hl ⊢
  exact Terminator.follow_mono h hl

/-- The facts at hand let control go from `p` to `l`. -/
def Allows (s : Facts) (f : Func) (p l : Label) : Prop :=
  ∃ b t, f.block? p = some b ∧ b.term = some t ∧ l ∈ s.targets t

theorem Allows.mono (h : s.Allows f p l) (hvalues : ∀ x, (s'.valueOf x).Below (s.valueOf x)) :
    s'.Allows f p l := by
  obtain ⟨b, t, hb, ht, hl⟩ := h
  exact ⟨b, t, hb, ht, targets_mono (fun x _ => hvalues x) hl⟩

theorem Allows.congr (h : s.Allows f p l) (hvalues : s'.values = s.values) : s'.Allows f p l :=
  h.mono fun x => by
    rw [valueOf_congr hvalues]
    exact Constancy.meet_self _

/-- A settled node stays settled as long as its operands and the edges into its block stay. -/
theorem Settled.congr {b : Label} (h : s.Settled b n)
    (hvalues : ∀ x ∈ n.uses, s'.valueOf x = s.valueOf x)
    (hdest : ∀ d, n.dest? = some d → ∀ c, (s.values.getD d .top).Below c →
      (s'.values.getD d .top).Below c)
    (hedges : (∃ φ, n = .instr (.phi φ)) → ∀ p, (p, b) ∈ s'.edges ↔ (p, b) ∈ s.edges)
    (hqueue : ∀ l, (b, l) ∈ s.edges ∨ (some b, l) ∈ s.edgeQueue → (b, l) ∈ s'.edges ∨
      (some b, l) ∈ s'.edgeQueue) : s'.Settled b n := by
  cases n with
  | instr i =>
    intro d hd
    have hresult : s'.result b i = s.result b i := by
      refine result_congr hvalues fun hphi => hedges ?_
      cases i with
      | phi φ => exact ⟨φ, rfl⟩
      | _ => cases hphi
    rw [hresult]
    exact hdest d hd _ (h d hd)
  | term t =>
    intro l hl
    rw [targets_congr hvalues] at hl
    exact hqueue l (h l hl)

/-- A settled node stays settled where no value changes and no edge is lost. -/
theorem Settled.of_values {b : Label} (h : s.Settled b n) (hvalues : s'.values = s.values)
    (hedges : (∃ φ, n = .instr (.phi φ)) → ∀ p, (p, b) ∈ s'.edges ↔ (p, b) ∈ s.edges)
    (hqueue : ∀ l, (b, l) ∈ s.edges ∨ (some b, l) ∈ s.edgeQueue → (b, l) ∈ s'.edges ∨
      (some b, l) ∈ s'.edgeQueue) : s'.Settled b n :=
  h.congr (fun x _ => valueOf_congr hvalues x) (fun d _ c hc => by rwa [hvalues]) hedges hqueue

/-! ## Updates -/

theorem update_cases (f : Func) (v : Var) (c : Constancy) (s : Facts) :
    (s.update f v c = s ∧ (s.values.getD v .top).Below c) ∨
      ((s.values.getD v .top).meet c ≠ s.values.getD v .top ∧ s.update f v c =
        { s with values := s.values.insert v ((s.values.getD v .top).meet c),
                 useQueue := s.useQueue ++ f.usesOf v }) := by
  by_cases h : (s.values.getD v .top).meet c = s.values.getD v .top
  · exact .inl ⟨if_pos h, h⟩
  · exact .inr ⟨h, if_neg h⟩

theorem mem_usesOf (wf : f.WellFormed) :
    (n, l) ∈ f.usesOf v ↔ ∃ b, f.block? l = some b ∧ n ∈ b.nodes ∧ .var v ∈ n.uses := by
  simp only [Func.usesOf, List.mem_flatMap, List.mem_map, List.mem_filter, decide_eq_true_eq]
  constructor
  · rintro ⟨b, hb, n', hn, x, ⟨hx, rfl⟩, heq⟩
    obtain ⟨l', hl'⟩ := Table.mem_values.1 hb
    cases heq
    rw [wf.name_eq hl']
    exact ⟨b, hl', hn, hx⟩
  · rintro ⟨b, hb, hn, hv⟩
    exact ⟨b, Table.mem_values.2 ⟨l, hb⟩, n, hn, .var v, ⟨hv, rfl⟩, by rw [wf.name_eq hb]⟩

theorem getD_update (f : Func) (v x : Var) (c : Constancy) (s : Facts) :
    (s.update f v c).values.getD x .top
    = if x = v then (s.values.getD v .top).meet c else s.values.getD x .top := by
  rcases update_cases f v c s with ⟨heq, hbelow⟩ | ⟨_, heq⟩
  · rw [heq]
    split
    · rename_i hx
      rw [hx, hbelow]
    · rfl
  · rw [heq]
    exact Table.getD_insert _ _ _ _ _

theorem valueOf_update {x : Operand} (c : Constancy) (s : Facts) (h : x ≠ .var v) :
    (s.update f v c).valueOf x = s.valueOf x := by
  rcases update_cases f v c s with ⟨heq, _⟩ | ⟨_, heq⟩
  · rw [heq]
  · rw [heq]
    cases x with
    | var w =>
      have hne : w ≠ v := fun e => h (congrArg Operand.var e)
      exact (Table.getD_insert _ _ _ _ _).trans (if_neg hne)
    | _ => rfl

/-- What is known of an operand only goes down. -/
theorem valueOf_update_below (hv : v ∈ s.values) (c : Constancy) (x : Operand) :
    ((s.update f v c).valueOf x).Below (s.valueOf x) := by
  by_cases hx : x = .var v
  · subst hx
    obtain ⟨old, hold⟩ := Table.mem_iff_get?.1 hv
    have hbefore : s.valueOf (.var v) = old := Table.getD_of_get? hold
    rcases update_cases f v c s with ⟨heq, _⟩ | ⟨_, heq⟩
    · rw [heq]
      exact Constancy.meet_self _
    · have hafter : (s.update f v c).valueOf (.var v) = old.meet c := by
        rw [heq]
        show (s.values.insert v ((s.values.getD v .top).meet c)).getD v .bottom = _
        rw [Table.getD_insert, if_pos rfl, Table.getD_of_get? hold]
      rw [hafter, hbefore]
      exact Constancy.meet_below_left (Constancy.meet_self _) c
  · rw [valueOf_update c s hx]
    exact Constancy.meet_self _

/-- A settled node stays settled, or is queued because it reads what changed. -/
theorem Settled.update (wf : f.WellFormed) (hb : f.block? l = some b) (hn : n ∈ b.nodes)
    (h : s.Settled l n) (v : Var) (c : Constancy) :
    (s.update f v c).Settled l n ∨ (n, l) ∈ (s.update f v c).useQueue := by
  rcases update_cases f v c s with ⟨heq, _⟩ | ⟨_, heq⟩
  · rw [heq]
    exact .inl h
  by_cases hv : .var v ∈ n.uses
  · rw [heq]
    exact .inr (List.mem_append_right _ ((mem_usesOf wf).2 ⟨b, hb, hn, hv⟩))
  · refine .inl (h.congr (fun x hx => valueOf_update c s fun e => hv (e ▸ hx)) (fun d hd r hr =>
      ?_) ?_ ?_)
    · rw [getD_update]
      split
      · rename_i hdv
        exact Constancy.meet_below_left (hdv ▸ hr) c
      · exact hr
    · rw [heq]
      exact fun _ p => Iff.rfl
    · rw [heq]
      exact fun l h => h

/-- An instruction that was looked at is settled, or queued because it reads what it defines. -/
theorem settled_update_result (wf : f.WellFormed) (hb : f.block? l = some b)
    (hi : .instr i ∈ b.nodes) (hd : i.dest? = some d) :
    (s.update f d (s.result l i)).Settled l (.instr i) ∨
      (.instr i, l) ∈ (s.update f d (s.result l i)).useQueue := by
  rcases update_cases f d (s.result l i) s with ⟨heq, hbelow⟩ | ⟨_, heq⟩
  · rw [heq]
    refine .inl fun d' hd' => ?_
    cases hd.symm.trans hd'
    exact hbelow
  by_cases hv : .var d ∈ i.uses
  · rw [heq]
    exact .inr (List.mem_append_right _ ((mem_usesOf wf).2 ⟨b, hb, hi, hv⟩))
  · refine .inl fun d' hd' => ?_
    cases hd.symm.trans hd'
    have hresult : (s.update f d (s.result l i)).result l i = s.result l i :=
      result_congr (fun x hx => valueOf_update _ s fun e => hv (e ▸ hx)) fun _ p => by rw [heq]
    rw [hresult, getD_update, if_pos rfl]
    exact Constancy.meet_below_right _ _

/-! ## What holds in the course of the search -/

/-- What holds in the course of the search. The nodes that are `pending` are about to be looked
at. -/
structure Sound (f : Func) (pending : List (Node × Label)) (s : Facts) : Prop where
  missing : s.missing = none
  known : ∀ n ∈ f.nodes, ∀ d, n.dest? = some d → d ∈ s.values
  params : ∀ p ∈ f.params, s.values.get? ⟨p, some 0⟩ = some .bottom
  start : f.entry ∈ s.blocks ∨ (none, f.entry) ∈ s.edgeQueue
  block : ∀ l ∈ s.blocks, l ∈ f.blocks
  reached : ∀ l ∈ s.blocks, Relation.ReflTransGen (fun p t => (p, t) ∈ s.edges) f.entry l
  edge : ∀ p l, (p, l) ∈ s.edges → l ∈ s.blocks ∧ l ∈ f.graph.next p
  queued : ∀ p l, (some p, l) ∈ s.edgeQueue → p ∈ s.blocks ∧ l ∈ f.graph.next p
  queuedEntry : ∀ l, (none, l) ∈ s.edgeQueue → l = f.entry
  allowed : ∀ p l, (p, l) ∈ s.edges ∨ (some p, l) ∈ s.edgeQueue → s.Allows f p l
  uses : ∀ n l, (n, l) ∈ s.useQueue → ∃ b, f.block? l = some b ∧ n ∈ b.nodes
  settled : ∀ l ∈ s.blocks, ∀ b, f.block? l = some b → ∀ n ∈ b.nodes,
    s.Settled l n ∨ (n, l) ∈ s.useQueue ++ pending

variable {pending : List (Node × Label)}

theorem Sound.update (wf : f.WellFormed) (h : Sound f pending s) (hv : v ∈ s.values)
    (c : Constancy) : Sound f pending (s.update f v c) := by
  have hallowed : ∀ p l, s.Allows f p l → (s.update f v c).Allows f p l := fun p l ha =>
    ha.mono fun x => valueOf_update_below hv c x
  have hsettled : ∀ l ∈ s.blocks, ∀ b, f.block? l = some b → ∀ n ∈ b.nodes,
      (s.update f v c).Settled l n ∨ (n, l) ∈ (s.update f v c).useQueue ++ pending := by
    intro l hl b hb n hn
    rcases h.settled l hl b hb n hn with hs | hq
    · exact (hs.update wf hb hn v c).imp_right (List.mem_append_left _)
    · refine .inr (List.mem_append.2 ((List.mem_append.1 hq).imp_left fun hq => ?_))
      rcases update_cases f v c s with ⟨heq, _⟩ | ⟨_, heq⟩
      · rwa [heq]
      · rw [heq]
        exact List.mem_append_left _ hq
  rcases update_cases f v c s with ⟨heq, _⟩ | ⟨hne, heq⟩
  · rwa [heq]
  · rw [heq] at hsettled hallowed ⊢
    exact
      { missing := h.missing
        known := fun n hn d hd => Table.mem_insert.2 (.inr (h.known n hn d hd))
        params := fun p hp => by
          have hbottom := h.params p hp
          show (s.values.insert v _).get? _ = _
          rw [Table.get?_insert]
          split
          · rename_i hpv
            -- A parameter is known to vary, so nothing changes it.
            rw [hpv] at hbottom
            rw [Table.getD_of_get? hbottom] at hne
            exact absurd (Constancy.bottom_meet c) hne
          · exact hbottom
        start := h.start
        block := h.block
        reached := h.reached
        edge := h.edge
        queued := h.queued
        queuedEntry := h.queuedEntry
        allowed := fun p l he => hallowed p l (h.allowed p l he)
        uses := fun n l hu => by
          rcases List.mem_append.1 hu with hu | hu
          · exact h.uses n l hu
          · obtain ⟨b, hb, hn, _⟩ := (mem_usesOf wf).1 hu
            exact ⟨b, hb, hn⟩
        settled := hsettled }

/-- A use leaves the queue only to be pending. -/
theorem Sound.setUses {uses pending' : List (Node × Label)} (h : Sound f pending s)
    (huses : uses ⊆ s.useQueue) (hpending : s.useQueue ++ pending ⊆ uses ++ pending') (turn : Turn)
    (log : List Event) : Sound f pending' { s with useQueue := uses, turn := turn, log := log } :=
  { missing := h.missing
    known := h.known
    params := h.params
    start := h.start
    block := h.block
    reached := h.reached
    edge := h.edge
    queued := h.queued
    queuedEntry := h.queuedEntry
    allowed := fun p l he => (h.allowed p l he).congr rfl
    uses := fun n l hu => h.uses n l (huses hu)
    settled := fun l hl b hb n hn => (h.settled l hl b hb n hn).imp
      (fun hs => hs.of_values rfl (fun _ _ => Iff.rfl) fun _ hq => hq) fun hu => hpending hu }

/-- A pending node that is settled or queued is pending no more. -/
theorem Sound.discharge (h : Sound f ((n, l) :: pending) s)
    (hn : s.Settled l n ∨ (n, l) ∈ s.useQueue) : Sound f pending s :=
  { h with
    settled := fun l' hl' b hb n' hn' => by
      rcases h.settled l' hl' b hb n' hn' with hs | hq
      · exact .inl hs
      · rcases List.mem_append.1 hq with hq | hq
        · exact .inr (List.mem_append_left _ hq)
        · rcases List.mem_cons.1 hq with heq | hq
          · cases heq
            exact hn.imp_right (List.mem_append_left _)
          · exact .inr (List.mem_append_right _ hq) }

/-- The targets of a terminator of a block that can run are queued. -/
theorem Sound.queueTargets (h : Sound f pending s) (hb : f.block? l = some b) (ht : b.term = some t)
    (hl : l ∈ s.blocks) :
    Sound f pending
      { s with edgeQueue := s.edgeQueue ++ (s.targets t).map fun l' => (some l, l') } := by
  have hqueue : ∀ {e}, e ∈ s.edgeQueue ++ (s.targets t).map (fun l' => (some l, l')) →
      e ∈ s.edgeQueue ∨ ∃ x ∈ s.targets t, e = (some l, x) := by
    intro e he
    refine (List.mem_append.1 he).imp_right fun he => ?_
    obtain ⟨x, hx, heq⟩ := List.mem_map.1 he
    exact ⟨x, hx, heq.symm⟩
  exact
    { missing := h.missing
      known := h.known
      params := h.params
      start := h.start.imp_right (List.mem_append_left _)
      block := h.block
      reached := h.reached
      edge := h.edge
      queued := fun p l' hq => by
        rcases hqueue hq with hq | ⟨x, hx, heq⟩
        · exact h.queued p l' hq
        · cases heq
          refine ⟨hl, ?_⟩
          rw [Func.next_graph hb, Block.successors, ht]
          exact mem_targets hx
      queuedEntry := fun l' hq => by
        rcases hqueue hq with hq | ⟨_, _, heq⟩
        · exact h.queuedEntry l' hq
        · cases heq
      allowed := fun p l' he => by
        have hbefore : s.Allows f p l' := by
          rcases he with he | hq
          · exact h.allowed p l' (.inl he)
          · rcases hqueue hq with hq | ⟨x, hx, heq⟩
            · exact h.allowed p l' (.inr hq)
            · cases heq
              exact ⟨b, t, hb, ht, hx⟩
        exact hbefore.congr rfl
      uses := h.uses
      settled := fun l' hl' b' hb' n' hn' => (h.settled l' hl' b' hb' n' hn').imp_left fun hs =>
        hs.of_values rfl (fun _ _ => Iff.rfl) fun _ hq => hq.imp_right (List.mem_append_left _) }

/-- Looking at a pending node. -/
theorem Sound.visit (wf : f.WellFormed) (hb : f.block? l = some b) (hn : n ∈ b.nodes)
    (h : Sound f ((n, l) :: pending) s) (hl : l ∈ s.blocks) : Sound f pending (s.visit f l n) := by
  cases n with
  | instr i =>
    show Sound f pending (s.visitInstr f l i)
    cases hd : i.dest? with
    | none =>
      rw [visitInstr_of_none hd]
      refine h.discharge (.inl fun d hd' => ?_)
      rw [hd] at hd'
      cases hd'
    | some d =>
      obtain ⟨log, heq⟩ := visitInstr_of_some (f := f) (s := s) hd l
      have hresult : s.result l i = { s with log := log }.result l i :=
        result_congr (fun x _ => valueOf_congr (by rfl) x) fun _ _ => Iff.rfl
      rw [heq, hresult]
      have hmem : d ∈ s.values := h.known _ (Func.mem_nodes.2 ⟨l, b, hb, hn⟩) d hd
      exact ((h.setUses (List.Subset.refl _) (List.Subset.refl _) _ log).update wf hmem _).discharge
        (settled_update_result wf hb hn hd)
  | term t =>
    show Sound f pending (s.visitTerm l t)
    rw [visitTerm_eq]
    have ht : b.term = some t := by
      rcases List.mem_append.1 hn with hn | hn
      · obtain ⟨i, _, hi⟩ := List.mem_map.1 hn
        cases hi
      · obtain ⟨t', ht', heq⟩ := List.mem_map.1 hn
        cases heq
        exact Option.mem_toList.1 ht'
    refine (h.queueTargets hb ht hl).discharge (.inl fun l' hl' =>
      .inr (List.mem_append_right _ ?_))
    rw [targets_congr (s := s) fun x _ => valueOf_congr (by rfl) x] at hl'
    exact List.mem_map.2 ⟨l', hl', rfl⟩

theorem blocks_update (f : Func) (v : Var) (c : Constancy) (s : Facts) :
    (s.update f v c).blocks = s.blocks := by
  rcases update_cases f v c s with ⟨heq, _⟩ | ⟨_, heq⟩ <;> rw [heq]

theorem blocks_visit (f : Func) (l : Label) (s : Facts) (n : Node) :
    (s.visit f l n).blocks = s.blocks := by
  cases n with
  | instr i =>
    show (s.visitInstr f l i).blocks = _
    cases hd : i.dest? with
    | none => rw [visitInstr_of_none hd]
    | some d =>
      obtain ⟨log, heq⟩ := visitInstr_of_some (f := f) (s := s) hd l
      rw [heq, blocks_update]
  | term t =>
    show (s.visitTerm l t).blocks = _
    rw [visitTerm_eq]

/-- Looking at pending nodes of one block, one after the other. -/
theorem Sound.visits (wf : f.WellFormed) (hb : f.block? l = some b) (hns : ∀ n ∈ ns, n ∈ b.nodes)
    (h : Sound f (ns.map fun n => (n, l)) s) (hl : l ∈ s.blocks) :
    Sound f [] (ns.foldl (Facts.visit f l) s) := by
  induction ns generalizing s with
  | nil => exact h
  | cons n ns ih =>
    refine ih (fun m hm => hns m (.tail _ hm)) (h.visit wf hb (hns n (.head _)) hl) ?_
    rwa [blocks_visit]

theorem foldl_visitPhi (f : Func) (l : Label) (φs : List Phi) (s : Facts) :
    φs.foldl (visitPhi f l) s = (φs.map fun φ => Node.instr (.phi φ)).foldl (visit f l) s := by
  rw [List.foldl_map]
  rfl

theorem phi_mem_nodes (h : b.Tidy) (hn : n ∈ b.phis.map fun φ => Node.instr (.phi φ)) :
    n ∈ b.nodes := by
  obtain ⟨φ, hφ, rfl⟩ := List.mem_map.1 hn
  exact List.mem_append_left _ (List.mem_map_of_mem (h.phi_mem_iff.2 hφ))

/-- Entering a block, given that all its nodes are pending if it is new, and its phis if it is
not. -/
theorem Sound.enter (wf : f.WellFormed) (hb : f.block? l = some b)
    (hold : l ∈ s.blocks → Sound f (b.phis.map fun φ => (.instr (.phi φ), l)) s)
    (hnew : l ∉ s.blocks → Sound f (b.nodes.map fun n => (n, l)) { s with blocks := s.blocks ++
      [l] }) : Sound f [] (s.enter f l) := by
  simp only [Facts.enter, hb]
  split
  · rename_i hl
    rw [foldl_visitPhi]
    refine Sound.visits wf hb (fun n hn => phi_mem_nodes (wf.tidy hb) hn) ?_ hl
    rw [List.map_map]
    exact hold hl
  · rename_i hl
    exact Sound.visits wf hb (fun n hn => hn) (hnew hl) (List.mem_append_right _ (.head _))

/-- An edge to `dst` leaves the queue, and `dst` gets its place among the blocks that can run. -/
theorem Sound.take (h : Sound f [] s) (hb : f.block? dst = some b) {edges : List (Label × Label)}
    {blocks : List Label} (hrest : ∀ e ∈ rest, e ∈ s.edgeQueue)
    (hqueue : ∀ e ∈ s.edgeQueue, e ∈ rest ∨ e.2 = dst ∧ ∀ p, e.1 = some p → (p, dst) ∈ edges)
    (hedges : ∀ e ∈ s.edges, e ∈ edges)
    (hedges' : ∀ e ∈ edges, e ∈ s.edges ∨ e.2 = dst ∧ (some e.1, dst) ∈ s.edgeQueue)
    (hblocks : ∀ l ∈ s.blocks, l ∈ blocks) (hblocks' : ∀ l ∈ blocks, l ∈ s.blocks ∨ l = dst)
    (hdst : dst ∈ blocks) (hreached : Relation.ReflTransGen (fun p t => (p, t) ∈ edges) f.entry dst)
    (hpending : ∀ n ∈ b.nodes, (n, dst) ∈ pending ∨
      (dst ∈ s.blocks ∧ ((∃ φ, n = .instr (.phi φ)) → ∀ p, (p, dst) ∈ edges ↔ (p, dst) ∈ s.edges)))
    (turn : Turn) :
    Sound f pending
      { s with edgeQueue := rest, turn := turn, edges := edges, blocks := blocks } := by
  have hmono : ∀ {l n}, s.Settled l n → ((∃ φ, n = .instr (.phi φ)) → ∀ p, (p, l) ∈ edges ↔
      (p, l) ∈ s.edges) →
      Settled { s with edgeQueue := rest, turn := turn, edges := edges, blocks := blocks } l n := by
    intro l n hs hphi
    refine hs.of_values rfl hphi fun t ht => ?_
    rcases ht with he | hq
    · exact .inl (hedges _ he)
    · rcases hqueue _ hq with hq | ⟨rfl, hedge⟩
      · exact .inr hq
      · exact .inl (hedge l rfl)
  exact
    { missing := h.missing
      known := h.known
      params := h.params
      start := by
        rcases h.start with he | hq
        · exact .inl (hblocks _ he)
        · rcases hqueue _ hq with hq | ⟨hd, _⟩
          · exact .inr hq
          · exact .inl (show f.entry ∈ blocks from (show f.entry = dst from hd) ▸ hdst)
      block := fun l hl => (hblocks' l hl).elim (h.block l) fun hd => hd ▸ Func.mem_blocks hb
      reached := fun l hl => by
        rcases hblocks' l hl with hl | rfl
        · exact Relation.ReflTransGen.mono (fun a t he => hedges (a, t) he) _ _ (h.reached l hl)
        · exact hreached
      edge := fun p l he => by
        rcases hedges' _ he with he | ⟨rfl, hq⟩
        · exact (h.edge p l he).imp_left (hblocks l)
        · exact ⟨hdst, (h.queued p l hq).2⟩
      queued := fun p l hq => (h.queued p l (hrest _ hq)).imp_left (hblocks p)
      queuedEntry := fun l hq => h.queuedEntry l (hrest _ hq)
      allowed := fun p l he => by
        have hbefore : (p, l) ∈ s.edges ∨ (some p, l) ∈ s.edgeQueue := by
          rcases he with he | hq
          · refine (hedges' _ he).imp_right ?_
            rintro ⟨rfl, hq⟩
            exact hq
          · exact .inr (hrest _ hq)
        exact (h.allowed p l hbefore).congr rfl
      uses := h.uses
      settled := fun l hl b' hb' n hn => by
        have hbefore : l ∈ s.blocks → s.Settled l n ∨ (n, l) ∈ s.useQueue := fun hl => by
          simpa using h.settled l hl b' hb' n hn
        by_cases hd : l = dst
        · subst hd
          cases hb.symm.trans hb'
          rcases hpending n hn with hp | ⟨hl, hphi⟩
          · exact .inr (List.mem_append_right _ hp)
          · exact (hbefore hl).imp (fun hs => hmono hs hphi) (List.mem_append_left _)
        · refine (hbefore ((hblocks' l hl).resolve_right hd)).imp (fun hs => hmono hs fun _ p => ?_)
            (List.mem_append_left _)
          exact ⟨fun he => (hedges' _ he).resolve_right fun h => hd h.1, hedges _⟩ }

/-- An edge from the front of the queue. -/
theorem Sound.visitEdge (wf : f.WellFormed) (h : Sound f [] s)
    (hq : s.edgeQueue = (src, dst) :: rest) (turn : Turn) :
    Sound f [] (({ s with edgeQueue := rest, turn := turn } : Facts).visitEdge f src dst) := by
  have hrest : ∀ e ∈ rest, e ∈ s.edgeQueue := fun e he => hq ▸ List.mem_cons_of_mem _ he
  have hqueue : ∀ e ∈ s.edgeQueue, e ∈ rest ∨ e = (src, dst) := fun e he => by
    rw [hq] at he
    exact (List.mem_cons.1 he).symm
  have hfirst : (src, dst) ∈ s.edgeQueue := hq ▸ List.mem_cons_self
  cases src with
  | none =>
    cases h.queuedEntry dst hfirst
    obtain ⟨b, hb⟩ := Func.exists_block.1 wf.entry_mem
    have hqueue' : ∀ e ∈ s.edgeQueue, e ∈ rest ∨ e.2 = f.entry ∧ ∀ p, e.1 = some p →
        (p, f.entry) ∈ s.edges := by
      intro e he
      refine (hqueue e he).imp_right ?_
      rintro rfl
      exact ⟨rfl, fun p hp => by cases hp⟩
    refine Sound.enter wf hb (fun hl => ?_) fun hl => ?_
    · exact h.take hb hrest hqueue' (fun _ he => he) (fun _ he => .inl he) (fun _ hl => hl)
        (fun _ hl => .inl hl) hl .refl
        (fun n _ => .inr ⟨hl, fun _ _ => Iff.rfl⟩) turn
    · exact h.take hb hrest hqueue' (fun _ he => he) (fun _ he => .inl he)
        (fun _ => List.mem_append_left _)
        (fun _ hl => (List.mem_append.1 hl).imp_right List.mem_singleton.1)
        (List.mem_append_right _ (.head _)) .refl (fun n hn => .inl (List.mem_map_of_mem hn)) turn
  | some p =>
    obtain ⟨hp, hnext⟩ := h.queued p dst hfirst
    obtain ⟨b, hb⟩ := Func.exists_block.1 (wf.mem_of_next hnext)
    have hqueue' : ∀ edges : List (Label × Label), (p, dst) ∈ edges →
        ∀ e ∈ s.edgeQueue, e ∈ rest ∨ e.2 = dst ∧ ∀ q, e.1 = some q → (q, dst) ∈ edges := by
      intro edges hmem e he
      refine (hqueue e he).imp_right ?_
      rintro rfl
      refine ⟨rfl, fun q hq => ?_⟩
      cases hq
      exact hmem
    show Sound f [] (if (p, dst) ∈ s.edges then _ else _)
    split
    · rename_i he
      exact h.take hb hrest (hqueue' _ he) (fun _ he => he) (fun _ he => .inl he) (fun _ hl => hl)
        (fun _ hl => .inl hl)
        (h.edge p dst he).1 (h.reached dst (h.edge p dst he).1)
        (fun n _ => .inr ⟨(h.edge p dst he).1, fun _ _ => Iff.rfl⟩) turn
    · -- The new edge is the last one of a path to `dst`.
      have hlast : (p, dst) ∈ s.edges ++ [(p, dst)] := List.mem_append_right _ (.head _)
      have hreached : Relation.ReflTransGen (fun a t => (a, t) ∈ s.edges ++
          [(p, dst)]) f.entry dst :=
        .tail (Relation.ReflTransGen.mono (fun a t he => List.mem_append_left _ he)
          _ _ (h.reached p hp)) hlast
      have hedges' : ∀ e ∈ s.edges ++ [(p, dst)], e ∈ s.edges ∨ e.2 = dst ∧
          (some e.1, dst) ∈ s.edgeQueue :=
        fun e he => (List.mem_append.1 he).imp_right fun he => by
          rw [List.mem_singleton.1 he]
          exact ⟨rfl, hfirst⟩
      refine Sound.enter wf hb (fun hl => ?_) fun hl => ?_
      · refine h.take hb hrest (hqueue' _ hlast) (fun _ => List.mem_append_left _) hedges'
          (fun _ hl => hl)
          (fun _ hl => .inl hl) hl hreached (fun n hn => ?_) turn
        by_cases hphi : ∃ φ, n = .instr (.phi φ)
        · obtain ⟨φ, rfl⟩ := hphi
          have hφ : φ ∈ b.phis := (wf.tidy hb).phi_mem_iff.1 (by simpa [Block.nodes] using hn)
          exact .inl (List.mem_map.2 ⟨φ, hφ, rfl⟩)
        · exact .inr ⟨hl, fun h => absurd h hphi⟩
      · exact h.take hb hrest (hqueue' _ hlast) (fun _ => List.mem_append_left _) hedges'
          (fun _ => List.mem_append_left _)
          (fun _ hl => (List.mem_append.1 hl).imp_right List.mem_singleton.1)
          (List.mem_append_right _ (.head _)) hreached (fun n hn => .inl (List.mem_map_of_mem hn))
            turn

/-- A use from the front of the queue. -/
theorem Sound.visitUse (wf : f.WellFormed) (h : Sound f [] s) {rest : List (Node × Label)}
    (hq : s.useQueue = (n, l) :: rest) (turn : Turn) :
    Sound f [] (({ s with useQueue := rest, turn := turn } : Facts).visitUse f n l) := by
  obtain ⟨b, hb, hn⟩ := h.uses n l (hq ▸ List.mem_cons_self)
  have hsound : Sound f [(n, l)] { s with useQueue := rest, turn := turn } :=
    h.setUses (hq ▸ List.subset_cons_self _ _) (by simp [hq]) turn _
  show Sound f [] (if l ∈ s.blocks then _ else _)
  split
  · rename_i hl
    exact hsound.visit wf hb hn hl
  · rename_i hl
    refine
      { hsound with
        settled := fun l' hl' b' hb' n' hn' => ?_ }
    rcases hsound.settled l' hl' b' hb' n' hn' with hs | hu
    · exact .inl hs
    · refine .inr (List.mem_append_left _ ((List.mem_append.1 hu).resolve_right fun he => ?_))
      cases List.mem_singleton.1 he
      exact hl hl'

/-- A step looks at the front of a queue. -/
theorem step_cases {P : Facts → Prop} (hstep : s.step f = some s')
    (edge : ∀ {src dst rest}, s.edgeQueue = (src, dst) :: rest → ∀ turn,
      P (({ s with edgeQueue := rest, turn := turn } : Facts).visitEdge f src dst))
    (use : ∀ {n l rest}, s.useQueue = (n, l) :: rest → ∀ turn,
      P (({ s with useQueue := rest, turn := turn } : Facts).visitUse f n l)) : P s' := by
  unfold Facts.step at hstep
  split at hstep
  · cases hstep
  · cases hstep
  · rename_i hq
    cases hstep
    exact edge hq _
  · rename_i hq _
    cases hstep
    exact edge hq _
  · rename_i hq
    cases hstep
    exact use hq _
  · rename_i hq
    cases hstep
    exact use hq _

theorem search_keeps {P : Facts → Prop} (step : ∀ {s s'}, P s → s.step f = some s' → P s')
    (h : P s) : P (s.search f fuel) := by
  induction fuel generalizing s with
  | zero => exact h
  | succ fuel ih =>
    rw [Facts.search]
    cases hstep : s.step f with
    | none => exact h
    | some s' => exact ih (step h hstep)

/-- A step of the search keeps what holds in its course. -/
theorem Sound.step (wf : f.WellFormed) (h : Sound f [] s) (hstep : s.step f = some s') :
    Sound f [] s' :=
  step_cases hstep (h.visitEdge wf) (h.visitUse wf)

theorem Sound.search (wf : f.WellFormed) (h : Sound f [] s) : Sound f [] (s.search f fuel) :=
  search_keeps (fun h => h.step wf) h

end Facts

/-! ## What is still to be done -/

theorem sumOf_flatMap (count : β → Nat) (k : α → List β) (l : List α) :
    sumOf count (l.flatMap k) = sumOf (fun a => sumOf count (k a)) l := by
  induction l with
  | nil => rfl
  | cons a l ih => rw [List.flatMap_cons, sumOf_append, sumOf_cons, ih]

theorem sumOf_map_const (count : β → Nat) (b : β) (l : List α) :
    sumOf count (l.map fun _ => b) = count b * l.length := by
  induction l with
  | nil => rfl
  | cons a l ih =>
    rw [List.map_cons, sumOf_cons, ih, List.length_cons, Nat.mul_succ, Nat.add_comm]

/-- What looking at a node may cost: itself, and the edges that a terminator queues. -/
def Node.weight : Node → Nat
  | .instr _ => 1
  | .term _ => 3

theorem sumOf_weight_instrs (instrs : List Instr) :
    sumOf Node.weight (instrs.map .instr) = instrs.length := by
  induction instrs with
  | nil => rfl
  | cons i instrs ih =>
    rw [List.map_cons, sumOf_cons, ih, List.length_cons, Nat.add_comm]
    rfl

theorem sumOf_weight_nodes (b : Block) : sumOf Node.weight b.nodes ≤ b.nodes.length + 2 := by
  have hterm : sumOf Node.weight (b.term.toList.map .term)
      ≤ (b.term.toList.map Node.term).length + 2 := by
    cases b.term with
    | none => exact Nat.zero_le _
    | some t => exact Nat.le_refl _
  rw [Block.nodes, sumOf_append, sumOf_weight_instrs, List.length_append, List.length_map]
  omega

namespace Facts

variable {f : Func} {s s' : Facts}

/-- What the operands of a node may still cost: each time one of them goes down, the node is looked
at again. -/
def readCost (s : Facts) (n : Node) : Nat := n.weight * sumOf (fun x => (s.valueOf x).height) n.uses

/-- What the search may still cost. -/
def work (f : Func) (s : Facts) : Nat :=
  s.edgeQueue.length + sumOf (fun u => u.1.weight) s.useQueue + sumOf s.readCost f.nodes
    + 2 * (f.blocks.keys.filter (· ∉ s.blocks)).length

theorem readCost_congr (h : s'.values = s.values) : s'.readCost = s.readCost := by
  have hvalue : s'.valueOf = s.valueOf := funext (valueOf_congr h)
  unfold readCost
  rw [hvalue]

theorem sumOf_usesOf (f : Func) (v : Var) : sumOf (fun u => u.1.weight) (f.usesOf v)
    = sumOf (fun n => n.weight * n.uses.countP fun x => decide (x = .var v)) f.nodes := by
  unfold Func.usesOf Func.nodes
  rw [sumOf_flatMap, sumOf_flatMap]
  congr 1
  funext b
  rw [sumOf_flatMap]
  congr 1
  funext n
  rw [sumOf_map_const, List.countP_eq_length_filter]

/-- What an update adds to the queue, the operands cost less. -/
theorem readCost_update {c : Constancy} (hv : v ∈ s.values)
    (hne : (s.values.getD v .top).meet c ≠ s.values.getD v .top) (n : Node) :
    (s.update f v c).readCost n + n.weight * (n.uses.countP fun x => decide (x = .var v))
      ≤ s.readCost n := by
  unfold readCost
  rw [← Nat.mul_add]
  refine Nat.mul_le_mul_left _ ?_
  obtain ⟨old, hold⟩ := Table.mem_iff_get?.1 hv
  have hlt : ((s.update f v c).valueOf (.var v)).height + 1 ≤ (s.valueOf (.var v)).height := by
    rcases update_cases f v c s with ⟨_, hbelow⟩ | ⟨_, heq⟩
    · exact absurd hbelow hne
    · rw [heq]
      show ((s.values.insert v _).getD v .bottom).height + 1 ≤ (s.values.getD v .bottom).height
      rw [Table.getD_insert, if_pos rfl, Table.getD_of_get? hold]
      rw [Table.getD_of_get? hold] at hne ⊢
      exact Constancy.height_meet_lt hne
  induction n.uses with
  | nil => exact Nat.le_refl _
  | cons x xs ih =>
    rw [sumOf_cons, sumOf_cons, List.countP_cons]
    by_cases hx : x = .var v
    · subst hx
      simp only [decide_true, if_true]
      omega
    · rw [valueOf_update c s hx]
      simp only [hx, decide_false, Bool.false_eq_true, if_false]
      omega

theorem sumOf_add (count count' : α → Nat) (l : List α) :
    sumOf (fun a => count a + count' a) l = sumOf count l + sumOf count' l := by
  induction l with
  | nil => rfl
  | cons a l ih =>
    rw [sumOf_cons, sumOf_cons, sumOf_cons, ih]
    omega

theorem work_update (hv : v ∈ s.values) (c : Constancy) : (s.update f v c).work f ≤ s.work f := by
  rcases update_cases f v c s with ⟨heq, _⟩ | ⟨hne, heq⟩
  · exact Nat.le_of_eq (congrArg _ heq)
  · have hcost : sumOf (s.update f v c).readCost f.nodes + sumOf (fun u => u.1.weight) (f.usesOf v)
        ≤ sumOf s.readCost f.nodes := by
      rw [sumOf_usesOf, ← sumOf_add]
      exact sumOf_le_sumOf fun n _ => readCost_update hv hne n
    rw [heq] at hcost ⊢
    unfold work
    simp only [sumOf_append]
    omega

/-- All that is defined has a value. -/
def Known (f : Func) (s : Facts) : Prop := ∀ n ∈ f.nodes, ∀ d, n.dest? = some d → d ∈ s.values

theorem Known.update (h : Known f s) (v : Var) (c : Constancy) : Known f (s.update f v c) := by
  rcases update_cases f v c s with ⟨heq, _⟩ | ⟨_, heq⟩
  · rwa [heq]
  · rw [heq]
    exact fun n hn d hd => Table.mem_insert.2 (.inr (h n hn d hd))

/-- Looking at a node costs its weight, less one. -/
theorem work_visit (hn : n ∈ f.nodes) (h : Known f s) (l : Label) :
    (s.visit f l n).work f + 1 ≤ s.work f + n.weight ∧ Known f (s.visit f l n) := by
  cases n with
  | instr i =>
    show (s.visitInstr f l i).work f + 1 ≤ s.work f + 1 ∧ Known f (s.visitInstr f l i)
    cases hd : i.dest? with
    | none =>
      rw [visitInstr_of_none hd]
      exact ⟨Nat.le_refl _, h⟩
    | some d =>
      obtain ⟨log, heq⟩ := visitInstr_of_some (f := f) (s := s) hd l
      rw [heq]
      have hlog : Known f { s with log := log } := h
      refine ⟨Nat.succ_le_succ (Nat.le_trans (work_update (hlog _ hn d hd) _) ?_), hlog.update d _⟩
      exact Nat.le_of_eq (by unfold work; rw [readCost_congr (s := s) (by rfl)])
  | term t =>
    show (s.visitTerm l t).work f + 1 ≤ s.work f + 3 ∧ Known f (s.visitTerm l t)
    rw [visitTerm_eq]
    refine ⟨?_, h⟩
    have hlength := s.length_targets_le t
    unfold work
    rw [readCost_congr (s := s) (by rfl)]
    simp only [List.length_append, List.length_map]
    omega

theorem work_visits (hns : ∀ n ∈ ns, n ∈ f.nodes) (h : Known f s) (l : Label) :
    (ns.foldl (visit f l) s).work f + ns.length ≤ s.work f + sumOf Node.weight ns := by
  induction ns generalizing s with
  | nil => exact Nat.le_refl _
  | cons n ns ih =>
    obtain ⟨hwork, hknown⟩ := work_visit (hns n (.head _)) h l
    have hrest := ih (fun m hm => hns m (.tail _ hm)) hknown
    rw [List.foldl_cons, List.length_cons, sumOf_cons]
    omega

/-- A block costs nothing when it is entered: its share was set aside. -/
theorem work_enter (wf : f.WellFormed) (h : Known f s) (l : Label) :
    (s.enter f l).work f ≤ s.work f := by
  cases hb : f.block? l with
  | none =>
    simp only [enter, hb]
    exact Nat.le_of_eq (by unfold work; rw [readCost_congr (s := s) (by rfl)])
  | some b =>
    simp only [enter, hb]
    split
    · rw [foldl_visitPhi]
      have hmem : ∀ n ∈ b.phis.map fun φ => Node.instr (.phi φ), n ∈ f.nodes := fun n hn =>
        Func.mem_nodes.2 ⟨l, b, hb, phi_mem_nodes (wf.tidy hb) hn⟩
      have hwork := work_visits hmem h l
      have hweight : sumOf Node.weight (b.phis.map fun φ => Node.instr (.phi φ))
          = b.phis.length := by
        have := sumOf_weight_instrs (b.phis.map .phi)
        rwa [List.map_map, List.length_map] at this
      rw [hweight, List.length_map] at hwork
      omega
    · rename_i hl
      have hknown : Known f { s with blocks := s.blocks ++ [l] } := h
      have hwork := work_visits (fun n hn => Func.mem_nodes.2 ⟨l, b, hb, hn⟩) hknown l
      have hweight := sumOf_weight_nodes b
      have hfewer : (f.blocks.keys.filter (· ∉ s.blocks ++ [l])).length
          < (f.blocks.keys.filter (· ∉ s.blocks)).length := by
        have hsplit : f.blocks.keys.filter (· ∉ s.blocks ++ [l])
            = (f.blocks.keys.filter (· ∉ s.blocks)).filter (· ≠ l) := by
          rw [List.filter_filter]
          exact List.filter_congr fun x _ => by simp [and_comm]
        rw [hsplit]
        refine List.length_filter_lt_length_iff_exists.2 ⟨l,
          List.mem_filter.2 ⟨Func.mem_blocks hb, ?_⟩, ?_⟩
        · exact decide_eq_true hl
        · simp
      have hstart : Facts.work f { s with blocks := s.blocks ++ [l] } + 2 ≤ s.work f := by
        unfold work
        rw [readCost_congr (s := s) (by rfl)]
        show s.edgeQueue.length + sumOf (fun u => u.1.weight) s.useQueue + sumOf s.readCost f.nodes
          + 2 * (f.blocks.keys.filter (· ∉ s.blocks ++ [l])).length + 2 ≤ _
        omega
      omega

/-- Looking at an edge from the front of the queue leaves less to do. -/
theorem work_visitEdge (wf : f.WellFormed) (h : Known f s) (hq : s.edgeQueue = (src, dst) :: rest)
    (turn : Turn) :
    (({ s with edgeQueue := rest, turn := turn } : Facts).visitEdge f src dst).work f
      < s.work f := by
  have hpop : ∀ edges, Facts.work f { s with edgeQueue := rest, turn := turn, edges := edges }
      < s.work f := by
    intro edges
    unfold work
    rw [readCost_congr (s := s) (by rfl), hq, List.length_cons]
    exact Nat.add_lt_add_right
      (Nat.add_lt_add_right (Nat.add_lt_add_right (Nat.lt_succ_self _) _) _) _
  have henter : ∀ edges,
      (({ s with edgeQueue := rest, turn := turn, edges := edges } : Facts).enter f dst).work f
        < s.work f := by
    intro edges
    have hknown : Known f { s with edgeQueue := rest, turn := turn, edges := edges } := h
    exact Nat.lt_of_le_of_lt (work_enter wf hknown dst) (hpop edges)
  cases src with
  | none => exact henter s.edges
  | some p =>
    show (if (p, dst) ∈ s.edges then _ else _ : Facts).work f < _
    split
    · exact hpop s.edges
    · exact henter _

/-- So does looking at a node that is read again. -/
theorem work_visitUse (h : Known f s) {rest : List (Node × Label)}
    (hq : s.useQueue = (n, l) :: rest) (hn : n ∈ f.nodes) (turn : Turn) :
    (({ s with useQueue := rest, turn := turn } : Facts).visitUse f n l).work f < s.work f := by
  have hpop : Facts.work f { s with useQueue := rest, turn := turn } + n.weight = s.work f := by
    unfold work
    rw [readCost_congr (s := s) (by rfl), hq, sumOf_cons]
    show s.edgeQueue.length + sumOf (fun u => u.1.weight) rest + sumOf s.readCost f.nodes
      + 2 * (f.blocks.keys.filter (· ∉ s.blocks)).length + n.weight
      = s.edgeQueue.length + (n.weight + sumOf (fun u => u.1.weight) rest)
        + sumOf s.readCost f.nodes
      + 2 * (f.blocks.keys.filter (· ∉ s.blocks)).length
    omega
  have hweight : 1 ≤ n.weight := by cases n <;> simp [Node.weight]
  show (if l ∈ s.blocks then _ else _ : Facts).work f < _
  split
  · have := (work_visit (s := { s with useQueue := rest, turn := turn }) hn h l).1
    omega
  · omega

/-- Each step of the search leaves less to do. -/
theorem work_step (wf : f.WellFormed) (h : Sound f [] s) (hstep : s.step f = some s') :
    s'.work f < s.work f := by
  have huse : ∀ {n l rest}, s.useQueue = (n, l) :: rest → n ∈ f.nodes := by
    intro n l rest hq
    obtain ⟨b, hb, hn⟩ := h.uses n l (hq ▸ List.mem_cons_self)
    exact Func.mem_nodes.2 ⟨l, b, hb, hn⟩
  exact step_cases (P := fun s' => s'.work f < s.work f) hstep (work_visitEdge wf h.known) fun hq =>
    work_visitUse h.known hq (huse hq)

theorem step_search (wf : f.WellFormed) (h : Sound f [] s) (enough : s.work f ≤ fuel) :
    (s.search f fuel).step f = none := by
  induction fuel generalizing s with
  | zero =>
    cases hstep : s.step f with
    | none => exact hstep
    | some s' => exact absurd (work_step wf h hstep) (by omega)
  | succ fuel ih =>
    rw [Facts.search]
    cases hstep : s.step f with
    | none => exact hstep
    | some s' =>
      have hlt := work_step wf h hstep
      exact ih (h.step wf hstep) (by omega)

/-! ## The facts found -/

/-- The facts solve the equations of the function: every instruction that can run is settled, and so
is every terminator. -/
structure Solves (s : Facts) (f : Func) : Prop where
  missing : s.missing = none
  params : ∀ p ∈ f.params, s.values.get? ⟨p, some 0⟩ = some .bottom
  entry : f.entry ∈ s.blocks
  block : ∀ l ∈ s.blocks, l ∈ f.blocks
  reached : ∀ l ∈ s.blocks, Relation.ReflTransGen (fun p t => (p, t) ∈ s.edges) f.entry l
  edge : ∀ p l, (p, l) ∈ s.edges → l ∈ s.blocks ∧ l ∈ f.graph.next p
  allowed : ∀ p l, (p, l) ∈ s.edges → s.Allows f p l
  instr : ∀ l ∈ s.blocks, ∀ b, f.block? l = some b → ∀ i ∈ b.instrs, ∀ d, i.dest? = some d →
    d ∈ s.values ∧ (s.values.getD d .top).Below (s.result l i)
  term : ∀ l ∈ s.blocks, ∀ b, f.block? l = some b → ∀ t, b.term = some t → ∀ x ∈ s.targets t,
  (l, x) ∈ s.edges

theorem queues_of_step (h : s.missing = none) (hstep : s.step f = none) :
    s.edgeQueue = [] ∧ s.useQueue = [] := by
  unfold Facts.step at hstep
  split at hstep
  · rename_i hmissing
    rw [h] at hmissing
    cases hmissing
  · rename_i he hu
    exact ⟨he, hu⟩
  all_goals cases hstep

theorem Sound.solves (h : Sound f [] s) (hstep : s.step f = none) : s.Solves f := by
  obtain ⟨hedges, huses⟩ := queues_of_step h.missing hstep
  have hsettled : ∀ l ∈ s.blocks, ∀ b, f.block? l = some b → ∀ n ∈ b.nodes, s.Settled l n := by
    intro l hl b hb n hn
    refine (h.settled l hl b hb n hn).resolve_right fun hmem => ?_
    rw [huses] at hmem
    cases hmem
  exact
    { missing := h.missing
      params := h.params
      entry := h.start.resolve_right fun hq => by rw [hedges] at hq; cases hq
      block := h.block
      reached := h.reached
      edge := h.edge
      allowed := fun p l he => h.allowed p l (.inl he)
      instr := fun l hl b hb i hi d hd =>
        ⟨h.known _ (Func.mem_nodes_instr.2 ⟨l, b, hb, hi⟩) d hd,
          hsettled l hl b hb (.instr i) (List.mem_append_left _ (List.mem_map_of_mem hi)) d hd⟩
      term := fun l hl b hb t ht x hx => by
        have hn : .term t ∈ b.nodes :=
          List.mem_append_right _ (List.mem_map_of_mem (Option.mem_toList.2 ht))
        refine (hsettled l hl b hb (.term t) hn x hx).resolve_right fun hq => ?_
        rw [hedges] at hq
        cases hq }

theorem sound_initial (f : Func) : Sound f [] f.initialFacts where
  missing := rfl
  known n hn d hd := by
    refine Table.mem_ofList.2 (List.mem_map.2 ⟨(d, .top), List.mem_append_left _ ?_, rfl⟩)
    exact List.mem_filterMap.2 ⟨n, hn, by rw [hd]; rfl⟩
  params p hp := by
    have hmem : (⟨p, some 0⟩ : Var) ∈ f.params.map fun p => (⟨p, some 0⟩ : Var) :=
      List.mem_map_of_mem hp
    have := Table.get?_foldl_insert_const Constancy.bottom hmem
      (Table.ofList (f.nodes.filterMap fun n => n.dest?.map fun d => (d, Constancy.top)))
    rw [List.map_map] at this
    show (Table.ofList (_ ++ _)).get? _ = _
    rw [Table.ofList, List.foldl_append]
    exact this
  start := .inr (.head _)
  block := by simp [Func.initialFacts]
  reached := by simp [Func.initialFacts]
  edge := by simp [Func.initialFacts]
  queued := by simp [Func.initialFacts]
  queuedEntry := by simp [Func.initialFacts]
  allowed := by simp [Func.initialFacts]
  uses := by simp [Func.initialFacts]
  settled := by simp [Func.initialFacts]

theorem readCost_le (s : Facts) (n : Node) :
    s.readCost n ≤ 2 * n.uses.length + 2 * (n.weight - 1) := by
  have hsum : ∀ xs : List Operand, sumOf (fun x => (s.valueOf x).height) xs ≤ 2 * xs.length := by
    intro xs
    induction xs with
    | nil => exact Nat.le_refl _
    | cons x xs ih =>
      have := (s.valueOf x).height_le
      rw [sumOf_cons, List.length_cons]
      omega
  have hcost := hsum n.uses
  unfold readCost
  cases n with
  | instr i =>
    show 1 * _ ≤ _
    rw [Nat.one_mul]
    exact Nat.le_trans hcost (Nat.le_add_right _ _)
  | term t =>
    have hone : t.uses.length ≤ 1 := by
      cases t with
      | ret v => cases v <;> simp [Terminator.uses]
      | _ => simp [Terminator.uses]
    show 3 * sumOf _ t.uses ≤ 2 * t.uses.length + 2 * (3 - 1)
    change sumOf _ t.uses ≤ 2 * t.uses.length at hcost
    omega

/-- The search is never cut off. -/
theorem work_initial (f : Func) : f.initialFacts.work f ≤ f.searchBound := by
  have hblocks : ∀ bs : List Block, sumOf (fun n => n.weight - 1) (bs.flatMap Block.nodes) ≤ 2
      * bs.length := by
    intro bs
    induction bs with
    | nil => exact Nat.le_refl _
    | cons b bs ih =>
      have hinstrs : sumOf (fun n => n.weight - 1) (b.instrs.map Node.instr) = 0 := by
        induction b.instrs with
        | nil => rfl
        | cons i instrs ih => rw [List.map_cons, sumOf_cons, ih]; rfl
      have hterm : sumOf (fun n => n.weight - 1) (b.term.toList.map Node.term) ≤ 2 := by
        cases b.term with
        | none => exact Nat.zero_le _
        | some t => exact Nat.le_refl _
      rw [List.flatMap_cons, sumOf_append, Block.nodes, sumOf_append, hinstrs, List.length_cons]
      omega
  have hreads : sumOf f.initialFacts.readCost f.nodes ≤ 2 * f.useCount + 4 * f.blocks.size := by
    have hle := sumOf_le_sumOf (l := f.nodes) fun n _ => f.initialFacts.readCost_le n
    have hdouble : ∀ (g : Node → Nat) (ns : List Node),
        sumOf (fun n => 2 * g n) ns = 2 * sumOf g ns := by
      intro g ns
      induction ns with
      | nil => rfl
      | cons n ns ih =>
        rw [sumOf_cons, sumOf_cons, ih]
        omega
    rw [sumOf_add, hdouble fun n => n.uses.length, hdouble fun n => n.weight - 1] at hle
    have hweights : sumOf (fun n => n.weight - 1) f.nodes ≤ 2 * f.blocks.size := by
      have := hblocks f.blockList
      rwa [Func.blockList, Table.values, List.length_map] at this
    unfold Func.useCount
    omega
  have hkeys : (f.blocks.keys.filter (· ∉ f.initialFacts.blocks)).length ≤ f.blocks.size := by
    have := List.length_filter_le (fun l => decide (l ∉ f.initialFacts.blocks)) f.blocks.keys
    rwa [Table.keys, List.length_map] at this
  show 1 + 0 + sumOf f.initialFacts.readCost f.nodes + 2
    * (f.blocks.keys.filter (· ∉ f.initialFacts.blocks)).length ≤ _
  unfold Func.searchBound
  omega

end Facts

/-- The search ends with facts that solve the equations of the function. -/
theorem Func.WellFormed.facts_solves {f : Func} (wf : f.WellFormed) : f.facts.Solves f :=
  ((Facts.sound_initial f).search wf).solves (Facts.step_search wf (Facts.sound_initial f)
    (Facts.work_initial f))

end ThreeAddress
