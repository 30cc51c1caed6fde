import ThreeAddress.Proofs.EnterSsa
import ThreeAddress.Proofs.PrintedText
import ThreeAddress.Text.Reader

/-!
# Functions that were read

What reading a text guarantees of each function (`parse_spec`). One that is not in SSA form is fit
for SSA construction: its blocks have different names and end in terminators that lead to blocks
that are there, its predecessor lists follow the terminators, and it has no phis and no versions.
One in SSA form has version counters that know all its versions.
-/

namespace ThreeAddress

variable {s : Label}

theorem Terminator.mem_targets_branch {c : Operand} {t e : Label} :
    s ∈ (Terminator.branch c t e).targets ↔ s = t ∨ s = e := by
  show s ∈ (if t = e then [t] else [t, e]) ↔ _
  split
  · rename_i he
    rw [he, List.mem_singleton, or_self]
  · rw [List.mem_cons, List.mem_singleton]

/-- A terminator mentions the blocks that it leads to. -/
theorem Terminator.mem_labels {t : Terminator} : s ∈ (Node.term t).labels ↔ s ∈ t.targets := by
  cases t with
  | jump l => exact Iff.rfl
  | branch c l r => rw [mem_targets_branch, Node.labels, List.mem_cons, List.mem_singleton]
  | ret v => exact Iff.rfl

namespace Text

variable {rest ts : List Token} {t : FunctionText} {functions : List FunctionText} {p : Program}
  {items : List Item} {f : Func} {mark : Mark} {d : Draft} {fuel : Nat}

/-! ## Statements and the labels they mention -/

/-- A statement comes with the labels that it mentions. -/
def Item.MentionsLabels : Item → Prop
  | .label .. => True
  | .statement node _ targets => targets.map Prod.fst = node.labels

theorem mentions_readKeyword {k : Keyword} {r : (Node × List (Label × Mark)) × List Token}
    (h : readKeyword mark k ts = .ok r) : r.1.2.map Prod.fst = r.1.1.labels := by
  unfold readKeyword at h
  split at h
  · obtain ⟨_, _, h⟩ := bind_eq_ok.1 h
    obtain ⟨_, _, h⟩ := bind_eq_ok.1 h
    obtain ⟨_, _, h⟩ := bind_eq_ok.1 h
    cases h
    rfl
  · obtain ⟨_, _, h⟩ := bind_eq_ok.1 h
    cases h
    rfl
  · obtain ⟨_, _, h⟩ := bind_eq_ok.1 h
    cases h
    rfl
  · obtain ⟨_, _, h⟩ := bind_eq_ok.1 h
    cases h
    rfl
  · obtain ⟨_, _, h⟩ := bind_eq_ok.1 h
    obtain ⟨_, _, h⟩ := bind_eq_ok.1 h
    obtain ⟨_, _, h⟩ := bind_eq_ok.1 h
    obtain ⟨_, _, h⟩ := bind_eq_ok.1 h
    obtain ⟨_, _, h⟩ := bind_eq_ok.1 h
    cases h
    rfl
  · cases h
    rfl
  · obtain ⟨_, _, h⟩ := bind_eq_ok.1 h
    cases h
    rfl
  · cases h

theorem mentions_readRhs {d : Var} {r : (Instr × List (Label × Mark)) × List Token}
    (h : readRhs d ts = .ok r) : r.1.2.map Prod.fst = (Node.instr r.1.1).labels := by
  unfold readRhs at h
  split at h
  · obtain ⟨_, _, h⟩ := bind_eq_ok.1 h
    cases h
    rfl
  · obtain ⟨_, _, h⟩ := bind_eq_ok.1 h
    cases h
    rfl
  · cases h
    rfl
  · obtain ⟨_, _, h⟩ := bind_eq_ok.1 h
    obtain ⟨args, _, h⟩ := bind_eq_ok.1 h
    cases h
    simp [Node.labels, Phi.labels, Function.comp_def]
  · cases h
    rfl
  · obtain ⟨i, hi, h⟩ := bind_eq_ok.1 h
    cases h
    unfold readOperation at hi
    obtain ⟨⟨x, rest⟩, _, hi⟩ := bind_eq_ok.1 hi
    dsimp only at hi
    split at hi
    · obtain ⟨_, _, hi⟩ := bind_eq_ok.1 hi
      cases hi
      rfl
    · cases hi
      rfl
  · obtain ⟨_, _, h⟩ := bind_eq_ok.1 h
    cases h
    rfl

theorem mentions_readItem {item : Item} (h : readItem ts = .ok (item, rest)) :
    item.MentionsLabels := by
  unfold readItem at h
  split at h
  · cases h
  · obtain ⟨_, _, h⟩ := bind_eq_ok.1 h
    cases h
    trivial
  · obtain ⟨r, hr, h⟩ := bind_eq_ok.1 h
    obtain ⟨_, _, h⟩ := bind_eq_ok.1 h
    cases h
    exact mentions_readKeyword hr
  · split at h
    · cases h
    · obtain ⟨_, _, h⟩ := bind_eq_ok.1 h
      obtain ⟨r, hr, h⟩ := bind_eq_ok.1 h
      obtain ⟨_, _, h⟩ := bind_eq_ok.1 h
      cases h
      exact mentions_readRhs hr

/-- What reading one item gives holds of all items that are read. -/
theorem readItems_keeps {P : Item → Prop} {Q : List Token → Prop}
    (tail : ∀ {t ts}, Q (t :: ts) → Q ts)
    (first : ∀ {ts item rest}, Q ts → readItem ts = .ok (item, rest) → P item ∧ Q rest) (h : Q ts)
    (hr : readItems fuel ts = .ok (items, rest)) : (∀ item ∈ items, P item) ∧ Q rest := by
  induction fuel generalizing ts items with
  | zero => cases hr
  | succ fuel ih =>
    unfold readItems at hr
    split at hr
    · cases hr
    · cases hr
      exact ⟨List.forall_mem_nil _, tail h⟩
    · rename_i heq _
      cases heq
      obtain ⟨⟨item, ts₁⟩, hitem, hr⟩ := bind_eq_ok.1 hr
      obtain ⟨⟨more, ts₂⟩, hmore, hr⟩ := bind_eq_ok.1 hr
      cases hr
      obtain ⟨hitem, h₁⟩ := first h hitem
      obtain ⟨hmore, h₂⟩ := ih h₁ hmore
      exact ⟨List.forall_mem_cons.2 ⟨hitem, hmore⟩, h₂⟩

theorem readFunctions_keeps {P : FunctionText → Prop} {Q : List Token → Prop}
    (first : ∀ {ts t rest}, Q ts → readFunction ts = .ok (t, rest) → P t ∧ Q rest) (h : Q ts)
    (hr : readFunctions fuel ts = .ok functions) : ∀ t ∈ functions, P t := by
  induction fuel generalizing ts functions with
  | zero => cases hr
  | succ fuel ih =>
    unfold readFunctions at hr
    split at hr
    · cases hr
    · cases hr
      exact List.forall_mem_nil _
    · rename_i heq _
      cases heq
      obtain ⟨⟨t, ts₁⟩, ht, hr⟩ := bind_eq_ok.1 hr
      obtain ⟨more, hmore, hr⟩ := bind_eq_ok.1 hr
      cases hr
      obtain ⟨ht, h₁⟩ := first h ht
      exact List.forall_mem_cons.2 ⟨ht, ih h₁ hmore⟩

theorem mentions_readFunction (h : readFunction ts = .ok (t, rest)) :
    ∀ item ∈ t.items, item.MentionsLabels := by
  obtain ⟨_, _, h⟩ := bind_eq_ok.1 h
  obtain ⟨_, _, h⟩ := bind_eq_ok.1 h
  obtain ⟨_, _, h⟩ := bind_eq_ok.1 h
  obtain ⟨_, _, h⟩ := bind_eq_ok.1 h
  obtain ⟨_, _, h⟩ := bind_eq_ok.1 h
  obtain ⟨_, _, h⟩ := bind_eq_ok.1 h
  obtain ⟨items, hitems, h⟩ := bind_eq_ok.1 h
  cases h
  exact (readItems_keeps (Q := fun _ => True) id (fun _ hr => ⟨mentions_readItem hr, trivial⟩)
    trivial hitems).1

theorem mentions_readFunctions (h : readFunctions fuel ts = .ok functions) :
    ∀ t ∈ functions, ∀ item ∈ t.items, item.MentionsLabels :=
  readFunctions_keeps (Q := fun _ => True) (fun _ hr => ⟨mentions_readFunction hr, trivial⟩)
    trivial h

/-! ## Drafts -/

/-- What reading keeps: names differ, finished blocks end, and what is led to is mentioned or
there. -/
structure Draft.Sound (mentioned : List Label) (d : Draft) : Prop where
  nodup : d.names.Nodup
  closed : ∀ b ∈ d.finished, b.term ≠ none
  targets : ∀ b ∈ d.blocks, ∀ t, b.term = some t → ∀ s ∈ t.targets, s ∈ mentioned ∨ s ∈ d.names

namespace Draft

variable {mentioned labels : List Label} {d' : Draft} {fin : List Block} {l : Label} {b : Block}

theorem sound_start (mentioned : List Label) : Draft.start.Sound mentioned :=
  ⟨List.nodup_nil, fun _ h => (List.not_mem_nil h).elim, fun _ h => (List.not_mem_nil h).elim⟩

theorem blocks_openBlock (d : Draft) (l : Label) :
    (d.openBlock l).blocks = d.blocks ++ [{ name := l }] := by
  unfold openBlock blocks
  cases d.current with
  | none => simp
  | some b => simp

theorem names_openBlock (d : Draft) (l : Label) : (d.openBlock l).names = d.names ++ [l] := by
  unfold names
  rw [blocks_openBlock, List.map_append]
  rfl

/-- A block is opened once the one before it ends. -/
theorem Sound.openBlock (h : d.Sound mentioned) (hl : l ∉ d.names)
    (hcurrent : ∀ b, d.current = some b → b.term ≠ none) : (d.openBlock l).Sound mentioned where
  nodup := by
    rw [names_openBlock, List.nodup_append]
    refine ⟨h.nodup, List.nodup_singleton l, fun x hx y hy he => hl ?_⟩
    rw [← List.mem_singleton.1 hy, ← he]
    exact hx
  closed b hb := by
    rcases List.mem_append.1 hb with hb | hb
    · exact hcurrent b (Option.mem_toList.1 hb)
    · exact h.closed b hb
  targets b hb t ht s hs := by
    rw [blocks_openBlock, List.mem_append, List.mem_singleton] at hb
    rw [names_openBlock, List.mem_append]
    rcases hb with hb | rfl
    · exact (h.targets b hb t ht s hs).imp_right .inl
    · cases ht

theorem mem_blocks_current {x : Block} : x ∈ (Draft.mk fin (some b)).blocks ↔ x ∈ fin ∨ x = b := by
  simp [blocks]

/-- The current block is changed, but not its name. -/
theorem Sound.replace {b' : Block} (h : (Draft.mk fin (some b)).Sound mentioned)
    (hname : b'.name = b.name)
    (htargets : ∀ t, b'.term = some t → b.term = some t ∨ ∀ s ∈ t.targets, s ∈ mentioned) :
    (Draft.mk fin (some b')).Sound mentioned := by
  have hnames : (Draft.mk fin (some b')).names = (Draft.mk fin (some b)).names := by
    simp [names, blocks, hname]
  refine ⟨hnames ▸ h.nodup, h.closed, fun x hx t ht s hs => ?_⟩
  rw [hnames]
  rcases mem_blocks_current.1 hx with hx | rfl
  · exact h.targets x (mem_blocks_current.2 (.inl hx)) t ht s hs
  · rcases htargets t ht with hsame | hall
    · exact h.targets b (mem_blocks_current.2 (.inr rfl)) t hsame s hs
    · exact .inl (hall s hs)

theorem freshName_not_mem (d : Draft) (labels : List Label) (base : String) :
    d.freshName labels base ∉ d.names :=
  fun h => firstFree_not_mem (numbered_injective base) (List.mem_append_right labels h)

theorem Sound.mention (h : d.Sound mentioned) (l : Label) : d.Sound (l :: mentioned) :=
  ⟨h.nodup, h.closed,
    fun b hb t ht s hs => (h.targets b hb t ht s hs).imp_left (List.mem_cons_of_mem l)⟩

/-- A label that is there need not be mentioned. -/
theorem Sound.unmention (h : d.Sound (l :: mentioned)) (hl : l ∈ d.names) : d.Sound mentioned := by
  refine ⟨h.nodup, h.closed, fun b hb t ht s hs => ?_⟩
  rcases h.targets b hb t ht s hs with hmem | hmem
  · rcases List.mem_cons.1 hmem with rfl | hmem
    · exact .inr hl
    · exact .inl hmem
  · exact .inr hmem

/-- The current block ends, if it had not. -/
theorem Sound.close (h : d.Sound mentioned) {t : Terminator} (ht : ∀ s ∈ t.targets, s ∈ mentioned) :
    (Draft.mk d.finished (d.current.map (closeWith t))).Sound mentioned ∧
      ∀ b, d.current.map (closeWith t) = some b → b.term ≠ none := by
  obtain ⟨fin, current⟩ := d
  cases current with
  | none => exact ⟨h, fun b hb => by cases hb⟩
  | some b =>
    simp only [Option.map_some]
    unfold closeWith
    cases hterm : b.term with
    | none =>
      simp only
      refine ⟨h.replace rfl fun t' ht' => ?_, fun b' hb' => ?_⟩
      · cases ht'
        exact .inr ht
      · cases hb'
        exact Option.some_ne_none t
    | some t' =>
      simp only
      refine ⟨h, fun b' hb' => ?_⟩
      cases hb'
      rw [hterm]
      exact Option.some_ne_none t'

theorem names_close (d : Draft) (t : Terminator) :
    (Draft.mk d.finished (d.current.map (closeWith t))).names = d.names := by
  have hname : ∀ b, (closeWith t b).name = b.name := fun b => by
    unfold closeWith
    split
    · rfl
    · rfl
  unfold names blocks
  cases d.current with
  | none => rfl
  | some b => simp [hname]

section

variable (h : d.Sound mentioned)
include h

theorem Sound.startLabel (hd' : d.startLabel l mark = .ok d') : d'.Sound mentioned := by
  unfold Draft.startLabel at hd'
  split at hd'
  · cases hd'
  · rename_i hl
    cases hd'
    have hjump : ∀ s ∈ (Terminator.jump l).targets, s ∈ l :: mentioned := fun s hs =>
      List.mem_singleton.1 hs ▸ List.mem_cons_self
    obtain ⟨hclose, hends⟩ := (h.mention l).close hjump
    refine (hclose.openBlock ?_ hends).unmention ?_
    · rwa [names_close]
    · rw [names_openBlock]
      exact List.mem_append_right _ (.head _)

/-- A block that a statement can go into. -/
theorem Sound.withOpenBlock (labels : List Label) :
    ∃ fin b, d.withOpenBlock labels = (⟨fin, some b⟩, b) ∧ (Draft.mk fin (some b)).Sound mentioned ∧
      b.term = none := by
  obtain ⟨fin, current⟩ := d
  unfold Draft.withOpenBlock
  cases current with
  | none =>
    refine ⟨fin, _, rfl, ?_, rfl⟩
    exact h.openBlock (freshName_not_mem _ labels "entry") fun b hb => by cases hb
  | some b =>
    simp only
    split
    · rename_i hterm
      refine ⟨_, _, rfl, ?_, rfl⟩
      refine h.openBlock (freshName_not_mem _ labels _) fun b' hb' => ?_
      cases hb'
      exact Option.isSome_iff_ne_none.1 hterm
    · rename_i hterm
      exact ⟨fin, b, rfl, h, Option.not_isSome_iff_eq_none.1 hterm⟩

theorem Sound.addNode {node : Node} (hnode : ∀ t, node = .term t → ∀ s ∈ t.targets, s ∈ mentioned)
    (hd' : d.addNode labels node mark = .ok d') : d'.Sound mentioned := by
  obtain ⟨fin, b, heq, hopen, hterm⟩ := h.withOpenBlock labels
  unfold Draft.addNode at hd'
  rw [heq] at hd'
  cases node with
  | term t =>
    cases hd'
    refine hopen.replace rfl fun t' ht' => .inr ?_
    cases ht'
    exact hnode t rfl
  | instr i =>
    simp only at hd'
    split at hd'
    · cases hd'
    · cases hd'
      exact hopen.replace rfl fun t' ht' => .inl ht'

theorem Sound.addItems (hitems : ∀ item ∈ items, item.MentionsLabels)
    (hmentioned : ∀ l ∈ (mentionedLabels items).map Prod.fst, l ∈ mentioned)
    (hd' : d.addItems labels items = .ok d') : d'.Sound mentioned := by
  induction items generalizing d with
  | nil =>
    cases hd'
    exact h
  | cons item items ih =>
    obtain ⟨d₁, hd₁, hd'⟩ := bind_eq_ok.1 hd'
    have hrest : ∀ l ∈ (mentionedLabels items).map Prod.fst, l ∈ mentioned := fun l hl => by
      refine hmentioned l ?_
      unfold mentionedLabels
      rw [List.flatMap_cons, List.map_append]
      exact List.mem_append_right _ hl
    refine ih ?_ (fun item' h' => hitems item' (.tail _ h')) hrest hd'
    cases item with
    | label l mark => exact h.startLabel hd₁
    | statement node mark targets =>
      refine h.addNode (fun t ht s hs => hmentioned s ?_) hd₁
      unfold mentionedLabels
      rw [List.flatMap_cons, List.map_append]
      refine List.mem_append_left _ ?_
      have hmentions : targets.map Prod.fst = node.labels := hitems _ (.head _)
      rw [hmentions, ht]
      exact Terminator.mem_labels.2 hs

/-- At the end there is a block, and all blocks end. -/
theorem Sound.finish (labels : List Label) :
    (d.finish labels).Sound mentioned ∧ (d.finish labels).blocks ≠ [] ∧
      ∀ b ∈ (d.finish labels).blocks, b.term ≠ none := by
  have hret : ∀ s ∈ (Terminator.ret none).targets, s ∈ mentioned :=
    fun s hs => (List.not_mem_nil hs).elim
  obtain ⟨d₁, hd₁, hsound, b, hb⟩ : ∃ d₁ : Draft,
    d.finish labels = ⟨d₁.finished, d₁.current.map (closeWith (.ret none))⟩ ∧
      d₁.Sound mentioned ∧ ∃ b, d₁.current = some b := by
    unfold Draft.finish
    cases hcurrent : d.current with
    | none =>
      refine ⟨_, rfl, ?_, _, rfl⟩
      exact h.openBlock (freshName_not_mem d labels "entry")
        fun b hb => by rw [hcurrent] at hb; cases hb
    | some b => exact ⟨d, by simp [hcurrent], h, b, hcurrent⟩
  obtain ⟨hclosed, hends⟩ := hsound.close hret
  rw [hd₁]
  refine ⟨hclosed, ?_, fun x hx => ?_⟩
  · rw [hb]
    simp [blocks]
  · rcases List.mem_append.1 hx with hx | hx
    · exact hclosed.closed x (List.mem_reverse.1 hx)
    · exact hends x (Option.mem_toList.1 hx)

end

end Draft

/-! ## Functions -/

/-- Blocks with different names that all end, and lead to each other only. -/
structure Laid (blocks : Table Label Block) : Prop where
  nonempty : blocks.keys ≠ []
  name_eq : ∀ {l b}, blocks.get? l = some b → b.name = l
  closed : ∀ {l b}, blocks.get? l = some b → b.term ≠ none
  targets : ∀ {l b}, blocks.get? l = some b → ∀ s ∈ b.successors, s ∈ blocks

theorem Draft.Sound.laid {mentioned : List Label} (h : d.Sound mentioned) (hne : d.blocks ≠ [])
    (hends : ∀ b ∈ d.blocks, b.term ≠ none)
    (hthere : ∀ l ∈ mentioned, l ∈ Table.ofList (d.blocks.map fun b => (b.name, b))) :
    Laid (Table.ofList (d.blocks.map fun b => (b.name, b))) := by
  have hkeys : (d.blocks.map fun b => (b.name, b)).map Prod.fst = d.names := by
    rw [List.map_map]
    rfl
  have hmem : ∀ {l b}, (Table.ofList (d.blocks.map fun b => (b.name, b))).get? l = some b →
      b ∈ d.blocks ∧ b.name = l := by
    intro l b hb
    obtain ⟨c, hc, heq⟩ := List.mem_map.1 (Table.mem_of_get?_ofList hb)
    cases heq
    exact ⟨hc, rfl⟩
  refine ⟨fun hnil => hne ?_, fun hb => (hmem hb).2, fun hb => hends _ (hmem hb).1,
    fun {l b} hb s hs => ?_⟩
  · rw [Table.keys_ofList (hkeys ▸ h.nodup), hkeys] at hnil
    exact List.map_eq_nil_iff.1 hnil
  · unfold Block.successors at hs
    split at hs
    · rename_i t ht
      rcases h.targets b (hmem hb).1 t ht s hs with hs | hs
      · exact hthere s hs
      · rw [Table.mem_ofList, hkeys]
        exact hs
    · cases hs

/-- A function as it is read, before its form counts. -/
structure Written (f : Func) : Prop where
  params_nodup : f.params.Nodup
  blocks : ∃ blocks, Laid blocks ∧ f.blocks = withPreds blocks ∧
    f.entry = (blocks.keys.head?).getD "entry" ∧
    f.ssa = blocks.values.any fun b => b.nodes.any isSsaNode

/-- The predecessor lists follow the terminators. -/
theorem Laid.preds {blocks : Table Label Block} (laid : Laid blocks) (l : Label) :
    ((blocks.values.filter fun p => decide (l ∈ p.successors)).map (·.name)).Nodup ∧
      ∀ p, p ∈ (blocks.values.filter fun p => decide (l ∈ p.successors)).map (·.name) ↔
        ∃ b, blocks.get? p = some b ∧ l ∈ b.successors := by
  constructor
  · refine blocks.nodup_keys.sublist ?_
    rw [← Table.map_values laid.name_eq]
    exact List.filter_sublist.map _
  · intro p
    rw [List.mem_map]
    constructor
    · rintro ⟨b, hb, rfl⟩
      obtain ⟨hb, hl⟩ := List.mem_filter.1 hb
      obtain ⟨x, hx⟩ := Table.mem_values.1 hb
      rw [← laid.name_eq hx] at hx
      exact ⟨b, hx, of_decide_eq_true hl⟩
    · rintro ⟨b, hb, hl⟩
      exact ⟨b, List.mem_filter.2 ⟨Table.mem_values.2 ⟨p, hb⟩, decide_eq_true hl⟩, laid.name_eq hb⟩

section Written

theorem get?_withPreds (blocks : Table Label Block) (l : Label) :
    (withPreds blocks).get? l = (blocks.get? l).map fun b =>
      { b with preds := (blocks.values.filter fun p => decide (l ∈ p.successors)).map (·.name) } :=
  Table.get?_mapValues _ _ l

theorem Written.wellFormed (h : Written f) (hphi : f.PhiFree) : f.WellFormed := by
  obtain ⟨blocks, laid, hblocks, hentry, _⟩ := h.blocks
  have hget : ∀ {l b}, f.block? l = some b → ∃ c, blocks.get? l = some c ∧ b =
      { c with
        preds := (blocks.values.filter fun p => decide (l ∈ p.successors)).map (·.name) } := by
    intro l b hb
    rw [Func.block?, hblocks, get?_withPreds] at hb
    obtain ⟨c, hc, heq⟩ := Option.map_eq_some_iff.1 hb
    exact ⟨c, hc, heq.symm⟩
  have hmem : ∀ {l}, l ∈ f.blocks ↔ l ∈ blocks := fun {l} => by
    rw [hblocks]
    exact Table.mem_mapValues
  apply Func.wellFormed_of_mem_preds
  · rw [hentry, hmem]
    cases hkeys : blocks.keys with
    | nil => exact absurd hkeys laid.nonempty
    | cons l rest =>
      show l ∈ blocks.keys
      rw [hkeys]
      exact .head _
  · intro l b hb
    obtain ⟨c, hc, rfl⟩ := hget hb
    exact (laid.name_eq hc : c.name = l)
  · intro l b hb
    obtain ⟨c, hc, rfl⟩ := hget hb
    exact (laid.closed hc : c.term ≠ none)
  · intro l b hb s hs
    obtain ⟨c, hc, rfl⟩ := hget hb
    exact hmem.2 (laid.targets hc s hs)
  · intro l b hb
    obtain ⟨c, hc, rfl⟩ := hget hb
    exact (laid.preds l).1
  · intro l b hb p
    obtain ⟨c, hc, rfl⟩ := hget hb
    refine ((laid.preds l).2 p).trans ?_
    constructor
    · rintro ⟨e, he, hl⟩
      have hp := get?_withPreds blocks p
      rw [he, Option.map_some, ← hblocks] at hp
      rw [Func.next_graph hp]
      exact hl
    · intro hl
      obtain ⟨e, he, hl⟩ := Func.block_of_mem_next hl
      obtain ⟨e', he', rfl⟩ := hget he
      exact ⟨e', he', hl⟩
  · exact fun hb => hphi.tidy hb

/-- A function shows no SSA form if it has neither phis nor versions. -/
theorem any_isSsaNode_eq_false : f.nodes.any isSsaNode = false ↔ f.PhiFree ∧ f.Plain := by
  constructor
  · intro h
    have hnode : ∀ n ∈ f.nodes, isSsaNode n = false :=
      fun n hn => Bool.not_eq_true _ ▸ List.any_eq_false.1 h n hn
    have hvars : ∀ n ∈ f.nodes, ∀ v ∈ n.vars, v.version = none := by
      intro n hn v hv
      have hnone := List.any_eq_false.1 (Bool.or_eq_false_iff.1 (hnode n hn)).2 v hv
      exact Option.not_isSome_iff_eq_none.1 hnone
    refine ⟨fun l b hb i hi => ?_, fun n hn => ⟨fun v hv => ?_, fun v hv => ?_⟩⟩
    · have hnone := hnode (.instr i) (Func.mem_nodes_instr.2 ⟨l, b, hb, hi⟩)
      exact (Bool.or_eq_false_iff.1 hnone).1
    · exact hvars n hn v (Node.mem_vars.2 (.inl hv))
    · exact hvars n hn v (Node.mem_vars.2 (.inr hv))
  · rintro ⟨hphi, hplain⟩
    refine List.any_eq_false.2 fun n hn => Bool.not_eq_true _ ▸ Bool.or_eq_false_iff.2 ⟨?_, ?_⟩
    · cases n with
      | instr i =>
        obtain ⟨l, b, hb, hi⟩ := Func.mem_nodes_instr.1 hn
        exact hphi l b hb i hi
      | term t => rfl
    · refine List.any_eq_false.2 fun v hv => Option.not_isSome_iff_eq_none.2 ?_
      rcases Node.mem_vars.1 hv with hv | hv
      · exact (hplain n hn).1 v hv
      · exact (hplain n hn).2 v hv

/-- A function that is not in SSA form has neither phis nor versions. -/
theorem Written.source (h : Written f) (hssa : f.ssa = false) : f.Source := by
  obtain ⟨blocks, laid, hblocks, _, hform⟩ := h.blocks
  have hnodes : f.nodes.any isSsaNode = false := by
    refine List.any_eq_false.2 fun n hn => ?_
    obtain ⟨l, b, hb, hn⟩ := Func.mem_nodes.1 hn
    rw [Func.block?, hblocks, get?_withPreds] at hb
    obtain ⟨c, hc, rfl⟩ := Option.map_eq_some_iff.1 hb
    rw [hssa] at hform
    have hblock := List.any_eq_false.1 hform.symm c (Table.mem_values.2 ⟨l, hc⟩)
    exact List.any_eq_false.1 (Bool.not_eq_true _ ▸ hblock) n hn
  obtain ⟨hphi, hplain⟩ := any_isSsaNode_eq_false.1 hnodes
  exact ⟨h.wellFormed hphi, hphi, hplain, h.params_nodup, hssa⟩

end Written

/-! ## Version counters -/

theorem le_raiseVersion (versions : Table String Int) (v : Var) (x : String) :
    versions.getD x 0 ≤ (raiseVersion versions v).getD x 0 := by
  unfold raiseVersion
  split
  · exact Int.le_refl _
  · rw [Table.getD_insert]
    split
    · rename_i hx
      subst hx
      split
      · omega
      · exact Int.le_refl _
    · exact Int.le_refl _

theorem le_foldl_raiseVersion (vars : List Var) (versions : Table String Int) (x : String) :
    versions.getD x 0 ≤ (vars.foldl raiseVersion versions).getD x 0 := by
  induction vars generalizing versions with
  | nil => exact Int.le_refl _
  | cons v vars ih => exact Int.le_trans (le_raiseVersion versions v x) (ih _)

theorem version_le_foldl {vars : List Var} {v : Var} {n : Int} (hv : v ∈ vars)
    (hn : v.version = some n) (versions : Table String Int) :
    n ≤ (vars.foldl raiseVersion versions).getD v.name 0 := by
  induction vars generalizing versions with
  | nil => cases hv
  | cons w vars ih =>
    rcases List.mem_cons.1 hv with rfl | hv
    · refine Int.le_trans ?_ (le_foldl_raiseVersion vars (raiseVersion versions v) v.name)
      simp only [raiseVersion, hn]
      rw [Table.getD_insert, if_pos rfl]
      split
      · exact Int.le_refl _
      · omega
    · exact ih hv _

/-- Counters know all versions that are mentioned. -/
theorem seedVersions_spec (params : List String) (nodes : List Node) (nodup : params.Nodup) :
    (∀ x, 0 ≤ (seedVersions params nodes).getD x 0) ∧
      ∀ n ∈ nodes, ∀ v ∈ n.vars, ∀ k, v.version = some k →
        k ≤ (seedVersions params nodes).getD v.name 0 := by
  refine ⟨fun x => Int.le_trans ?_ (le_foldl_raiseVersion _ _ x), fun n hn v hv k hk => ?_⟩
  · rw [Table.getD, Table.get?_ofList_map nodup]
    split
    · exact Int.le_refl _
    · exact Int.le_refl _
  · exact version_le_foldl (List.mem_flatMap.2 ⟨n, hn, hv⟩) hk _

/-- What a text in SSA form says is taken over with counters that know its versions. -/
theorem Written.counted {f' : Func} (h : Written f) (hf' : finishSsa f = .ok f') :
    f'.Counted ∧ f'.ssa = f.ssa := by
  unfold finishSsa at hf'
  split at hf'
  · cases hf'
  · cases hf'
    obtain ⟨hnonneg, hbound⟩ :=
      seedVersions_spec f.params (f.mapBlocks fun b => b.mapPhis (alignPhi b.preds)).nodes
      h.params_nodup
    refine ⟨⟨fun x _ => hnonneg x, ?_⟩, rfl⟩
    rintro l v n ⟨b, hb, hv⟩ hn
    obtain ⟨i, hi, hdest⟩ := mem_destsOf.1 hv
    exact hbound (.instr i) (Func.mem_nodes_instr.2 ⟨l, b, hb, hi⟩) v (Node.mem_vars.2 (.inl hdest))
      n hn

/-- What is known of a function that was read. -/
structure Read (f : Func) : Prop where
  source : f.ssa = false → f.Source
  counted : f.ssa = true → f.Counted

/-- The blocks of a body. -/
def Draft.table (d : Draft) : Table Label Block := Table.ofList (d.blocks.map fun b => (b.name, b))

/-- The function with the given blocks, before its form counts. -/
def layOut (name : String) (params : List String) (blocks : Table Label Block) : Func where
  name
  params
  blocks := withPreds blocks
  entry := (blocks.keys.head?).getD "entry"
  ssa := blocks.values.any fun b => b.nodes.any isSsaNode

/-- A text becomes a function: its items are laid out as blocks, all labels are there, and in SSA
form the phis are aligned. -/
theorem buildFunction_eq_ok (hf : buildFunction t = .ok f) :
    t.params.Nodup ∧ ∃ d, Draft.start.addItems (definedLabels t.items) t.items = .ok d ∧
      (∀ l ∈ (mentionedLabels t.items).map Prod.fst, l ∈ (d.finish (definedLabels t.items)).table) ∧
      (if (layOut t.name t.params (d.finish (definedLabels t.items)).table).ssa = true
        then finishSsa (layOut t.name t.params (d.finish (definedLabels t.items)).table)
        else .ok (layOut t.name t.params (d.finish (definedLabels t.items)).table)) = .ok f := by
  unfold buildFunction at hf
  by_cases hparams : t.params.Nodup
  · rw [if_neg (by simpa using hparams)] at hf
    obtain ⟨d, hd, hf⟩ := bind_eq_ok.1 hf
    dsimp only at hf
    split at hf
    · cases hf
    · rename_i hfind
      refine ⟨hparams, d, hd, fun l hl => ?_, hf⟩
      obtain ⟨m, hm, rfl⟩ := List.mem_map.1 hl
      simpa [Draft.table] using List.find?_eq_none.1 hfind m hm
  · rw [if_pos (by simpa using hparams)] at hf
    cases hf

/-- The items of a function are laid out as blocks that all end, and lead to each other only. -/
theorem laid_of_addItems (hitems : ∀ item ∈ t.items, item.MentionsLabels)
    (hd : Draft.start.addItems (definedLabels t.items) t.items = .ok d)
    (hthere : ∀ l ∈ (mentionedLabels t.items).map Prod.fst,
      l ∈ (d.finish (definedLabels t.items)).table) :
    Laid (d.finish (definedLabels t.items)).table := by
  have hitemsSound := (Draft.sound_start _).addItems hitems (fun _ hl => hl) hd
  obtain ⟨hsound, hne, hends⟩ := hitemsSound.finish (definedLabels t.items)
  exact hsound.laid hne hends hthere

/-- The items of a function are read into a function that is well-formed, unless it is in SSA
form. -/
theorem buildFunction_spec (hitems : ∀ item ∈ t.items, item.MentionsLabels)
    (hf : buildFunction t = .ok f) : Read f := by
  obtain ⟨hparams, d, hd, hthere, hf⟩ := buildFunction_eq_ok hf
  have hwritten : Written (layOut t.name t.params (d.finish (definedLabels t.items)).table) :=
    ⟨hparams, _, laid_of_addItems hitems hd hthere, rfl, rfl, rfl⟩
  split at hf
  · rename_i hssa
    obtain ⟨hcounted, hform⟩ := hwritten.counted hf
    exact ⟨fun hno => absurd (hform.trans hssa) (hno ▸ Bool.false_ne_true), fun _ => hcounted⟩
  · rename_i hssa
    cases hf
    exact ⟨fun hno => hwritten.source hno, fun hyes => absurd hyes hssa⟩

/-! ## Programs -/

/-- What holds of each function as it is made holds of the functions of the program, which go by
their names. -/
theorem buildProgram_all {Q : Func → Prop}
    (hQ : ∀ t ∈ functions, ∀ {f}, buildFunction t = .ok f → Q f) {p' : Program}
    (hp : ∀ {key f}, p.function? key = some f → f.name = key ∧ Q f)
    (hp' : buildProgram p functions = .ok p') :
    ∀ {key f}, p'.function? key = some f → f.name = key ∧ Q f := by
  induction functions generalizing p with
  | nil =>
    cases hp'
    exact hp
  | cons t functions ih =>
    obtain ⟨g, hg, hp'⟩ := bind_eq_ok.1 hp'
    split at hp'
    · cases hp'
    · intro key f hf
      refine ih (fun t ht => hQ t (.tail _ ht)) (fun {key f} hf => ?_) hp' hf
      rw [Program.function?, Table.get?_insert] at hf
      split at hf
      · rename_i hkey
        cases hf
        exact ⟨hkey.symm, hQ t (.head _) hg⟩
      · exact hp hf

/-- A text that is read is cut up to its end, and its tokens are read as functions. -/
theorem parse_eq_ok {source : String} (hp : parse source = .ok p) :
    ∃ functions, readSource (lex source.toList).tokens = .ok functions ∧
      buildProgram {} functions = .ok p := by
  unfold parse at hp
  dsimp only at hp
  split at hp
  · cases hp
  · cases hp
  · rename_i functions hread _
    cases hbuild : buildProgram {} functions with
    | error e =>
      rw [hbuild] at hp
      cases hp
    | ok q =>
      rw [hbuild] at hp
      cases hp
      exact ⟨functions, hread, hbuild⟩

/-- A program that was read knows its functions by their names, and each is either plain and
well-formed or in SSA form with counters that know its versions. -/
theorem parse_spec {source : String} (hp : parse source = .ok p) {key : String}
    (hf : p.function? key = some f) : f.name = key ∧ Read f := by
  obtain ⟨functions, hread, hbuild⟩ := parse_eq_ok hp
  refine buildProgram_all (fun t ht {f} => buildFunction_spec (mentions_readFunctions hread t ht))
    (fun {key f} hnone => ?_)
    hbuild hf
  cases hnone

end Text

end ThreeAddress
