import ThreeAddress.Proofs.PrintedItems
import ThreeAddress.Proofs.Reading

/-!
# Reading printed functions

A printed function is read back (`parse_render`) as the function with the same blocks in the order
in which they were printed, with predecessor lists and phi operands in layout order, and with the
form and the version counters that its nodes show (`Func.reread`).
-/

namespace ThreeAddress

open Text

variable {items : List Item} {p : Program} {texts : List FunctionText} {l : Label} {f : Func}

/-- No phi stands behind another instruction. -/
def PhisLead (instrs : List Instr) : Prop := instrs.Pairwise fun i j => j.isPhi = true →
    i.isPhi = true

/-- What a function has to be for its text to be read. -/
structure Func.Printable (f : Func) : Prop where
  spelled : f.Spelled
  params_nodup : f.params.Nodup
  entry_mem : f.entry ∈ f.blocks
  name_eq : ∀ {l b}, f.block? l = some b → b.name = l
  closed : ∀ {l b}, f.block? l = some b → b.term ≠ none
  lead : ∀ {l b}, f.block? l = some b → PhisLead b.instrs
  labels : ∀ {l b}, f.block? l = some b → ∀ n ∈ b.nodes, ∀ x ∈ n.labels, x ∈ f.blocks
  labels_nodup : ∀ {l b}, f.block? l = some b → ∀ φ ∈ b.phis, φ.labels.Nodup

/-- The block as its text shows it. -/
def Block.bare (b : Block) : Block := { b with preds := [] }

/-- The blocks that are read from the text of a function, before they are linked. -/
def Func.printedBlocks (f : Func) : Table Label Block :=
    Table.ofList (f.printOrder.map fun b => (b.name, b.bare))

/-- The function that is read from its text, before its form counts. -/
def Func.unaligned (f : Func) : Func := layOut f.name f.params f.printedBlocks

/-- Puts phi operands into the order of the predecessors and seeds the version counters. -/
def Func.aligned (f : Func) : Func :=
  let g := f.mapBlocks fun b => b.mapPhis (alignPhi b.preds)
  { g with versions := seedVersions g.params g.nodes }

/-- The function that is read from its text. -/
def Func.reread (f : Func) : Func := if f.unaligned.ssa then f.unaligned.aligned else f.unaligned

/-- The program that is read from its text. -/
def Program.reread (p : Program) : Program := ⟨p.functions.mapValues fun _ f => f.reread⟩

/-! ## Blocks from lines -/

namespace Text.Draft

variable {labels : List Label} {d : Draft} {fin : List Block} {b : Block} {t : Terminator}
  {more : List Item} {item : Item}

/-- The block that is being read ends. -/
def Closed (d : Draft) : Prop := ∀ b, d.current = some b → b.term ≠ none

theorem closeWith_of_term (t : Terminator) (h : b.term ≠ none) : closeWith t b = b := by
  unfold closeWith
  split
  · rfl
  · rename_i hnone
    exact absurd hnone h

theorem addItem_instr {i : Instr} (hitem : item.line = .node (.instr i)) (hterm : b.term = none)
    (hlead : PhisLead (b.instrs ++ [i])) :
    addItem labels ⟨fin, some b⟩ item = .ok ⟨fin, some { b with instrs := b.instrs ++ [i] }⟩ := by
  cases item with
  | label l mark => cases hitem
  | statement n mark targets =>
    cases hitem
    have hphi : (i.isPhi && b.instrs.any (!·.isPhi)) = false := by
      rw [Bool.and_eq_false_iff]
      by_cases hi : i.isPhi = true
      · refine .inr (List.any_eq_false.2 fun j hj => ?_)
        have hj' := (List.pairwise_append.1 hlead).2.2 j hj i (.head _) hi
        simp [hj']
      · exact .inl (Bool.not_eq_true _ ▸ hi)
    simp [addItem, addNode, withOpenBlock, hterm, hphi]

theorem addItem_term (hitem : item.line = .node (.term t)) (hterm : b.term = none) :
    addItem labels ⟨fin, some b⟩ item = .ok ⟨fin, some { b with term := some t }⟩ := by
  cases item with
  | label l mark => cases hitem
  | statement n mark targets =>
    cases hitem
    simp [addItem, addNode, withOpenBlock, hterm]

theorem addItem_label (hitem : item.line = .label l) (hclosed : d.Closed) (hl : l ∉ d.names) :
    d.addItem labels item = .ok (d.openBlock l) := by
  cases item with
  | statement n mark targets => cases hitem
  | label l' mark =>
    cases hitem
    have hsame : d.current.map (closeWith (.jump l)) = d.current := by
      cases hcurrent : d.current with
      | none => rfl
      | some b => exact congrArg some (closeWith_of_term _ (hclosed b hcurrent))
    simp [addItem, startLabel, hl, hsame]

/-- The instructions of a block are added to it. -/
theorem addItems_instrs {instrs : List Instr}
    (hitems : items.map Item.line = instrs.map fun i => .node (.instr i)) (hterm : b.term = none)
    (hlead : PhisLead (b.instrs ++ instrs)) :
    addItems labels ⟨fin, some b⟩ (items ++ more)
      = addItems labels ⟨fin, some { b with instrs := b.instrs ++ instrs }⟩ more := by
  induction instrs generalizing items b with
  | nil =>
    rw [List.map_eq_nil_iff.1 hitems, List.append_nil, List.nil_append]
  | cons i instrs ih =>
    obtain ⟨item, items, rfl, hitem, hitems⟩ := List.map_eq_cons_iff.1 hitems
    have hlead' : PhisLead (b.instrs ++ [i] ++ instrs) := by rwa [List.append_assoc]
    rw [List.cons_append, addItems, addItem_instr hitem hterm (List.pairwise_append.1 hlead').1]
    have hrest := ih (b := { b with instrs := b.instrs ++ [i] }) hitems hterm hlead'
    simpa [bind, Except.bind] using hrest

/-- A printed block is read as it is, up to its predecessors. -/
theorem addItems_block (hitems : items.map Item.line = b.source) (hterm : b.term = some t)
    (hlead : PhisLead b.instrs) (hclosed : d.Closed) (hname : b.name ∉ d.names) :
    d.addItems labels (items ++ more) = addItems labels ⟨d.current.toList ++ d.finished,
      some b.bare⟩ more := by
  have hnodes : b.nodes = b.instrs.map .instr ++ [.term t] := by
    rw [Block.nodes, hterm]
    rfl
  rw [Block.source, hnodes, List.map_append, List.map_map] at hitems
  obtain ⟨item, items, rfl, hitem, hitems⟩ := List.map_eq_cons_iff.1 hitems
  obtain ⟨instrs, last, rfl, hinstrs, hlast⟩ := List.map_eq_append_iff.1 hitems
  obtain ⟨last, after, rfl, hline, hafter⟩ := List.map_eq_cons_iff.1 hlast
  cases List.map_eq_nil_iff.1 hafter
  rw [List.cons_append, addItems, addItem_label hitem hclosed hname]
  show addItems labels (d.openBlock b.name) _ = _
  rw [openBlock, List.append_assoc, addItems_instrs (b := { name := b.name }) hinstrs rfl hlead,
    List.singleton_append, addItems, addItem_term hline rfl]
  show addItems labels ⟨_, some _⟩ more = _
  rw [List.nil_append, Block.bare, ← hterm]

/-- Printed blocks are read one after the other. -/
theorem Closed.addItems_blocks (hclosed : d.Closed) (labels : List Label) {blocks : List Block}
    (hitems : items.map Item.line = blocks.flatMap Block.source)
    (hblocks : ∀ b ∈ blocks, b.term ≠ none ∧ PhisLead b.instrs)
    (hnames : (d.names ++ blocks.map (·.name)).Nodup) :
    ∃ d', d.addItems labels items = .ok d' ∧ d'.blocks = d.blocks ++ blocks.map Block.bare ∧
      d'.Closed ∧
      (blocks ≠ [] → d'.current ≠ none) := by
  induction blocks generalizing d items with
  | nil =>
    cases List.map_eq_nil_iff.1 hitems
    exact ⟨d, rfl, (List.append_nil _).symm, hclosed, fun h => absurd rfl h⟩
  | cons b blocks ih =>
    rw [List.flatMap_cons] at hitems
    obtain ⟨first, rest, rfl, hfirst, hrest⟩ := List.map_eq_append_iff.1 hitems
    obtain ⟨hends, hlead⟩ := hblocks b (.head _)
    obtain ⟨t, hterm⟩ := Option.ne_none_iff_exists'.1 hends
    have hname : b.name ∉ d.names := fun hmem =>
      (List.nodup_append.1 hnames).2.2 b.name hmem b.name (.head _) rfl
    have hopened : (Draft.mk (d.current.toList ++ d.finished) (some b.bare)).blocks = d.blocks ++
        [b.bare] := by
      cases hcurrent : d.current with
      | none => simp [Draft.blocks, hcurrent]
      | some c => simp [Draft.blocks, hcurrent]
    have hclosed' : (Draft.mk (d.current.toList ++ d.finished) (some b.bare)).Closed := by
      rintro c ⟨⟩
      exact hends
    have hnames' : ((Draft.mk (d.current.toList ++ d.finished) (some b.bare)).names ++
        blocks.map (·.name)).Nodup := by
      rw [Draft.names, hopened, List.map_append, List.append_assoc]
      exact hnames
    rw [addItems_block hfirst hterm hlead hclosed hname]
    obtain ⟨d', hd', hblocks', hclosed', hsome⟩ :=
      ih hclosed' hrest (fun c hc => hblocks c (.tail _ hc)) hnames'
    refine ⟨d', hd', ?_, hclosed', fun _ => ?_⟩
    · rw [hblocks', hopened, List.append_assoc]
      rfl
    · cases blocks with
      | nil =>
        cases List.map_eq_nil_iff.1 hrest
        cases hd'
        exact Option.some_ne_none _
      | cons c blocks => exact hsome (List.cons_ne_nil _ _)

theorem finish_of_closed (hclosed : d.Closed) (hsome : d.current ≠ none) : d.finish labels = d := by
  obtain ⟨fin, current⟩ := d
  cases current with
  | none => exact absurd rfl hsome
  | some b =>
    have hb := closeWith_of_term (.ret none) (hclosed b rfl)
    simp [finish, hb]

end Text.Draft

/-! ## Functions -/

namespace Func

theorem Printable.names_printOrder (h : f.Printable) : (f.printOrder.map (·.name)).Nodup := by
  obtain ⟨b, hb⟩ := exists_block.1 h.entry_mem
  have hrest : ((f.blocks.erase f.entry).values.map (·.name)) = (f.blocks.erase f.entry).keys := by
    refine Table.map_values fun {l c} hc => ?_
    rw [Table.get?_erase] at hc
    split at hc
    · cases hc
    · exact h.name_eq hc
  rw [printOrder, hb, List.map_append, hrest, Option.toList_some, List.map_singleton, h.name_eq hb,
    List.singleton_append, List.nodup_cons]
  refine ⟨fun hmem => ?_, Table.nodup_keys _⟩
  rw [Table.keys_erase, List.mem_filter] at hmem
  simp at hmem

/-- The blocks keep their names and order. -/
theorem Printable.entries_printedBlocks (h : f.Printable) :
    f.printedBlocks.entries = f.printOrder.map fun b => (b.name, b.bare) := by
  refine Table.ofList_entries ?_
  rw [List.map_map]
  exact h.names_printOrder

theorem Printable.get?_printedBlocks (h : f.Printable) (l : Label) :
    f.printedBlocks.get? l = (f.block? l).map Block.bare := by
  refine Option.ext fun b => ?_
  rw [Table.get?_eq_some_iff, h.entries_printedBlocks, Option.map_eq_some_iff, List.mem_map]
  constructor
  · rintro ⟨c, hc, heq⟩
    obtain ⟨x, hx⟩ := Func.mem_printOrder.1 hc
    cases heq
    exact ⟨c, h.name_eq hx ▸ hx, rfl⟩
  · rintro ⟨c, hc, rfl⟩
    exact ⟨c, Func.mem_printOrder.2 ⟨l, hc⟩, by rw [h.name_eq hc]⟩

theorem Printable.mem_printedBlocks (h : f.Printable) : l ∈ f.printedBlocks ↔ l ∈ f.blocks := by
  rw [Table.mem_iff_get?, exists_block, h.get?_printedBlocks]
  simp

end Func

/-- The labels that lines mention are those of their nodes. -/
theorem mem_mentionedLabels (hmentions : ∀ item ∈ items, item.MentionsLabels)
    (hl : l ∈ (mentionedLabels items).map Prod.fst) :
    ∃ n, .node n ∈ items.map Item.line ∧ l ∈ n.labels := by
  obtain ⟨m, hm, rfl⟩ := List.mem_map.1 hl
  obtain ⟨item, hitem, hm⟩ := List.mem_flatMap.1 hm
  cases item with
  | label l mark => cases hm
  | statement n mark targets =>
    refine ⟨n, List.mem_map.2 ⟨_, hitem, rfl⟩, ?_⟩
    have heq : targets.map Prod.fst = n.labels := hmentions _ hitem
    rw [← heq]
    exact List.mem_map_of_mem hm

theorem finishSsa_eq (h : ∀ {l b}, f.block? l = some b → ∀ φ ∈ b.phis, φ.labels.Nodup) :
    finishSsa f = .ok f.aligned := by
  have hnone : (f.blockList.findSome? fun b => (repeatedIn? b).map fun φ => (φ, b)) = none := by
    rw [List.findSome?_eq_none_iff]
    intro b hb
    obtain ⟨l, hl⟩ := Table.mem_values.1 hb
    rw [Option.map_eq_none_iff, repeatedIn?, List.find?_eq_none]
    intro φ hφ
    simpa using h hl φ hφ
  unfold finishSsa
  rw [hnone]
  rfl

/-- The text of a function is made into the function again. -/
theorem buildFunction_reread (h : f.Printable) {t : FunctionText} (ht : t.Shows f)
    (hmentions : ∀ item ∈ t.items, item.MentionsLabels) : buildFunction t = .ok f.reread := by
  have hblocks : ∀ b ∈ f.printOrder, b.term ≠ none ∧ PhisLead b.instrs := fun b hb =>
    let ⟨_, hl⟩ := Func.mem_printOrder.1 hb
    ⟨h.closed hl, h.lead hl⟩
  have hne : f.printOrder ≠ [] := by
    obtain ⟨b, hb⟩ := Func.exists_block.1 h.entry_mem
    exact List.ne_nil_of_mem (Func.mem_printOrder.2 ⟨_, hb⟩)
  have hstart : Draft.start.Closed := by rintro b ⟨⟩
  obtain ⟨d, hd, hread, hclosed, hsome⟩ :=
    hstart.addItems_blocks (definedLabels t.items) ht.items hblocks h.names_printOrder
  have hbody : (d.finish (definedLabels t.items)).blocks = f.printOrder.map Block.bare := by
    rw [Draft.finish_of_closed hclosed (hsome hne), hread]
    rfl
  have htable : Table.ofList ((f.printOrder.map Block.bare).map fun b => (b.name, b))
      = f.printedBlocks := by
    rw [List.map_map]
    rfl
  -- Every label that is mentioned is there.
  have hfind : ((mentionedLabels t.items).find? fun l => decide (l.1 ∉ f.printedBlocks))
      = none := by
    rw [List.find?_eq_none]
    intro m hm
    obtain ⟨n, hn, hl⟩ := mem_mentionedLabels hmentions (List.mem_map_of_mem hm)
    rw [ht.items] at hn
    obtain ⟨b, hb, hn⟩ := List.mem_flatMap.1 hn
    obtain ⟨l, hl'⟩ := Func.mem_printOrder.1 hb
    rcases List.mem_cons.1 hn with hn | hn
    · cases hn
    · obtain ⟨n', hn', heq⟩ := List.mem_map.1 hn
      cases heq
      simpa using h.mem_printedBlocks.2 (h.labels hl' n hn' _ hl)
  have hphis : ∀ {l b}, f.unaligned.block? l = some b → ∀ φ ∈ b.phis, φ.labels.Nodup := by
    intro l b hb
    have hget : (withPreds f.printedBlocks).get? l = some b := hb
    rw [get?_withPreds, h.get?_printedBlocks] at hget
    obtain ⟨c, hc, rfl⟩ := Option.map_eq_some_iff.1 hget
    obtain ⟨e, he, rfl⟩ := Option.map_eq_some_iff.1 hc
    exact fun φ hφ => h.labels_nodup he φ hφ
  unfold buildFunction
  rw [ht.params, if_neg (by simpa using h.params_nodup)]
  simp only [hd, hbody, htable, hfind, bind, Except.bind, ht.name]
  unfold Func.reread
  show (if f.unaligned.ssa = true then finishSsa f.unaligned else .ok f.unaligned) = _
  rw [finishSsa_eq hphis]
  split
  · rfl
  · rfl

/-! ## Aligned phis -/

section AlignPhi

variable {preds : List Label} {φ : Phi}

theorem mem_alignPhi {a : PhiArg} (h : a ∈ (alignPhi preds φ).incoming) : a ∈ φ.incoming := by
  rcases List.mem_append.1 h with h | h
  · obtain ⟨p, _, hp⟩ := List.mem_filterMap.1 h
    exact List.mem_of_find?_eq_some hp
  · exact List.mem_of_mem_filter h

/-- The operand for a predecessor stays the first one for it. -/
theorem find?_alignPhi {p : Label} (hp : p ∈ preds) :
    (alignPhi preds φ).incoming.find? (·.block = p) = φ.incoming.find? (·.block = p) := by
  have hfound : ∀ a ∈ preds.filterMap fun p => φ.incoming.find? (·.block = p),
      φ.incoming.find? (·.block = a.block) = some a := by
    intro a ha
    obtain ⟨q, _, hq⟩ := List.mem_filterMap.1 ha
    have hblock : a.block = q := by simpa using List.find?_some hq
    rw [hblock]
    exact hq
  show ((preds.filterMap _ ++ φ.incoming.filter _).find? _ : Option PhiArg) = _
  rw [List.find?_append]
  cases hin : φ.incoming.find? (·.block = p) with
  | none =>
    have hnone : ∀ a ∈ φ.incoming, a.block ≠ p :=
      fun a ha => by simpa using List.find?_eq_none.1 hin a ha
    rw [List.find?_eq_none.2, List.find?_eq_none.2]
    · rfl
    · exact fun a ha => by simpa using hnone a (List.mem_of_mem_filter ha)
    · exact fun a ha => by simpa using hnone a (List.mem_of_find?_eq_some (hfound a ha))
  | some a =>
    have hmem : a ∈ preds.filterMap fun p => φ.incoming.find? (·.block = p) :=
      List.mem_filterMap.2 ⟨p, hp, hin⟩
    cases hfirst : (preds.filterMap fun p => φ.incoming.find? (·.block = p)).find?
      (·.block = p) with
    | none =>
      have hblock : a.block = p := by simpa using List.find?_some hin
      exact absurd hblock (by simpa using List.find?_eq_none.1 hfirst a hmem)
    | some a' =>
      have hblock : a'.block = p := by simpa using List.find?_some hfirst
      have ha' := hfound a' (List.mem_of_find?_eq_some hfirst)
      rw [hblock, hin] at ha'
      exact ha'.symm

theorem alignPhi_alignPhi : alignPhi preds (alignPhi preds φ) = alignPhi preds φ := by
  have hfirst : (preds.filterMap fun p => (alignPhi preds φ).incoming.find? (·.block = p))
      = preds.filterMap fun p => φ.incoming.find? (·.block = p) :=
    List.filterMap_congr fun p hp => find?_alignPhi hp
  have hrest : (alignPhi preds φ).incoming.filter (·.block ∉ preds)
      = φ.incoming.filter (·.block ∉ preds) := by
    show (preds.filterMap _ ++ φ.incoming.filter _).filter _ = _
    rw [List.filter_append, List.filter_filter]
    have hnone : (preds.filterMap fun p => φ.incoming.find? (·.block = p)).filter (·.block ∉ preds)
        = [] := by
      refine List.filter_eq_nil_iff.2 fun a ha => ?_
      obtain ⟨p, hp, ha⟩ := List.mem_filterMap.1 ha
      have hblock : a.block = p := by simpa using List.find?_some ha
      simpa [hblock] using hp
    rw [hnone, List.nil_append]
    simp
  show Phi.mk φ.dest (_ ++ _) = Phi.mk φ.dest (_ ++ _)
  rw [hfirst, hrest]

theorem labels_alignPhi_nodup (hpreds : preds.Nodup) (h : φ.labels.Nodup) :
    (alignPhi preds φ).labels.Nodup := by
  have hfirst : ((preds.filterMap fun p => φ.incoming.find? (·.block = p)).map (·.block)).Sublist
      preds := by
    clear hpreds
    induction preds with
    | nil => exact .slnil
    | cons p preds ih =>
      cases hp : φ.incoming.find? (·.block = p) with
      | none => simpa [hp] using ih.cons p
      | some a =>
        have hblock : a.block = p := by simpa using List.find?_some hp
        simpa [hp, hblock] using ih.cons_cons p
  have hrest : ((φ.incoming.filter (·.block ∉ preds)).map (·.block)).Nodup :=
    h.sublist (List.filter_sublist.map _)
  rw [Phi.labels, alignPhi, List.map_append, List.nodup_append]
  refine ⟨hpreds.sublist hfirst, hrest, fun a ha b hb => ?_⟩
  rintro rfl
  obtain ⟨c, hc, rfl⟩ := List.mem_map.1 hb
  exact of_decide_eq_true (List.mem_filter.1 hc).2 (hfirst.subset ha)

end AlignPhi

/-! ## The blocks that are read -/

namespace Func

/-- Where the entry comes first, blocks are printed in layout order. -/
theorem printOrder_of_first (h : f.blocks.keys.head? = some f.entry) :
    f.printOrder = f.blockList := by
  obtain ⟨rest, hkeys⟩ := List.head?_eq_some_iff.1 h
  obtain ⟨e, rest', hentries, he, _⟩ :=
    List.map_eq_cons_iff.1 (hkeys : f.blocks.entries.map Prod.fst = _)
  have hnodup := f.blocks.nodup_keys
  rw [Table.keys, hentries, List.map_cons, List.nodup_cons] at hnodup
  have hfirst : f.block? f.entry = some e.2 := by
    rw [Func.block?, Table.get?_eq_some_iff, hentries, ← he]
    exact .head _
  have herase : (f.blocks.erase f.entry).entries = rest' := by
    show f.blocks.entries.filter _ = _
    rw [hentries, List.filter_cons_of_neg (by simpa using he)]
    refine List.filter_eq_self.2 fun x hx => ?_
    simp only [decide_eq_true_eq]
    intro heq
    exact hnodup.1 (he ▸ heq ▸ List.mem_map_of_mem hx)
  rw [printOrder, hfirst, blockList, Table.values, Table.values, herase, hentries]
  rfl

/-- Which blocks lead to a block shows in names and terminators. -/
theorem sources_map {ι : Type} (entries : List ι) {g h : ι → Block}
    (hname : ∀ e, (g e).name = (h e).name) (hterm : ∀ e, (g e).term = (h e).term) (l : Label) :
    ((entries.map g).filter fun p => decide (l ∈ p.successors)).map (·.name)
      = ((entries.map h).filter fun p => decide (l ∈ p.successors)).map (·.name) := by
  have hsucc : ∀ e, (g e).successors = (h e).successors := fun e => by rw [Block.successors, hterm,
    Block.successors]
  induction entries with
  | nil => rfl
  | cons e entries ih =>
    rw [List.map_cons, List.map_cons, List.filter_cons, List.filter_cons, hsucc]
    split
    · rw [List.map_cons, List.map_cons, hname, ih]
    · exact ih

/-- The blocks that lead to a block, in layout order. -/
def sources (f : Func) (l : Label) : List Label :=
  (f.blockList.filter fun p => decide (l ∈ p.successors)).map (·.name)

theorem Printable.values_printedBlocks (h : f.Printable)
    (hfirst : f.blocks.keys.head? = some f.entry) :
    f.printedBlocks.values = f.blockList.map Block.bare := by
  rw [Table.values, h.entries_printedBlocks, List.map_map, printOrder_of_first hfirst]
  rfl

theorem Printable.keys_unaligned (h : f.Printable) (hfirst : f.blocks.keys.head? = some f.entry) :
    f.unaligned.blocks.keys = f.blocks.keys := by
  refine (Table.keys_mapValues _ _).trans ?_
  rw [Table.keys, h.entries_printedBlocks, List.map_map, printOrder_of_first hfirst]
  exact Table.map_values h.name_eq

theorem Printable.block?_unaligned (h : f.Printable) (hfirst : f.blocks.keys.head? = some f.entry)
    (l : Label) :
    f.unaligned.block? l = (f.block? l).map fun b => { b with preds := f.sources l } := by
  have hsame := sources_map f.blockList (g := Block.bare) (h := id) (fun _ => rfl) (fun _ => rfl) l
  rw [List.map_id] at hsame
  show (withPreds f.printedBlocks).get? l = _
  rw [get?_withPreds, h.get?_printedBlocks, h.values_printedBlocks hfirst, hsame, Option.map_map]
  rfl

theorem Printable.entry_unaligned (h : f.Printable) (hfirst : f.blocks.keys.head? = some f.entry) :
    f.unaligned.entry = f.entry := by
  have hkeys : f.printedBlocks.keys = f.blocks.keys :=
    (Table.keys_mapValues _ _).symm.trans (h.keys_unaligned hfirst)
  show (f.printedBlocks.keys.head?).getD "entry" = f.entry
  rw [hkeys, hfirst]
  rfl

theorem Printable.ssa_unaligned (h : f.Printable) (hfirst : f.blocks.keys.head? = some f.entry) :
    f.unaligned.ssa = f.nodes.any isSsaNode := by
  show (f.printedBlocks.values.any fun b => b.nodes.any isSsaNode) = _
  rw [h.values_printedBlocks hfirst, Func.nodes, List.any_flatMap, List.any_map]
  rfl

end Func

/-! ## Programs -/

theorem Func.name_reread (f : Func) : f.reread.name = f.name := by
  unfold Func.reread
  split
  · rfl
  · rfl

theorem buildProgram_reread {fs : List Func} (hshow : List.Forall₂ FunctionText.Shows texts fs)
    (hmentions : ∀ t ∈ texts, ∀ item ∈ t.items, item.MentionsLabels)
    (hprintable : ∀ f ∈ fs, f.Printable) (hnames : (p.functions.keys ++ fs.map (·.name)).Nodup) :
    ∃ q, buildProgram p texts = .ok q ∧ q.functions.entries = p.functions.entries ++
      fs.map fun f => (f.name, f.reread) := by
  induction hshow generalizing p with
  | nil => exact ⟨p, rfl, (List.append_nil _).symm⟩
  | @cons t f texts fs ht _ ih =>
    have hf := buildFunction_reread (hprintable f (.head _)) ht (hmentions t (.head _))
    have hnew : f.name ∉ p.functions.keys := fun hmem =>
      (List.nodup_append.1 hnames).2.2 f.name hmem f.name (.head _) rfl
    have hentries : (p.functions.insert f.name f.reread).entries = p.functions.entries ++
        [(f.name, f.reread)] :=
      Table.put_eq_append hnew
    obtain ⟨q, hq, heq⟩ := ih (p := ⟨p.functions.insert f.name f.reread⟩)
      (fun t ht => hmentions t (.tail _ ht)) (fun g hg => hprintable g (.tail _ hg)) (by
        rw [Table.keys, hentries, List.map_append, List.append_assoc]
        exact hnames)
    refine ⟨q, ?_, ?_⟩
    · rw [buildProgram, hf]
      simp only [bind, Except.bind, Func.name_reread]
      rw [if_neg (show f.name ∉ p.functions from hnew)]
      exact hq
    · rw [heq, hentries, List.append_assoc]
      rfl

/-- The functions of the program can be read from their texts, and go by their names. -/
def Program.Printable (p : Program) : Prop :=
  ∀ {key f}, p.function? key = some f → f.name = key ∧ f.Printable

theorem parse_of_lexes {source : String} {ts : List Token} (h : Lexes source.toList ts)
    (htexts : readSource ts = .ok texts) (hp : buildProgram {} texts = .ok p) :
    parse source = .ok p := by
  unfold parse
  dsimp only
  rw [h.tokens, htexts, h.complete]
  show Except.mapError _ (buildProgram {} texts) = _
  rw [hp]
  rfl

/-- What is printed is read. -/
theorem Program.Printable.parse_render (h : p.Printable) (showPreds : Bool) :
    parse (p.render showPreds) = .ok p.reread := by
  have hvalues : ∀ f ∈ p.functions.values, f.Printable := fun f hf =>
    let ⟨_, hkey⟩ := Table.mem_values.1 hf
    (h hkey).2
  have hlexes := lexes_render (fun f hf => (hvalues f hf).spelled) showPreds
  obtain ⟨texts, htexts, hshow⟩ := readSource_tokens fun f hf => (hvalues f hf).spelled
  have hkeys : p.functions.values.map (·.name) = p.functions.keys := Table.map_values fun hkey =>
    (h hkey).1
  obtain ⟨q, hq, hentries⟩ := buildProgram_reread hshow (mentions_readFunctions htexts) hvalues
    (p := {}) (hkeys ▸ p.functions.nodup_keys)
  have hsame : q = p.reread := by
    refine congrArg Program.mk (Table.ext_entries (hentries.trans ?_))
    show List.map _ (List.map Prod.snd p.functions.entries) = List.map _ p.functions.entries
    rw [List.map_map]
    refine List.map_congr_left fun e he => ?_
    exact Prod.ext (h (Table.get?_eq_some_iff.2 he)).1 rfl
  rw [parse_of_lexes hlexes htexts hq, hsame]

/-- A program whose functions have their entries can be printed. -/
theorem Program.print_eq (h : ∀ f ∈ p.functions.values, f.entry ∈ f.blocks) (showPreds : Bool) :
    p.print showPreds = .ok (p.render showPreds) := by
  have hall : (p.functions.values.forM fun f =>
      discard (f.recallBlock f.entry) : Except Fault PUnit) = .ok ⟨⟩ := by
    generalize p.functions.values = fs at h
    induction fs with
    | nil => rfl
    | cons f fs ih =>
      obtain ⟨b, hb⟩ := Func.exists_block.1 (h f (.head _))
      have hrecall : f.recallBlock f.entry = .ok b := by rw [Func.recallBlock, hb]
      show (discard (f.recallBlock f.entry) >>= fun _ => fs.forM _) = _
      rw [hrecall]
      exact ih fun g hg => h g (.tail _ hg)
  unfold Program.print
  rw [hall]
  rfl

theorem Program.Printable.print_eq (h : p.Printable) (showPreds : Bool) :
    p.print showPreds = .ok (p.render showPreds) := by
  refine Program.print_eq (fun f hf => ?_) showPreds
  obtain ⟨key, hkey⟩ := Table.mem_values.1 hf
  exact (h hkey).2.entry_mem

end ThreeAddress
