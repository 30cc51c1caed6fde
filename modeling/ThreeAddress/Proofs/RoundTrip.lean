import Mathlib
import ThreeAddress.Proofs.SpelledTexts

/-!
# Printing and reading again

A function that was read is laid out as reading lays functions out (`Func.LaidOut`): the entry comes
first, predecessors and phi operands stand in layout order, and form and version counters are those
that its nodes show. Such a function is read from its text as it is, so printing and reading is the
identity on programs that were read (`parse_print`).
-/

namespace ThreeAddress

open Text

variable {f : Func}

/-! ## Aligned functions -/

theorem map_isPhi_mapLeadingPhis (g : Phi → Phi) (instrs : List Instr) :
    (mapLeadingPhis g instrs).map Instr.isPhi = instrs.map Instr.isPhi := by
  induction instrs with
  | nil => rfl
  | cons j instrs ih =>
    cases j with
    | phi φ => exact congrArg (true :: ·) ih
    | _ => rfl

theorem PhisLead.mapLeadingPhis {instrs : List Instr} (h : PhisLead instrs) (g : Phi → Phi) :
    PhisLead (mapLeadingPhis g instrs) := by
  have hkinds : (instrs.map Instr.isPhi).Pairwise fun a b => b = true → a = true :=
    List.pairwise_map.2 h
  rw [← map_isPhi_mapLeadingPhis g instrs] at hkinds
  exact List.pairwise_map.1 hkinds

/-- Whether a block shows SSA form does not depend on the operands of its phis. -/
theorem any_isSsaNode_mapPhis (g : Phi → Phi) (b : Block) :
    (b.mapPhis g).nodes.any isSsaNode = b.nodes.any isSsaNode := by
  have hinstrs : ((mapLeadingPhis g b.instrs).map Node.instr).any isSsaNode
      = (b.instrs.map Node.instr).any isSsaNode := by
    generalize b.instrs = instrs
    induction instrs with
    | nil => rfl
    | cons j instrs ih =>
      cases j with
      | phi φ => rfl
      | _ => rfl
  simp only [Block.nodes, Block.mapPhis, List.any_append, hinstrs]

theorem Node.Spelled.alignPhi {φ : Phi} (h : (Node.instr (.phi φ)).Spelled) (preds : List Label) :
    (Node.instr (.phi (alignPhi preds φ))).Spelled := by
  refine Node.spelled_of (fun d hd => h.dest hd) (fun x hx => ?_) (fun l hl => ?_)
    (List.forall_mem_nil _)
  · obtain ⟨a, ha, rfl⟩ := List.mem_map.1 hx
    exact h.operand (List.mem_map_of_mem (mem_alignPhi ha))
  · obtain ⟨a, ha, rfl⟩ := List.mem_map.1 hl
    exact h.labels _ (List.mem_map_of_mem (mem_alignPhi ha))

namespace Func

variable {l : Label} {b b' : Block}

theorem of_block?_aligned (h : f.aligned.block? l = some b') :
    ∃ b, f.block? l = some b ∧ b' = b.mapPhis (alignPhi b.preds) := by
  obtain ⟨b, hb, heq⟩ := Option.map_eq_some_iff.1 ((Table.get?_mapValues _ _ l).symm.trans h)
  exact ⟨b, hb, heq.symm⟩

/-- A node of an aligned block is one of the block before, up to the order of phi operands. -/
theorem mem_nodes_mapPhis {g : Phi → Phi} {n : Node} (h : n ∈ (b.mapPhis g).nodes) :
    n ∈ b.nodes ∨ ∃ φ ∈ b.phis, n = .instr (.phi (g φ)) := by
  rcases List.mem_append.1 h with h | h
  · obtain ⟨i, hi, rfl⟩ := List.mem_map.1 h
    rcases mem_mapLeadingPhis hi with hi | ⟨φ, hφ, rfl⟩
    · exact .inl (List.mem_append_left _ (List.mem_map_of_mem hi))
    · exact .inr ⟨φ, hφ, rfl⟩
  · exact .inl (List.mem_append_right _ h)

theorem Printable.aligned (h : f.Printable)
    (hpreds : ∀ {l b}, f.block? l = some b → b.preds.Nodup) : f.aligned.Printable := by
  have hmem : ∀ {l}, l ∈ f.aligned.blocks ↔ l ∈ f.blocks := Table.mem_mapValues
  have hphi : ∀ {l b φ}, f.block? l = some b → φ ∈ b.phis → .instr (.phi φ) ∈ b.nodes :=
    fun hb hφ =>
    List.mem_append_left _ (List.mem_map_of_mem (phi_mem_of_leading hφ))
  refine
    { spelled := ⟨h.spelled.name, h.spelled.params, fun hb' => ?_⟩
      params_nodup := h.params_nodup
      entry_mem := hmem.2 h.entry_mem
      name_eq := fun hb' => ?_
      closed := fun hb' => ?_
      lead := fun hb' => ?_
      labels := fun hb' n hn l hl => ?_
      labels_nodup := fun hb' φ hφ => ?_ }
  · obtain ⟨b, hb, rfl⟩ := of_block?_aligned hb'
    refine ⟨(h.spelled.blocks hb).name, fun n hn => ?_, (h.spelled.blocks hb).preds⟩
    rcases mem_nodes_mapPhis hn with hn | ⟨φ, hφ, rfl⟩
    · exact (h.spelled.blocks hb).nodes n hn
    · exact ((h.spelled.blocks hb).nodes _ (hphi hb hφ)).alignPhi _
  · obtain ⟨b, hb, rfl⟩ := of_block?_aligned hb'
    exact (h.name_eq hb : b.name = _)
  · obtain ⟨b, hb, rfl⟩ := of_block?_aligned hb'
    exact (h.closed hb : b.term ≠ none)
  · obtain ⟨b, hb, rfl⟩ := of_block?_aligned hb'
    exact (h.lead hb).mapLeadingPhis _
  · obtain ⟨b, hb, rfl⟩ := of_block?_aligned hb'
    rw [hmem]
    rcases mem_nodes_mapPhis hn with hn | ⟨φ, hφ, rfl⟩
    · exact h.labels hb n hn l hl
    · obtain ⟨a, ha, rfl⟩ := List.mem_map.1 hl
      exact h.labels hb _ (hphi hb hφ) _ (List.mem_map_of_mem (mem_alignPhi ha))
  · obtain ⟨b, hb, rfl⟩ := of_block?_aligned hb'
    rw [Block.phis, Block.mapPhis, leadingPhis_mapLeadingPhis] at hφ
    obtain ⟨ψ, hψ, rfl⟩ := List.mem_map.1 hφ
    exact labels_alignPhi_nodup (hpreds hb) (h.labels_nodup hb ψ hψ)

/-! ## Functions in the layout of their text -/

/-- The function is laid out as reading lays functions out. -/
structure LaidOut (f : Func) : Prop where
  entry_first : f.blocks.keys.head? = some f.entry
  preds : ∀ {l b}, f.block? l = some b → b.preds = f.sources l
  aligned : ∀ {l b}, f.block? l = some b → ∀ φ ∈ b.phis, alignPhi b.preds φ = φ
  ssa : f.ssa = f.nodes.any isSsaNode
  versions : f.versions = if f.ssa = true then seedVersions f.params f.nodes else .empty

theorem Printable.unaligned_eq (h : f.Printable) (hl : f.LaidOut) :
    f.unaligned = { f with versions := .empty } := by
  have hblocks : f.unaligned.blocks = f.blocks := by
    refine Table.ext_of_keys (h.keys_unaligned hl.entry_first) fun l _ => ?_
    show f.unaligned.block? l = f.block? l
    rw [h.block?_unaligned hl.entry_first]
    cases hb : f.block? l with
    | none => rfl
    | some b => rw [Option.map_some, ← hl.preds hb]
  have hentry := h.entry_unaligned hl.entry_first
  have hssa := (h.ssa_unaligned hl.entry_first).trans hl.ssa.symm
  calc f.unaligned
      = { name := f.name, params := f.params, blocks := f.unaligned.blocks,
          entry := f.unaligned.entry,
          ssa := f.unaligned.ssa } := rfl
    _ =
      { name := f.name, params := f.params, blocks := f.blocks, entry := f.entry,
        ssa := f.ssa } := by
      rw [hblocks, hentry, hssa]

/-- A function that is laid out as reading lays functions out is read from its text as it is. -/
theorem Printable.reread_eq (h : f.Printable) (hl : f.LaidOut) : f.reread = f := by
  have hversions := hl.versions
  unfold Func.reread
  rw [h.unaligned_eq hl]
  dsimp only
  split
  · rename_i hssa
    rw [if_pos hssa] at hversions
    have hblocks : (f.blocks.mapValues fun _ b => b.mapPhis (alignPhi b.preds)) = f.blocks := by
      refine Table.ext_of_keys (Table.keys_mapValues _ _) fun l _ => ?_
      rw [Table.get?_mapValues]
      show (f.block? l).map _ = f.block? l
      cases hb : f.block? l with
      | none => rfl
      | some b =>
        have hphis : mapLeadingPhis (alignPhi b.preds) b.instrs = b.instrs :=
          (mapLeadingPhis_congr (hl.aligned hb)).trans (mapLeadingPhis_id _)
        rw [Option.map_some, Block.mapPhis, hphis]
    have hmap : ({ f with versions := .empty } : Func).mapBlocks
        (fun b => b.mapPhis (alignPhi b.preds))
        = { f with versions := .empty } := by
      rw [Func.mapBlocks, hblocks]
    unfold Func.aligned
    rw [hmap]
    show { f with versions := seedVersions f.params f.nodes } = f
    rw [← hversions]
  · rename_i hssa
    rw [if_neg hssa] at hversions
    rw [← hversions]

/-! ## Functions that were read -/

section LayOut

variable {name : String} {params : List String} {blocks : Table Label Block}
  {g : Label → Block → Block}

theorem of_block?_layOut (h : (layOut name params blocks).block? l = some b') :
    ∃ b, blocks.get? l = some b ∧
      b' = { b with
        preds := (blocks.values.filter fun p => decide (l ∈ p.successors)).map (·.name) } := by
  have hget := (get?_withPreds blocks l).symm.trans h
  obtain ⟨b, hb, heq⟩ := Option.map_eq_some_iff.1 hget
  exact ⟨b, hb, heq.symm⟩

theorem printable_layOut (laid : Laid blocks) {mentioned : List Label}
    (clean : ∀ {l b}, blocks.get? l = some b → b.Clean mentioned)
    (hmentioned : ∀ l ∈ mentioned, l ∈ blocks) (hname : isName name = true)
    (hparams : ∀ x ∈ params, isName x = true) (nodup : params.Nodup)
    (hphis : ∀ {l b}, blocks.get? l = some b → ∀ φ ∈ b.phis, φ.labels.Nodup) :
    (layOut name params blocks).Printable := by
  have hmem : ∀ {l}, l ∈ (layOut name params blocks).blocks ↔ l ∈ blocks := Table.mem_mapValues
  refine
    { spelled := ⟨hname, hparams, fun hb' => ?_⟩
      params_nodup := nodup
      entry_mem := ?_
      name_eq := fun hb' => ?_
      closed := fun hb' => ?_
      lead := fun hb' => ?_
      labels := fun hb' n hn l hl => ?_
      labels_nodup := fun hb' φ hφ => ?_ }
  · obtain ⟨b, hb, rfl⟩ := of_block?_layOut hb'
    refine ⟨(clean hb).name, (clean hb).nodes, fun p hp => ?_⟩
    obtain ⟨c, hc, _⟩ := ((laid.preds _).2 p).1 hp
    rw [← laid.name_eq hc]
    exact (clean hc).name
  · rw [hmem]
    show (blocks.keys.head?).getD "entry" ∈ blocks.keys
    cases hkeys : blocks.keys with
    | nil => exact absurd hkeys laid.nonempty
    | cons l rest => exact .head _
  · obtain ⟨b, hb, rfl⟩ := of_block?_layOut hb'
    exact (laid.name_eq hb : b.name = _)
  · obtain ⟨b, hb, rfl⟩ := of_block?_layOut hb'
    exact (laid.closed hb : b.term ≠ none)
  · obtain ⟨b, hb, rfl⟩ := of_block?_layOut hb'
    exact (clean hb).lead
  · obtain ⟨b, hb, rfl⟩ := of_block?_layOut hb'
    rw [hmem]
    rcases List.mem_append.1 hn with hn | hn
    · obtain ⟨i, hi, rfl⟩ := List.mem_map.1 hn
      exact hmentioned l ((clean hb).labels i hi l hl)
    · obtain ⟨t, ht, rfl⟩ := List.mem_map.1 hn
      refine laid.targets hb l ?_
      rw [Block.successors, (Option.mem_toList.1 ht : b.term = some t)]
      exact Terminator.mem_labels.1 hl
  · obtain ⟨b, hb, rfl⟩ := of_block?_layOut hb'
    exact hphis hb φ hφ

theorem entry_first_layOut (laid : Laid blocks) :
    blocks.keys.head? = some (layOut name params blocks).entry := by
  show _ = some ((blocks.keys.head?).getD "entry")
  cases hkeys : blocks.keys with
  | nil => exact absurd hkeys laid.nonempty
  | cons l rest => rfl

/-- Blocks that keep names and terminators keep their sources. -/
theorem sources_mapValues (t : Table Label Block) (hname : ∀ l b, (g l b).name = b.name)
    (hterm : ∀ l b, (g l b).term = b.term) (l : Label) :
    ((t.mapValues g).values.filter fun p => decide (l ∈ p.successors)).map (·.name)
      = (t.values.filter fun p => decide (l ∈ p.successors)).map (·.name) := by
  have hvalues : (t.mapValues g).values = t.entries.map fun e => g e.1 e.2 := List.map_map
  rw [hvalues]
  exact sources_map t.entries (fun e => hname e.1 e.2) (fun e => hterm e.1 e.2) l

theorem any_mapValues (t : Table Label Block)
    (hnodes : ∀ l b, (g l b).nodes.any isSsaNode = b.nodes.any isSsaNode) :
    ((t.mapValues g).values.any fun b => b.nodes.any isSsaNode) = t.values.any fun b =>
      b.nodes.any isSsaNode := by
  have hvalues : (t.mapValues g).values = t.entries.map fun e => g e.1 e.2 := List.map_map
  rw [hvalues, Table.values, List.any_map, List.any_map]
  exact congrArg (List.any _) (funext fun e => hnodes e.1 e.2)

theorem any_nodes (f : Func) :
    f.nodes.any isSsaNode = f.blocks.values.any fun b => b.nodes.any isSsaNode := by
  rw [Func.nodes, List.any_flatMap]
  rfl

/-- A phi makes a function one in SSA form. -/
theorem phis_of_not_ssa (hssa : (layOut name params blocks).ssa = false)
    (hb : blocks.get? l = some b) : b.phis = [] := by
  refine List.eq_nil_iff_forall_not_mem.2 fun φ hφ => ?_
  have hblock := List.any_eq_false.1 hssa b (Table.mem_values.2 ⟨_, hb⟩)
  have hnode := List.any_eq_false.1 (Bool.not_eq_true _ ▸ hblock) (.instr (.phi φ))
    (List.mem_append_left _ (List.mem_map_of_mem (phi_mem_of_leading hφ)))
  exact absurd rfl hnode

theorem laidOut_layOut (laid : Laid blocks) (hssa : (layOut name params blocks).ssa = false) :
    (layOut name params blocks).LaidOut where
  entry_first := by
    rw [← entry_first_layOut laid]
    exact congrArg List.head? (Table.keys_mapValues _ _)
  preds hb' := by
    obtain ⟨b, _, rfl⟩ := of_block?_layOut hb'
    refine (sources_mapValues blocks ?_ ?_ _).symm
    all_goals exact fun _ _ => rfl
  aligned hb' φ hφ := by
    obtain ⟨b, hb, rfl⟩ := of_block?_layOut hb'
    have hφ : φ ∈ b.phis := hφ
    rw [phis_of_not_ssa hssa hb] at hφ
    cases hφ
  ssa := by
    rw [any_nodes]
    refine (any_mapValues blocks ?_).symm
    exact fun _ _ => rfl
  versions := by
    rw [hssa]
    rfl

theorem laidOut_aligned (laid : Laid blocks) (hssa : (layOut name params blocks).ssa = true) :
    (layOut name params blocks).aligned.LaidOut where
  entry_first := by
    show _ = some (layOut name params blocks).entry
    rw [← entry_first_layOut laid]
    exact congrArg List.head? ((Table.keys_mapValues _ _).trans (Table.keys_mapValues _ _))
  preds hb' := by
    obtain ⟨c, hc, rfl⟩ := of_block?_aligned hb'
    obtain ⟨b, _, rfl⟩ := of_block?_layOut hc
    refine ((sources_mapValues (withPreds blocks) ?_ ?_ _).trans
      (sources_mapValues blocks ?_ ?_ _)).symm
    all_goals exact fun _ _ => rfl
  aligned hb' φ hφ := by
    obtain ⟨b, _, rfl⟩ := of_block?_aligned hb'
    rw [Block.phis, Block.mapPhis, leadingPhis_mapLeadingPhis] at hφ
    obtain ⟨ψ, _, rfl⟩ := List.mem_map.1 hφ
    exact alignPhi_alignPhi
  ssa := by
    rw [any_nodes]
    refine ((any_mapValues (withPreds blocks) ?_).trans (any_mapValues blocks ?_)).symm
    · exact fun _ b => any_isSsaNode_mapPhis _ b
    · exact fun _ _ => rfl
  versions := (if_pos hssa).symm

end LayOut

end Func

theorem finishSsa_eq_ok {f' : Func} (h : finishSsa f = .ok f') :
    (∀ {l b}, f.block? l = some b → ∀ φ ∈ b.phis, φ.labels.Nodup) ∧ f' = f.aligned := by
  unfold finishSsa at h
  split at h
  · cases h
  · rename_i hnone
    cases h
    refine ⟨fun {l b} hb φ hφ => ?_, rfl⟩
    have hfind := List.findSome?_eq_none_iff.1 hnone b (Table.mem_values.2 ⟨l, hb⟩)
    rw [Option.map_eq_none_iff, repeatedIn?, List.find?_eq_none] at hfind
    simpa using hfind φ hφ

/-- A function that is made of a text can be printed, and is laid out as its text. -/
theorem buildFunction_laidOut {t : FunctionText} (hspelled : t.Spelled)
    (hmentions : ∀ item ∈ t.items, item.MentionsLabels) (hf : buildFunction t = .ok f) :
    f.Printable ∧ f.LaidOut := by
  obtain ⟨hparams, d, hd, hthere, hf⟩ := buildFunction_eq_ok hf
  have laid := laid_of_addItems hmentions hd hthere
  have hstart : Draft.start.Clean ((mentionedLabels t.items).map Prod.fst) := List.forall_mem_nil _
  have hclean := (hstart.addItems hspelled.items hmentions (fun _ hl => hl) hd).finish
    (definedLabels t.items)
  have clean : ∀ {l b}, (d.finish (definedLabels t.items)).table.get? l = some b →
      b.Clean ((mentionedLabels t.items).map Prod.fst) := by
    intro l b hb
    obtain ⟨c, hc, heq⟩ := List.mem_map.1 (Table.mem_of_get?_ofList hb)
    cases heq
    exact hclean b hc
  generalize (d.finish (definedLabels t.items)).table = blocks at *
  have hprintable := fun hphis =>
    Func.printable_layOut laid clean hthere hspelled.name hspelled.params hparams hphis
  split at hf
  · rename_i hssa
    obtain ⟨hphis, rfl⟩ := finishSsa_eq_ok hf
    have hphis' : ∀ {l b}, blocks.get? l = some b → ∀ φ ∈ b.phis, φ.labels.Nodup := by
      intro l b hb
      have hget := get?_withPreds blocks l
      rw [hb, Option.map_some] at hget
      exact fun φ hφ => hphis hget φ hφ
    refine ⟨(hprintable hphis').aligned fun hb' => ?_, Func.laidOut_aligned laid hssa⟩
    obtain ⟨b, _, rfl⟩ := Func.of_block?_layOut hb'
    exact (laid.preds _).1
  · rename_i hssa
    cases hf
    have hssa : (layOut t.name t.params blocks).ssa = false := Bool.not_eq_true _ ▸ hssa
    refine ⟨hprintable fun {l b} hb φ hφ => ?_, Func.laidOut_layOut laid hssa⟩
    rw [Func.phis_of_not_ssa hssa hb] at hφ
    cases hφ

/-! ## Programs -/

theorem parse_printable {source : String} {p : Program} (hp : parse source = .ok p) {key : String}
    (hf : p.function? key = some f) : f.name = key ∧ f.Printable ∧ f.LaidOut := by
  obtain ⟨functions, hread, hbuild⟩ := parse_eq_ok hp
  have htokens : AllSpelled (lex source.toList).tokens := spelled_lex source.toList
  have hspelled := spelled_readFunctions htokens.skipNewline hread
  refine buildProgram_all (fun t ht {f} => buildFunction_laidOut (hspelled t ht)
    (mentions_readFunctions hread t ht))
    (fun {key f} hnone => ?_) hbuild hf
  cases hnone

/-- A text that leaves much open: the entry and the block after the branch have no labels, control
falls through into a label, and the operands of the phi are in another order than the predecessors,
one of them for a block that is none. -/
def draftText : String :=
  "function main(n) \x7b
  load$2 = sub n$0, -007
  loop: # a loop
  x$1 = phi [out: 3, loop: x$1, entry: undef]
  branch x$1, loop, out
  write load$2
  out:
  \x7d"

/-- The function of that text. -/
def draft : Func where
  name := "main"
  params := ["n"]
  blocks := Table.ofList [
    ("entry", { name := "entry", term := some (.jump "loop"),
                instrs := [.binary ⟨"load", some 2⟩ "sub" (.var ⟨"n", some 0⟩) (.const (-7))] }),
    ("loop",
      { name := "loop", preds := ["entry", "loop"],
        term := some (.branch (.var ⟨"x", some 1⟩) "loop" "out"),
               instrs := [.phi ⟨⟨"x", some 1⟩,
                 [⟨"entry", .undefined⟩, ⟨"loop", .var ⟨"x", some 1⟩⟩, ⟨"out", .const 3⟩]⟩] }),
    ("loop.cont",
      { name := "loop.cont", term := some (.jump "out"),
        instrs := [.write (.var ⟨"load", some 2⟩)] }),
    ("out", { name := "out", preds := ["loop", "loop.cont"], term := some (.ret none) })]
  ssa := true
  versions := Table.ofList [("n", 0), ("load", 2), ("x", 1)]

/-- Printing a program that was read, with or without the predecessors of its blocks, gives a text,
and reading that text gives the program again; so printing what is read from the text gives the text
again. -/
theorem parse_print {source : String} {p : Program} (hp : parse source = .ok p) (showPreds : Bool) :
    ∃ text, p.print showPreds = .ok text ∧ parse text = .ok p ∧
      ∀ q, parse text = .ok q → q.print showPreds = .ok text := by
  have hprintable : p.Printable := fun hf =>
    let ⟨hname, hprintable, _⟩ := parse_printable hp hf
    ⟨hname, hprintable⟩
  have hsame : p.reread = p := by
    refine congrArg Program.mk (Table.ext_of_keys (Table.keys_mapValues _ _) fun key _ => ?_)
    rw [Table.get?_mapValues]
    show (p.function? key).map _ = p.function? key
    cases hf : p.function? key with
    | none => rfl
    | some f =>
      obtain ⟨_, hf, hl⟩ := parse_printable hp hf
      exact congrArg some (hf.reread_eq hl)
  have hparse := hprintable.parse_render showPreds
  rw [hsame] at hparse
  refine ⟨p.render showPreds, hprintable.print_eq showPreds, hparse, fun q hq => ?_⟩
  cases hparse.symm.trans hq
  exact hprintable.print_eq showPreds

theorem parse_print_draft :
    parse draftText = .ok ⟨Table.ofList [("main", draft)]⟩ ∧
      ∃ text, Program.print ⟨Table.ofList [("main", draft)]⟩ true = .ok text ∧ text ≠ draftText ∧
        parse text = .ok ⟨Table.ofList [("main", draft)]⟩ := by
  have hread : parse draftText = .ok ⟨Table.ofList [("main", draft)]⟩ := by cbv
  obtain ⟨text, hprint, hparse, _⟩ := parse_print hread true
  refine ⟨hread, text, hprint, ?_, hparse⟩
  rintro rfl
  exact absurd hprint (by decide +kernel)

end ThreeAddress
