import ThreeAddress.Proofs.RoundTrip

/-!
# Functions of a text are sound

The blocks of a function are implicit in its text, and so are its entry, its predecessor lists, its
form and its version counters. Whatever the text looks like, what is read from it is consistent
(`parse_sound`); only the operands of phis are taken over as they are written, so the check of the
graph accepts the function just if each phi has an operand for each predecessor of its block and for
no other block (`Func.checkCfg_iff_phis`).
-/

namespace ThreeAddress

open Text

variable {versions : Table String Int} {b : Block} {v : Var}

/-! ## Phis -/

/-- Phis that lead are followed by the rest of the block. -/
theorem PhisLead.eq_append (h : PhisLead b.instrs) : b.instrs = b.phis.map .phi ++ b.body := by
  unfold Block.phis Block.body
  generalize b.instrs = instrs at h
  induction instrs with
  | nil => rfl
  | cons i instrs ih =>
    obtain ⟨hi, hrest⟩ := List.pairwise_cons.1 h
    by_cases hphi : i.isPhi = true
    · cases i with
      | phi φ => exact congrArg (.phi φ :: ·) (ih hrest)
      | _ => cases hphi
    · -- Nothing behind the instruction is a phi.
      have hall : ∀ j ∈ i :: instrs, j.isPhi = false := by
        refine List.forall_mem_cons.2 ⟨Bool.not_eq_true _ ▸ hphi, fun j hj => ?_⟩
        exact Bool.not_eq_true _ ▸ fun hj' => hphi (hi j hj hj')
      have hphis : leadingPhis (i :: instrs) = [] := @leadingPhis_append _ [] hall
      have hbody : (i :: instrs).filter (!·.isPhi) = i :: instrs := @filter_phis_append _ [] hall
      rw [hphis, hbody]
      rfl

/-- A phi with operands for the predecessors and for no other block lists them in order, once it is
aligned. -/
theorem Phi.labels_of_aligned {preds : List Label} {φ : Phi} (haligned : alignPhi preds φ = φ)
    (hsame : ∀ p, p ∈ φ.labels ↔ p ∈ preds) : φ.labels = preds := by
  have hrest : φ.incoming.filter (·.block ∉ preds) = [] := by
    refine List.filter_eq_nil_iff.2 fun a ha => ?_
    simpa using (hsame a.block).1 (List.mem_map_of_mem ha)
  have hfirst : (preds.filterMap fun p => φ.incoming.find? (·.block = p)).map (·.block)
      = preds := by
    have hfound : ∀ p ∈ preds, ∃ a, φ.incoming.find? (·.block = p) = some a ∧ a.block = p := by
      intro p hp
      obtain ⟨a, ha, rfl⟩ := List.mem_map.1 ((hsame p).2 hp)
      have hsome : (φ.incoming.find? (·.block = a.block)).isSome :=
        List.find?_isSome.2 ⟨a, ha, by simp⟩
      obtain ⟨a', ha'⟩ := Option.isSome_iff_exists.1 hsome
      exact ⟨a', ha', by simpa using List.find?_some ha'⟩
    clear hsame hrest haligned
    induction preds with
    | nil => rfl
    | cons p preds ih =>
      obtain ⟨⟨a, ha, hblock⟩, hpreds⟩ := List.forall_mem_cons.1 hfound
      simp only [List.filterMap_cons, ha, List.map_cons, hblock, ih hpreds]
  have hlabels : (alignPhi preds φ).labels = preds := by
    rw [Phi.labels, alignPhi, hrest, List.append_nil, hfirst]
  rwa [haligned] at hlabels

/-! ## Version counters -/

theorem mem_raiseVersion {x : String} (h : x ∈ versions) : x ∈ raiseVersion versions v := by
  unfold raiseVersion
  split
  · exact h
  · exact Table.mem_insert.2 (.inr h)

/-- A name that is mentioned with a version has a counter. -/
theorem mem_foldl_raiseVersion {vars : List Var} (hv : v ∈ vars) (hversion : v.version ≠ none) :
    v.name ∈ vars.foldl raiseVersion versions := by
  have hkeep : ∀ (vars : List Var) {versions : Table String Int}, v.name ∈ versions →
      v.name ∈ vars.foldl raiseVersion versions := by
    intro vars
    induction vars with
    | nil => exact id
    | cons w vars ih => exact fun h => ih (mem_raiseVersion h)
  induction vars generalizing versions with
  | nil => cases hv
  | cons w vars ih =>
    rcases List.mem_cons.1 hv with rfl | hv
    · refine hkeep vars ?_
      obtain ⟨k, hk⟩ := Option.ne_none_iff_exists'.1 hversion
      rw [raiseVersion, hk]
      exact Table.mem_insert.2 (.inl rfl)
    · exact ih hv

theorem exists_seedVersions {params : List String} {nodes : List Node} (nodup : params.Nodup)
    {n : Node} (hn : n ∈ nodes) (hv : v ∈ n.vars) {k : Int} (hk : v.version = some k) :
    ∃ m, (seedVersions params nodes).get? v.name = some m ∧ k ≤ m := by
  have hmem : v.name ∈ seedVersions params nodes :=
    mem_foldl_raiseVersion (List.mem_flatMap.2 ⟨n, hn, hv⟩) (hk ▸ Option.some_ne_none k)
  obtain ⟨m, hm⟩ := Table.mem_iff_get?.1 hmem
  have hle := (seedVersions_spec params nodes nodup).2 n hn v hv k hk
  rw [Table.getD_of_get? hm] at hle
  exact ⟨m, hm, hle⟩

/-! ## Functions -/

namespace Func

variable {f : Func} {l : Label}

theorem mem_sources (hname : ∀ {l b}, f.block? l = some b → b.name = l) {p : Label} :
    p ∈ f.sources l ↔ l ∈ f.graph.next p := by
  rw [sources, List.mem_map]
  constructor
  · rintro ⟨b, hb, rfl⟩
    obtain ⟨hb, hl⟩ := List.mem_filter.1 hb
    obtain ⟨x, hx⟩ := Table.mem_values.1 hb
    rw [hname hx, next_graph hx]
    exact of_decide_eq_true hl
  · intro hl
    obtain ⟨b, hb, hl⟩ := block_of_mem_next hl
    exact ⟨b, List.mem_filter.2 ⟨Table.mem_values.2 ⟨p, hb⟩, decide_eq_true hl⟩, hname hb⟩

theorem map_name_blockList (hname : ∀ {l b}, f.block? l = some b → b.name = l) :
    f.blockList.map (·.name) = f.blocks.keys := Table.map_values hname

theorem nodup_sources (hname : ∀ {l b}, f.block? l = some b → b.name = l) (l : Label) :
    (f.sources l).Nodup := by
  have hkeys := f.blocks.nodup_keys
  rw [← map_name_blockList hname] at hkeys
  exact hkeys.sublist (List.filter_sublist.map _)

theorem Printable.targets (h : f.Printable) (hb : f.block? l = some b) {t : Terminator}
    (ht : b.term = some t) {s : Label} (hs : s ∈ t.targets) : s ∈ f.blocks := by
  have hnode : .term t ∈ b.nodes :=
    List.mem_append_right _ (List.mem_map_of_mem (Option.mem_toList.2 ht))
  exact h.labels hb _ hnode s (Terminator.mem_labels.2 hs)

/-- Each phi has an operand for each predecessor of its block, and for no other block. -/
def PhisCover (f : Func) : Prop :=
  ∀ b ∈ f.blockList, ∀ φ, .phi φ ∈ b.instrs → ∀ p, p ∈ φ.labels ↔ p ∈ b.preds

/-- All that the check of the graph can object to are operands of phis. -/
theorem checkCfg_iff_phis (h : f.Printable) (hl : f.LaidOut) :
    f.checkCfg = .ok () ↔ f.PhisCover := by
  rw [checkCfg_eq_ok]
  constructor
  · intro wf b hb φ hφ p
    obtain ⟨l, hb⟩ := Table.mem_values.1 hb
    rw [(wf.tidy hb).labels_eq φ ((wf.tidy hb).phi_mem_iff.1 hφ)]
  · intro hcover
    apply wellFormed_of_mem_preds h.entry_mem h.name_eq h.closed
    · intro l b hb s hs
      obtain ⟨t, ht⟩ := Option.ne_none_iff_exists'.1 (h.closed hb)
      rw [Block.successors, ht] at hs
      exact h.targets hb ht hs
    · intro l b hb
      rw [hl.preds hb]
      exact nodup_sources h.name_eq l
    · intro l b hb p
      rw [hl.preds hb]
      exact mem_sources h.name_eq
    · intro l b hb
      refine ⟨(h.lead hb).eq_append, fun φ hφ => ?_⟩
      have hmem : .phi φ ∈ b.instrs := phi_mem_of_leading hφ
      exact φ.labels_of_aligned (hl.aligned hb φ hφ) (hcover b (Table.mem_values.2 ⟨l, hb⟩) φ hmem)

/-- A node shows SSA form if it mentions a version or is a phi. -/
theorem any_isSsaNode_iff : f.nodes.any isSsaNode = true ↔
    (∃ n ∈ f.nodes, ∃ v ∈ n.vars, v.version ≠ none) ∨ ∃ φ, .instr (.phi φ) ∈ f.nodes := by
  rw [List.any_eq_true]
  constructor
  · rintro ⟨n, hn, hssa⟩
    rcases Bool.or_eq_true_iff.1 hssa with hphi | hvars
    · cases n with
      | term t => cases hphi
      | instr i =>
        cases i with
        | phi φ => exact .inr ⟨φ, hn⟩
        | _ => cases hphi
    · obtain ⟨v, hv, hsome⟩ := List.any_eq_true.1 hvars
      exact .inl ⟨n, hn, v, hv, Option.isSome_iff_ne_none.1 hsome⟩
  · rintro (⟨n, hn, v, hv, hsome⟩ | ⟨φ, hφ⟩)
    · refine ⟨n, hn, Bool.or_eq_true_iff.2 (.inr (List.any_eq_true.2 ⟨v, hv, ?_⟩))⟩
      exact Option.isSome_iff_ne_none.2 hsome
    · exact ⟨_, hφ, rfl⟩

/-- What every function is like that is read from a text. -/
structure Sound (f : Func) : Prop where
  nonempty : f.blockList ≠ []
  entry_first : f.blockList.head?.map (·.name) = some f.entry
  names : f.blockList.map (·.name) = f.blocks.keys
  names_nodup : (f.blockList.map (·.name)).Nodup
  closed : ∀ b ∈ f.blockList, b.term ≠ none
  targets : ∀ b ∈ f.blockList, ∀ t, b.term = some t → ∀ s ∈ t.targets, s ∈ f.blocks
  phi_labels : ∀ b ∈ f.blockList, ∀ φ, .phi φ ∈ b.instrs → ∀ p ∈ φ.labels, p ∈ f.blocks
  preds : ∀ b ∈ f.blockList, b.preds = f.sources b.name
  lead : ∀ b ∈ f.blockList, PhisLead b.instrs
  check : f.checkCfg = .ok () ↔ f.PhisCover
  check_of_phiFree : f.PhiFree → f.checkCfg = .ok ()
  ssa : f.ssa = true ↔
    (∃ n ∈ f.nodes, ∃ v ∈ n.vars, v.version ≠ none) ∨ ∃ φ, .instr (.phi φ) ∈ f.nodes
  versions : f.ssa = true → ∀ n ∈ f.nodes, ∀ v ∈ n.vars, ∀ k, v.version = some k →
    ∃ m, f.versions.get? v.name = some m ∧ k ≤ m

theorem Printable.sound (h : f.Printable) (hl : f.LaidOut) : f.Sound := by
  have hnames := map_name_blockList h.name_eq
  have hfirst : f.blockList.head?.map (·.name) = some f.entry := by
    rw [← List.head?_map, hnames, hl.entry_first]
  have hcheck := checkCfg_iff_phis h hl
  have hget : ∀ {b}, b ∈ f.blockList → ∃ l, f.block? l = some b := Table.mem_values.1
  refine
    { nonempty := fun hnil => ?_
      entry_first := hfirst
      names := hnames
      names_nodup := hnames ▸ f.blocks.nodup_keys
      closed := fun b hb => ?_
      targets := fun b hb t ht s hs => ?_
      phi_labels := fun b hb φ hφ p hp => ?_
      preds := fun b hb => ?_
      lead := fun b hb => ?_
      check := hcheck
      check_of_phiFree := fun hfree => hcheck.2 fun b hb φ hφ => ?_
      ssa := hl.ssa ▸ any_isSsaNode_iff
      versions := fun hssa n hn v hv k hk => ?_ }
  · rw [hnil] at hfirst
    cases hfirst
  · obtain ⟨l, hb⟩ := hget hb
    exact h.closed hb
  · obtain ⟨l, hb⟩ := hget hb
    exact h.targets hb ht hs
  · obtain ⟨l, hb⟩ := hget hb
    exact h.labels hb _ (List.mem_append_left _ (List.mem_map_of_mem hφ)) p hp
  · obtain ⟨l, hb⟩ := hget hb
    rw [hl.preds hb, h.name_eq hb]
  · obtain ⟨l, hb⟩ := hget hb
    exact h.lead hb
  · obtain ⟨l, hb⟩ := hget hb
    cases hfree l b hb _ hφ
  · have hversions := hl.versions
    rw [if_pos hssa] at hversions
    rw [hversions]
    exact exists_seedVersions h.params_nodup hn hv hk

end Func

/-! ## Programs -/

/-- Each function of a program that was read is sound, whatever the text looks like. -/
theorem parse_sound {source : String} {p : Program} (hp : parse source = .ok p) {key : String}
    {f : Func} (hf : p.function? key = some f) : f.Sound := by
  obtain ⟨_, hprintable, hlaid⟩ := parse_printable hp hf
  exact hprintable.sound hlaid

/-- The text whose phi has an operand for a block that is no predecessor: it is read, but the check
objects. -/
theorem parse_sound_draft :
    parse draftText = .ok ⟨Table.ofList [("main", draft)]⟩ ∧ draft.Sound ∧
      draft.checkCfg ≠ .ok () := by
  have hread : parse draftText = .ok ⟨Table.ofList [("main", draft)]⟩ := by cbv
  have hmain : Program.function? ⟨Table.ofList [("main", draft)]⟩ "main" = some draft := rfl
  exact ⟨hread, parse_sound hread hmain, by decide +kernel⟩

end ThreeAddress
