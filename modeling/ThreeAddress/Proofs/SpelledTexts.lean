import ThreeAddress.Proofs.Rereading

/-!
# Texts that were read can be printed

Names come from the words of the text, or are made from them with dots, so all that a program
mentions can be written again: function by function along the reader, then along the blocks as they
are laid out (`parse_printable`).
-/

namespace ThreeAddress

open Text

variable {t : Terminator} {i : Instr} {l : Label} {items : List Item} {base : String} {n : Node}
  {mark : Mark}

/-! ## Names of lines -/

theorem Node.spelled_of (hdest : ∀ d, n.dest? = some d → d.Spelled)
    (huses : ∀ x ∈ n.uses, x.Spelled) (hlabels : ∀ l ∈ n.labels, isName l = true)
    (hcallees : ∀ g ∈ n.callees, isName g = true) : n.Spelled := by
  refine ⟨fun v hv => ?_, hlabels, hcallees⟩
  rcases List.mem_append.1 hv with hv | hv
  · exact hdest v (Option.mem_toList.1 hv)
  · obtain ⟨x, hx, heq⟩ := List.mem_filterMap.1 hv
    cases x with
    | var w =>
      cases heq
      exact huses _ hx v rfl
    | const n => cases heq
    | undefined => cases heq

namespace Text

variable {targets : List (Label × Mark)} {x : Operand} {fuel : Nat} {d : Var}

/-- All words among the tokens are words. -/
def AllSpelled (ts : List Token) : Prop := ∀ t ∈ ts, t.Spelled

variable {ts rest : List Token}

theorem AllSpelled.tail {t : Token} (h : AllSpelled (t :: ts)) : AllSpelled ts := fun u hu =>
  h u (List.mem_cons_of_mem t hu)

theorem AllSpelled.skipNewline (h : AllSpelled ts) : AllSpelled (skipNewline ts) := by
  unfold Text.skipNewline
  split
  · exact h.tail
  · exact h

theorem spelled_varOf? {t : Token} (ht : t.Spelled) {v : Var} (hv : varOf? t = some v) :
    v.Spelled := by
  cases t with
  | name x =>
    cases hv
    exact ht
  | versioned x n =>
    cases hv
    exact ⟨ht, Int.natCast_nonneg n⟩
  | _ => cases hv

theorem spelled_operandOf? {t : Token} (ht : t.Spelled) (hx : operandOf? t = some x) :
    x.Spelled := by
  rintro v rfl
  unfold operandOf? at hx
  split at hx
  · cases hx
  · cases hx
  · obtain ⟨w, hw, heq⟩ := Option.map_eq_some_iff.1 hx
    cases heq
    exact spelled_varOf? ht hw

theorem spelled_expect {t : Token} (h : AllSpelled ts) (hr : expect t ts = .ok rest) :
    AllSpelled rest := by
  unfold expect at hr
  split at hr
  · cases hr
  · split at hr
    · cases hr
      exact h.tail
    · cases hr

theorem spelled_readName {x : String} (h : AllSpelled ts) (hr : readName ts = .ok (x, rest)) :
    isName x = true ∧ AllSpelled rest := by
  unfold readName at hr
  split at hr
  · cases hr
    exact ⟨h _ (.head _), h.tail⟩
  · cases hr

theorem spelled_readOperand (h : AllSpelled ts) (hr : readOperand ts = .ok (x, rest)) :
    x.Spelled ∧ AllSpelled rest := by
  unfold readOperand at hr
  split at hr
  · cases hr
  · split at hr
    · rename_i hx
      cases hr
      exact ⟨spelled_operandOf? (h _ (.head _)) hx, h.tail⟩
    · cases hr

/-- What a phi operand mentions can be written. -/
def MarkedArg.Spelled (a : MarkedArg) : Prop := isName a.1.block = true ∧ a.1.value.Spelled

theorem spelled_readPhiArg {a : MarkedArg} (h : AllSpelled ts)
    (hr : readPhiArg ts = .ok (a, rest)) : a.Spelled ∧ AllSpelled rest := by
  obtain ⟨⟨l, ts₁⟩, hl, hr⟩ := bind_eq_ok.1 hr
  obtain ⟨ts₂, hcolon, hr⟩ := bind_eq_ok.1 hr
  obtain ⟨⟨x, ts₃⟩, hx, hr⟩ := bind_eq_ok.1 hr
  cases hr
  obtain ⟨hl, h₁⟩ := spelled_readName h hl
  obtain ⟨hx, h₃⟩ := spelled_readOperand (spelled_expect h₁ hcolon) hx
  exact ⟨⟨hl, hx⟩, h₃⟩

section Lists

variable {α : Type} {read : List Token → Except Mark (α × List Token)} {close : Token}
  {P : α → Prop} {xs : List α}

theorem spelled_readMore
    (hread : ∀ ts x rest, AllSpelled ts → read ts = .ok (x, rest) → P x ∧ AllSpelled rest)
    (h : AllSpelled ts) (hr : readMore read close fuel ts = .ok (xs, rest)) :
    (∀ x ∈ xs, P x) ∧ AllSpelled rest := by
  induction fuel generalizing ts xs with
  | zero => cases hr
  | succ fuel ih =>
    unfold readMore at hr
    split at hr
    · cases hr
      exact ⟨List.forall_mem_nil _, fun t ht => h t (List.mem_of_mem_tail ht)⟩
    · obtain ⟨ts₁, hcomma, hr⟩ := bind_eq_ok.1 hr
      obtain ⟨⟨x, ts₂⟩, hx, hr⟩ := bind_eq_ok.1 hr
      obtain ⟨⟨ys, ts₃⟩, hys, hr⟩ := bind_eq_ok.1 hr
      cases hr
      obtain ⟨hx, h₂⟩ := hread _ _ _ (spelled_expect h hcomma) hx
      obtain ⟨hys, h₃⟩ := ih h₂ hys
      exact ⟨List.forall_mem_cons.2 ⟨hx, hys⟩, h₃⟩

/-- If the members of a list that are read can be written, so can all of the list. -/
theorem spelled_readList
    (hread : ∀ ts x rest, AllSpelled ts → read ts = .ok (x, rest) → P x ∧ AllSpelled rest)
    (h : AllSpelled ts) (hr : readList read close ts = .ok (xs, rest)) :
    (∀ x ∈ xs, P x) ∧ AllSpelled rest := by
  unfold readList at hr
  split at hr
  · cases hr
    exact ⟨List.forall_mem_nil _, fun t ht => h t (List.mem_of_mem_tail ht)⟩
  · obtain ⟨⟨x, ts₁⟩, hx, hr⟩ := bind_eq_ok.1 hr
    obtain ⟨⟨ys, ts₂⟩, hys, hr⟩ := bind_eq_ok.1 hr
    cases hr
    obtain ⟨hx, h₁⟩ := hread _ _ _ h hx
    obtain ⟨hys, h₂⟩ := spelled_readMore hread h₁ hys
    exact ⟨List.forall_mem_cons.2 ⟨hx, hys⟩, h₂⟩

end Lists

theorem spelled_readCall {g : String} {args : List Operand} (h : AllSpelled ts)
    (hr : readCall ts = .ok ((g, args), rest)) :
    isName g = true ∧ (∀ x ∈ args, x.Spelled) ∧ AllSpelled rest := by
  obtain ⟨⟨callee, ts₁⟩, hname, hr⟩ := bind_eq_ok.1 hr
  obtain ⟨ts₂, hparen, hr⟩ := bind_eq_ok.1 hr
  obtain ⟨⟨xs, ts₃⟩, hargs, hr⟩ := bind_eq_ok.1 hr
  cases hr
  obtain ⟨hg, h₁⟩ := spelled_readName h hname
  exact ⟨hg, spelled_readList (fun _ _ _ => spelled_readOperand) (spelled_expect h₁ hparen) hargs⟩

theorem spelled_readOperation {op : String} (hd : d.Spelled) (hop : isName op = true)
    (h : AllSpelled ts) (hr : readOperation d op ts = .ok (i, rest)) :
    (Node.instr i).Spelled ∧ AllSpelled rest := by
  obtain ⟨⟨x, ts₁⟩, hleft, hr⟩ := bind_eq_ok.1 hr
  obtain ⟨hx, h₁⟩ := spelled_readOperand h hleft
  dsimp only at hr
  split at hr
  · obtain ⟨⟨y, ts₂⟩, hright, hr⟩ := bind_eq_ok.1 hr
    cases hr
    obtain ⟨hy, h₂⟩ := spelled_readOperand h₁.tail hright
    refine ⟨Node.spelled_of ?_ ?_ ?_ ?_, h₂⟩
    · rintro d' ⟨⟩
      exact hd
    · exact List.forall_mem_cons.2 ⟨hx, List.forall_mem_singleton.2 hy⟩
    · intro l hl
      cases hl
    · exact List.forall_mem_singleton.2 hop
  · cases hr
    refine ⟨Node.spelled_of ?_ ?_ ?_ ?_, h₁⟩
    · rintro d' ⟨⟩
      exact hd
    · exact List.forall_mem_singleton.2 hx
    · intro l hl
      cases hl
    · exact List.forall_mem_singleton.2 hop

/-- What an instruction that mentions no label and calls nothing can be written with. -/
theorem spelled_instr (hdest : ∀ d, i.dest? = some d → d.Spelled) (huses : ∀ x ∈ i.uses, x.Spelled)
    (hlabels : (Node.instr i).labels = []) (hcallees : (Node.instr i).callees = []) :
    (Node.instr i).Spelled :=
  Node.spelled_of hdest huses (hlabels ▸ List.forall_mem_nil _) (hcallees ▸ List.forall_mem_nil _)

theorem spelled_readRhs (hd : d.Spelled) (h : AllSpelled ts)
    (hr : readRhs d ts = .ok ((i, targets), rest)) : (Node.instr i).Spelled ∧ AllSpelled rest := by
  have hdest : ∀ d', some d = some d' → d'.Spelled := by
    rintro d' ⟨⟩
    exact hd
  unfold readRhs at hr
  split at hr
  · obtain ⟨⟨a, ts₁⟩, ha, hr⟩ := bind_eq_ok.1 hr
    cases hr
    obtain ⟨ha, h₁⟩ := spelled_readOperand h.tail ha
    exact ⟨spelled_instr hdest (List.forall_mem_singleton.2 ha) rfl rfl, h₁⟩
  · obtain ⟨⟨⟨g, args⟩, ts₁⟩, hcall, hr⟩ := bind_eq_ok.1 hr
    cases hr
    obtain ⟨hg, hargs, h₁⟩ := spelled_readCall h.tail hcall
    exact ⟨Node.spelled_of hdest hargs (List.forall_mem_nil _) (List.forall_mem_singleton.2 hg), h₁⟩
  · cases hr
    exact ⟨spelled_instr hdest (List.forall_mem_nil _) rfl rfl, h.tail⟩
  · obtain ⟨ts₁, hbracket, hr⟩ := bind_eq_ok.1 hr
    obtain ⟨⟨args, ts₂⟩, hargs, hr⟩ := bind_eq_ok.1 hr
    cases hr
    obtain ⟨hargs, h₂⟩ :=
      spelled_readList (fun _ _ _ => spelled_readPhiArg) (spelled_expect h.tail hbracket) hargs
    refine ⟨Node.spelled_of hdest ?_ ?_ (List.forall_mem_nil _), h₂⟩
    · simp only [Node.uses, Instr.uses, List.map_map, List.forall_mem_map]
      exact fun a ha => (hargs a ha).2
    · simp only [Node.labels, Phi.labels, List.map_map, List.forall_mem_map]
      exact fun a ha => (hargs a ha).1
  · cases hr
    refine ⟨spelled_instr hdest (List.forall_mem_singleton.2 ?_) rfl rfl, h.tail⟩
    rintro v ⟨⟩
    exact h _ (.head _)
  · obtain ⟨⟨j, ts₁⟩, hop, hr⟩ := bind_eq_ok.1 hr
    cases hr
    exact spelled_readOperation hd (h _ (.head _)) h.tail hop
  · obtain ⟨⟨x, ts₁⟩, hx, hr⟩ := bind_eq_ok.1 hr
    cases hr
    obtain ⟨hx, h₁⟩ := spelled_readOperand h hx
    exact ⟨spelled_instr hdest (List.forall_mem_singleton.2 hx) rfl rfl, h₁⟩

theorem spelled_readKeyword {k : Keyword} (h : AllSpelled ts)
    (hr : readKeyword mark k ts = .ok ((n, targets), rest)) : n.Spelled ∧ AllSpelled rest := by
  have hnone : ∀ d : Var, none = some d → d.Spelled := fun d hd => by cases hd
  unfold readKeyword at hr
  split at hr
  · obtain ⟨⟨a, ts₁⟩, ha, hr⟩ := bind_eq_ok.1 hr
    obtain ⟨ts₂, hcomma, hr⟩ := bind_eq_ok.1 hr
    obtain ⟨⟨v, ts₃⟩, hv, hr⟩ := bind_eq_ok.1 hr
    cases hr
    obtain ⟨ha, h₁⟩ := spelled_readOperand h ha
    obtain ⟨hv, h₃⟩ := spelled_readOperand (spelled_expect h₁ hcomma) hv
    exact ⟨spelled_instr hnone (List.forall_mem_cons.2 ⟨ha, List.forall_mem_singleton.2 hv⟩) rfl
      rfl, h₃⟩
  · obtain ⟨⟨⟨g, args⟩, ts₁⟩, hcall, hr⟩ := bind_eq_ok.1 hr
    cases hr
    obtain ⟨hg, hargs, h₁⟩ := spelled_readCall h hcall
    exact ⟨Node.spelled_of hnone hargs (List.forall_mem_nil _) (List.forall_mem_singleton.2 hg), h₁⟩
  · obtain ⟨⟨v, ts₁⟩, hv, hr⟩ := bind_eq_ok.1 hr
    cases hr
    obtain ⟨hv, h₁⟩ := spelled_readOperand h hv
    exact ⟨spelled_instr hnone (List.forall_mem_singleton.2 hv) rfl rfl, h₁⟩
  · obtain ⟨⟨l, ts₁⟩, hl, hr⟩ := bind_eq_ok.1 hr
    cases hr
    obtain ⟨hl, h₁⟩ := spelled_readName h hl
    exact ⟨Node.spelled_of hnone (List.forall_mem_nil _) (List.forall_mem_singleton.2 hl)
      (List.forall_mem_nil _), h₁⟩
  · obtain ⟨⟨c, ts₁⟩, hc, hr⟩ := bind_eq_ok.1 hr
    obtain ⟨ts₂, hcomma, hr⟩ := bind_eq_ok.1 hr
    obtain ⟨⟨l, ts₃⟩, hl, hr⟩ := bind_eq_ok.1 hr
    obtain ⟨ts₄, hcomma', hr⟩ := bind_eq_ok.1 hr
    obtain ⟨⟨e, ts₅⟩, he, hr⟩ := bind_eq_ok.1 hr
    cases hr
    obtain ⟨hc, h₁⟩ := spelled_readOperand h hc
    obtain ⟨hl, h₃⟩ := spelled_readName (spelled_expect h₁ hcomma) hl
    obtain ⟨he, h₅⟩ := spelled_readName (spelled_expect h₃ hcomma') he
    exact ⟨Node.spelled_of hnone (List.forall_mem_singleton.2 hc)
      (List.forall_mem_cons.2 ⟨hl, List.forall_mem_singleton.2 he⟩) (List.forall_mem_nil _), h₅⟩
  · cases hr
    exact ⟨Node.spelled_of hnone (List.forall_mem_nil _) (List.forall_mem_nil _)
      (List.forall_mem_nil _), h⟩
  · obtain ⟨⟨v, ts₁⟩, hv, hr⟩ := bind_eq_ok.1 hr
    cases hr
    obtain ⟨hv, h₁⟩ := spelled_readOperand h hv
    exact ⟨Node.spelled_of hnone (List.forall_mem_singleton.2 hv) (List.forall_mem_nil _)
      (List.forall_mem_nil _), h₁⟩
  · cases hr

theorem spelled_readItem {item : Item} (h : AllSpelled ts) (hr : readItem ts = .ok (item, rest)) :
    item.line.Spelled ∧ AllSpelled rest := by
  unfold readItem at hr
  split at hr
  · cases hr
  · obtain ⟨ts₁, hline, hr⟩ := bind_eq_ok.1 hr
    cases hr
    exact ⟨h _ (.head _), spelled_expect h.tail.tail hline⟩
  · obtain ⟨⟨⟨n, targets⟩, ts₁⟩, hn, hr⟩ := bind_eq_ok.1 hr
    obtain ⟨ts₂, hline, hr⟩ := bind_eq_ok.1 hr
    cases hr
    obtain ⟨hn, h₁⟩ := spelled_readKeyword h.tail hn
    exact ⟨hn, spelled_expect h₁ hline⟩
  · split at hr
    · cases hr
    · rename_i hvar
      obtain ⟨ts₁, hequals, hr⟩ := bind_eq_ok.1 hr
      obtain ⟨⟨⟨i, targets⟩, ts₂⟩, hi, hr⟩ := bind_eq_ok.1 hr
      obtain ⟨ts₃, hline, hr⟩ := bind_eq_ok.1 hr
      cases hr
      obtain ⟨hi, h₂⟩ :=
        spelled_readRhs (spelled_varOf? (h _ (.head _)) hvar) (spelled_expect h.tail hequals) hi
      exact ⟨hi, spelled_expect h₂ hline⟩

/-- What the text of a function mentions can be written. -/
structure FunctionText.Spelled (t : FunctionText) : Prop where
  name : isName t.name = true
  params : ∀ x ∈ t.params, isName x = true
  items : ∀ item ∈ t.items, item.line.Spelled

theorem spelled_readFunction {t : FunctionText} (h : AllSpelled ts)
    (hr : readFunction ts = .ok (t, rest)) : t.Spelled ∧ AllSpelled rest := by
  obtain ⟨ts₁, hopen, hr⟩ := bind_eq_ok.1 hr
  obtain ⟨⟨x, ts₂⟩, hname, hr⟩ := bind_eq_ok.1 hr
  obtain ⟨ts₃, hparen, hr⟩ := bind_eq_ok.1 hr
  obtain ⟨⟨params, ts₄⟩, hparams, hr⟩ := bind_eq_ok.1 hr
  obtain ⟨ts₅, hbrace, hr⟩ := bind_eq_ok.1 hr
  obtain ⟨ts₆, hline, hr⟩ := bind_eq_ok.1 hr
  obtain ⟨⟨items, ts₇⟩, hitems, hr⟩ := bind_eq_ok.1 hr
  cases hr
  obtain ⟨hname, h₂⟩ := spelled_readName (spelled_expect h hopen) hname
  obtain ⟨hparams, h₄⟩ :=
    spelled_readList (fun _ _ _ => spelled_readName) (spelled_expect h₂ hparen) hparams
  obtain ⟨hitems, h₇⟩ := readItems_keeps AllSpelled.tail spelled_readItem
    (spelled_expect (spelled_expect h₄ hbrace) hline) hitems
  exact ⟨⟨hname, hparams, hitems⟩, h₇.skipNewline⟩

theorem spelled_readFunctions {texts : List FunctionText} (h : AllSpelled ts)
    (hr : readFunctions fuel ts = .ok texts) : ∀ t ∈ texts, t.Spelled :=
  readFunctions_keeps spelled_readFunction h hr

/-! ## Names of blocks -/

theorem isName_numbered (h : isName base = true) (n : Nat) : isName (numbered base n) = true := by
  cases n with
  | zero => exact h
  | succ n => exact isName_join (isWord_of_isName h) fun c hc =>
    isNameChar_of_isDigit (isDigit_of_mem_repr hc)

theorem firstFree_eq (candidate : Nat → String) (taken : List String) :
    ∃ n, firstFree candidate taken = candidate n := by
  unfold firstFree
  generalize taken.length = tries
  generalize 0 = k
  induction tries generalizing k with
  | zero => exact ⟨k, rfl⟩
  | succ tries ih =>
    unfold firstFreeFrom
    split
    · exact ih (k + 1)
    · exact ⟨k, rfl⟩

/-- A fresh name is a name. -/
theorem isName_firstFree (h : isName base = true) (taken : List String) :
    isName (firstFree (numbered base) taken) = true := by
  obtain ⟨n, hn⟩ := firstFree_eq (numbered base) taken
  rw [hn]
  exact isName_numbered h n

end Text

/-- A block as it is read: its names are names, its phis come first, and their labels are among
those mentioned. -/
structure Block.Clean (mentioned : List Label) (b : Block) : Prop where
  name : isName b.name = true
  preds : b.preds = []
  lead : PhisLead b.instrs
  nodes : ∀ n ∈ b.nodes, n.Spelled
  labels : ∀ i ∈ b.instrs, ∀ l ∈ (Node.instr i).labels, l ∈ mentioned

namespace Block

variable {mentioned : List Label} {b : Block}

theorem clean_empty (hl : isName l = true) : Clean mentioned { name := l } :=
  ⟨hl, rfl, .nil, List.forall_mem_nil _, List.forall_mem_nil _⟩

theorem Clean.setTerm (h : b.Clean mentioned) (ht : (Node.term t).Spelled) :
    Clean mentioned { b with term := some t } := by
  refine ⟨h.name, h.preds, h.lead, fun n hn => ?_, h.labels⟩
  rcases List.mem_append.1 hn with hn | hn
  · exact h.nodes n (List.mem_append_left _ hn)
  · cases List.mem_singleton.1 hn
    exact ht

theorem Clean.addInstr (h : b.Clean mentioned) (hi : (Node.instr i).Spelled)
    (hlabels : ∀ l ∈ (Node.instr i).labels, l ∈ mentioned)
    (hlead : i.isPhi = true → ∀ j ∈ b.instrs, j.isPhi = true) :
    Clean mentioned { b with instrs := b.instrs ++ [i] } := by
  refine ⟨h.name, h.preds, ?_, fun n hn => ?_, fun j hj => ?_⟩
  · refine List.pairwise_append.2 ⟨h.lead, List.pairwise_singleton _ _, fun j hj k hk hphi => ?_⟩
    cases List.mem_singleton.1 hk
    exact hlead hphi j hj
  · have hn : n ∈ (b.instrs ++ [i]).map Node.instr ++ b.term.toList.map Node.term := hn
    rw [List.map_append, List.append_assoc, List.mem_append, List.mem_append] at hn
    rcases hn with hn | hn | hn
    · exact h.nodes n (List.mem_append_left _ hn)
    · cases List.mem_singleton.1 hn
      exact hi
    · exact h.nodes n (List.mem_append_right _ hn)
  · rcases List.mem_append.1 hj with hj | hj
    · exact h.labels j hj
    · cases List.mem_singleton.1 hj
      exact hlabels

theorem Clean.close (h : b.Clean mentioned) (ht : (Node.term t).Spelled) :
    Clean mentioned (closeWith t b) := by
  unfold closeWith
  split
  · exact h
  · exact h.setTerm ht

end Block

namespace Text.Draft

variable {mentioned labels : List Label} {d d' : Draft}

/-- All blocks are as they are read. -/
def Clean (mentioned : List Label) (d : Draft) : Prop := ∀ b ∈ d.blocks, b.Clean mentioned

theorem Clean.openBlock (h : d.Clean mentioned) (hl : isName l = true) :
    (d.openBlock l).Clean mentioned := by
  intro b hb
  rw [blocks_openBlock] at hb
  rcases List.mem_append.1 hb with hb | hb
  · exact h b hb
  · cases List.mem_singleton.1 hb
    exact Block.clean_empty hl

theorem Clean.close (h : d.Clean mentioned) (ht : (Node.term t).Spelled) :
    Clean mentioned ⟨d.finished, d.current.map (closeWith t)⟩ := by
  intro b hb
  rcases List.mem_append.1 hb with hb | hb
  · exact h b (List.mem_append_left _ hb)
  · obtain ⟨c, hc, rfl⟩ := Option.map_eq_some_iff.1 (Option.mem_toList.1 hb)
    exact (h c (List.mem_append_right _ (Option.mem_toList.2 hc))).close ht

theorem Clean.replace {fin : List Block} {b b' : Block} (h : Clean mentioned ⟨fin, some b⟩)
    (hb' : b'.Clean mentioned) : Clean mentioned ⟨fin, some b'⟩ := by
  intro c hc
  rcases mem_blocks_current.1 hc with hc | rfl
  · exact h c (mem_blocks_current.2 (.inl hc))
  · exact hb'

theorem spelled_jump (hl : isName l = true) : (Node.term (.jump l)).Spelled :=
  Node.spelled_of (fun d hd => by cases hd) (List.forall_mem_nil _) (List.forall_mem_singleton.2 hl)
    (List.forall_mem_nil _)

theorem spelled_ret : (Node.term (.ret none)).Spelled :=
  Node.spelled_of (fun d hd => by cases hd) (List.forall_mem_nil _) (List.forall_mem_nil _)
    (List.forall_mem_nil _)

theorem Clean.startLabel (h : d.Clean mentioned) (hl : isName l = true)
    (hd' : d.startLabel l mark = .ok d') : d'.Clean mentioned := by
  unfold Draft.startLabel at hd'
  split at hd'
  · cases hd'
  · cases hd'
    exact (h.close (spelled_jump hl)).openBlock hl

theorem isName_freshName (d : Draft) (labels : List Label) (h : isName base = true) :
    isName (d.freshName labels base) = true := isName_firstFree h _

theorem Clean.withOpenBlock (h : d.Clean mentioned) (labels : List Label) :
    ∃ fin b, d.withOpenBlock labels = (⟨fin, some b⟩, b) ∧ Clean mentioned ⟨fin, some b⟩ := by
  obtain ⟨fin, current⟩ := d
  unfold Draft.withOpenBlock
  cases current with
  | none => exact ⟨fin, _, rfl, h.openBlock (isName_freshName _ labels (by decide))⟩
  | some b =>
    simp only
    split
    · refine ⟨_, _, rfl, h.openBlock (isName_freshName _ labels ?_)⟩
      have hname := (h b (mem_blocks_current.2 (.inr rfl))).name
      refine isName_append (isWord_of_isName hname) (List.all_eq_true.1 ?_) (.inl ?_)
      all_goals decide
    · exact ⟨fin, b, rfl, h⟩

theorem Clean.addNode (h : d.Clean mentioned) (hn : n.Spelled)
    (hlabels : ∀ l ∈ n.labels, l ∈ mentioned) (hd' : d.addNode labels n mark = .ok d') :
    d'.Clean mentioned := by
  obtain ⟨fin, b, heq, hopen⟩ := h.withOpenBlock labels
  have hb := hopen b (mem_blocks_current.2 (.inr rfl))
  unfold Draft.addNode at hd'
  rw [heq] at hd'
  cases n with
  | term t =>
    cases hd'
    exact hopen.replace (hb.setTerm hn)
  | instr i =>
    simp only at hd'
    split at hd'
    · cases hd'
    · rename_i hlate
      cases hd'
      refine hopen.replace (hb.addInstr hn hlabels fun hi j hj => ?_)
      simp only [hi, Bool.true_and, Bool.not_eq_true, List.any_eq_false] at hlate
      simpa using hlate j hj

theorem Clean.addItems (h : d.Clean mentioned) (hspelled : ∀ item ∈ items, item.line.Spelled)
    (hmentions : ∀ item ∈ items, item.MentionsLabels)
    (hmentioned : ∀ l ∈ (mentionedLabels items).map Prod.fst, l ∈ mentioned)
    (hd' : d.addItems labels items = .ok d') : d'.Clean mentioned := by
  induction items generalizing d with
  | nil =>
    cases hd'
    exact h
  | cons item items ih =>
    obtain ⟨d₁, hd₁, hd'⟩ := bind_eq_ok.1 hd'
    unfold mentionedLabels at hmentioned
    rw [List.flatMap_cons, List.map_append, List.forall_mem_append] at hmentioned
    refine ih ?_ (fun i hi => hspelled i (.tail _ hi)) (fun i hi => hmentions i (.tail _ hi))
      hmentioned.2 hd'
    cases item with
    | label l mark => exact h.startLabel (hspelled _ (.head _)) hd₁
    | statement n mark targets =>
      refine h.addNode (hspelled _ (.head _)) (fun l hl => hmentioned.1 l ?_) hd₁
      have heq : targets.map Prod.fst = n.labels := hmentions _ (.head _)
      exact heq ▸ hl

theorem Clean.finish (h : d.Clean mentioned) (labels : List Label) :
    (d.finish labels).Clean mentioned := by
  unfold Draft.finish
  dsimp only
  refine Clean.close ?_ spelled_ret
  split
  · exact h.openBlock (isName_freshName d labels (by decide))
  · exact h

end Text.Draft

end ThreeAddress
