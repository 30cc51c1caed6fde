import ThreeAddress.Proofs.PrintedText
import ThreeAddress.Text.Grammar

/-!
# Reading printed lines

The tokens of a part of a program are read as that part: operands, lists, then each kind of line
(`readItem_tokens`), functions and whole programs (`readSource_tokens`).
-/

namespace ThreeAddress

open Text

variable {x : Operand} {args : List Operand} {i : Instr} {fuel : Nat} {d : Var} {α : Type}
  {f : Func}

/-- The line that an item stands for. -/
def Text.Item.line : Item → Line
  | .label l _ => .label l
  | .statement n _ _ => .node n

/-- What the line mentions can be written. -/
def Line.Spelled : Line → Prop
  | label l => isName l = true
  | node n => n.Spelled

/-- The text is that of the function. -/
structure Text.FunctionText.Shows (t : FunctionText) (f : Func) : Prop where
  name : t.name = f.name
  params : t.params = f.params
  items : t.items.map Item.line = f.source

/-! ## Operands and lists -/

theorem varOf?_ofVar {v : Var} (h : v.Spelled) : varOf? (.ofVar v) = some v := by
  obtain ⟨x, version⟩ := v
  cases version with
  | none => rfl
  | some n =>
    obtain ⟨k, rfl⟩ := Int.eq_ofNat_of_zero_le h.2
    rfl

theorem operandOf?_ofOperand (h : x.Spelled) : operandOf? (.ofOperand x) = some x := by
  cases x with
  | const n => rfl
  | undefined => rfl
  | var v =>
    have hv := varOf?_ofVar (h v rfl)
    obtain ⟨y, version⟩ := v
    cases version with
    | none => rfl
    | some n =>
      rw [Token.ofOperand]
      exact congrArg (Option.map Operand.var) hv

theorem ofOperand_ne (h : x.Spelled) {t : Token} (ht : operandOf? t = none) :
    Token.ofOperand x ≠ t := by
  rintro rfl
  rw [operandOf?_ofOperand h] at ht
  cases ht

theorem expect_self (t : Token) (ts : List Token) : expect t (t :: ts) = .ok ts := if_pos rfl

theorem readOperand_ofOperand (h : x.Spelled) (ts : List Token) :
    readOperand (.ofOperand x :: ts) = .ok (x, ts) := by
  simp only [readOperand, operandOf?_ofOperand h]

theorem commaTokens_map_cons (g : α → List Token) (a : α) (l : List α) :
    commaTokens ((a :: l).map g) = g a ++ l.flatMap fun b => .comma :: g b := by
  unfold commaTokens
  induction l generalizing a with
  | nil => simp
  | cons b l ih =>
    rw [List.map_cons, List.map_cons, List.intercalate_cons_cons, ← List.map_cons, ih,
      List.flatMap_cons]
    simp

variable {ts : List Token}

theorem readPhiArg_tokens {a : PhiArg} (h : a.value.Spelled) (ts : List Token) :
    ∃ marked, readPhiArg (a.tokens ++ ts) = .ok (marked, ts) ∧ marked.1 = a := by
  simp only [PhiArg.tokens, List.cons_append, List.nil_append, readPhiArg, readName, expect_self,
    bind, Except.bind, readOperand_ofOperand h]
  exact ⟨_, rfl, rfl⟩

section Lists

variable {β : Type} {read : List Token → Except Mark (β × List Token)} {value : β → α}
  {tokens : α → List Token} {close : Token} {l : List α}

theorem readMore_tokens (hclose : close ≠ .comma)
    (h : ∀ a ∈ l, ∀ ts, ∃ b, read (tokens a ++ ts) = .ok (b, ts) ∧ value b = a) (ts : List Token)
    (hfuel : ((l.flatMap fun a => .comma :: tokens a) ++ close :: ts).length ≤ fuel) :
    ∃ l', readMore read close fuel ((l.flatMap fun a => .comma :: tokens a) ++ close :: ts)
        = .ok (l', ts) ∧ l'.map value = l := by
  induction fuel generalizing l with
  | zero => simp at hfuel
  | succ fuel ih =>
    cases l with
    | nil => exact ⟨[], if_pos rfl, rfl⟩
    | cons a l =>
      obtain ⟨b, hb, rfl⟩ := h a (.head _)
        ((l.flatMap fun a => .comma :: tokens a) ++ close :: ts)
      simp only [List.flatMap_cons, List.cons_append, List.append_assoc, List.length_cons,
        List.length_append] at hfuel ⊢
      obtain ⟨l', hl', rfl⟩ := ih (fun c hc => h c (.tail _ hc))
        (by simp only [List.length_append, List.length_cons]; omega)
      refine ⟨b :: l', ?_, rfl⟩
      rw [readMore, List.head?_cons, if_neg fun heq => hclose (Option.some.inj heq).symm]
      simp only [expect_self, bind, Except.bind, hb, hl']
      rfl

/-- A list is read back if its members are, and none of them starts with the closing token. -/
theorem readList_tokens (hclose : close ≠ .comma)
    (hhead : ∀ a ∈ l, ∀ ts, (tokens a ++ ts).head? ≠ some close)
    (h : ∀ a ∈ l, ∀ ts, ∃ b, read (tokens a ++ ts) = .ok (b, ts) ∧ value b = a) :
    ∃ l', readList read close (commaTokens (l.map tokens) ++ close :: ts) = .ok (l', ts) ∧
      l'.map value = l := by
  cases l with
  | nil => exact ⟨[], if_pos rfl, rfl⟩
  | cons a l =>
    obtain ⟨b, hb, rfl⟩ := h a (.head _)
      ((l.flatMap fun a => .comma :: tokens a) ++ close :: ts)
    obtain ⟨l', hl', rfl⟩ :=
      readMore_tokens hclose (fun c hc => h c (.tail _ hc)) ts (Nat.le_refl _)
    refine ⟨b :: l', ?_, rfl⟩
    rw [commaTokens_map_cons, List.append_assoc, readList, if_neg (hhead _ (.head _) _)]
    simp only [bind, Except.bind, hb, hl']
    rfl

theorem readList_tokens_self {read : List Token → Except Mark (α × List Token)}
    (hclose : close ≠ .comma) (hhead : ∀ a ∈ l, ∀ ts, (tokens a ++ ts).head? ≠ some close)
    (h : ∀ a ∈ l, ∀ ts, read (tokens a ++ ts) = .ok (a, ts)) :
    readList read close (commaTokens (l.map tokens) ++ close :: ts) = .ok (l, ts) := by
  obtain ⟨l', hl', hl⟩ := readList_tokens hclose hhead fun a ha ts => ⟨a, h a ha ts, id_eq a⟩
  rw [hl', ← hl, List.map_id]

end Lists

theorem readNames_tokens (names : List String) :
    readList readName .rparen (commaTokens (names.map fun x => [.name x]) ++ .rparen :: ts)
      = .ok (names, ts) :=
  readList_tokens_self Token.noConfusion
    (fun _ _ _ heq => Token.noConfusion (Option.some.inj heq)) fun _ _ _ => rfl

theorem readArgs_tokens (h : ∀ x ∈ args, x.Spelled) :
    readList readOperand .rparen (commaTokens (args.map fun x => [.ofOperand x]) ++ .rparen :: ts)
      = .ok (args, ts) :=
  readList_tokens_self Token.noConfusion
    (fun x hx _ heq => ofOperand_ne (h x hx) rfl (Option.some.inj heq))
    fun x hx => readOperand_ofOperand (h x hx)

theorem readPhiArgs_tokens {args : List PhiArg} (h : ∀ a ∈ args, a.value.Spelled)
    (ts : List Token) :
    ∃ marked, readList readPhiArg .rbracket (commaTokens (args.map PhiArg.tokens) ++
      .rbracket :: ts)
      = .ok (marked, ts) ∧ marked.map Prod.fst = args :=
  readList_tokens Token.noConfusion (fun _ _ _ heq => Token.noConfusion (Option.some.inj heq))
    fun a ha => readPhiArg_tokens (h a ha)

/-! ## Lines -/

theorem readCall_tokens {callee : String} (h : ∀ x ∈ args, x.Spelled) :
    readCall (.name callee :: .lparen :: (commaTokens (args.map fun x => [.ofOperand x]) ++
      .rparen :: ts))
      = .ok ((callee, args), ts) := by
  simp only [readCall, readName, expect_self, bind, Except.bind, readArgs_tokens h]
  rfl

/-- An assignment is read if its right-hand side is. -/
theorem readItem_assign (hd : d.Spelled) {rhs : List Token}
    (hrhs : ∃ targets, readRhs d rhs = .ok ((i, targets), .newline :: ts)) :
    ∃ item, readItem (.ofVar d :: .equals :: rhs) = .ok (item, ts) ∧
      item.line = .node (.instr i) := by
  obtain ⟨targets, hrhs⟩ := hrhs
  have hvar := varOf?_ofVar hd
  obtain ⟨x, version⟩ := d
  cases version with
  | none =>
    simp only [Token.ofVar, readItem, varOf?, expect_self, bind, Except.bind, hrhs]
    exact ⟨_, rfl, rfl⟩
  | some n =>
    simp only [Token.ofVar] at hvar ⊢
    simp only [readItem, hvar, expect_self, bind, Except.bind, hrhs]
    exact ⟨_, rfl, rfl⟩

/-- A name with an operand after it is an operation. -/
theorem readRhs_operation {op : String} (hx : x.Spelled) {rest : List Token}
    (h : readOperation d op (.ofOperand x :: ts) = .ok (i, rest)) :
    ∃ targets, readRhs d (.name op :: .ofOperand x :: ts) = .ok ((i, targets), rest) := by
  rw [readRhs, h]
  · exact ⟨[], rfl⟩
  · intro more heq
    exact ofOperand_ne hx rfl (List.cons.inj heq).1

theorem readRhs_copy (hx : x.Spelled) :
    ∃ targets, readRhs d (.ofOperand x :: .newline :: ts) = .ok ((.copy d x, targets),
      .newline :: ts) := by
  have hread := readOperand_ofOperand hx (.newline :: ts)
  cases x with
  | const n => exact ⟨[], rfl⟩
  | undefined => exact ⟨[], rfl⟩
  | var v =>
    obtain ⟨y, version⟩ := v
    cases version with
    | none => exact ⟨[], rfl⟩
    | some n =>
      simp only [Token.ofOperand, Token.ofVar] at hread ⊢
      simp only [readRhs, hread]
      exact ⟨[], rfl⟩

theorem readItem_instr (h : (Node.instr i).Spelled) :
    ∃ item, readItem (i.tokens ++ .newline :: ts) = .ok (item, ts) ∧
      item.line = .node (.instr i) := by
  cases i with
  | binary d op l r =>
    have hl : l.Spelled := h.operand (.head _)
    have hr : r.Spelled := h.operand (.tail _ (.head _))
    simp only [Instr.tokens, List.cons_append, List.nil_append]
    refine readItem_assign (h.dest rfl) (readRhs_operation hl ?_)
    simp only [readOperation, readOperand_ofOperand hl, readOperand_ofOperand hr, bind, Except.bind]
    rfl
  | unary d op x =>
    have hx : x.Spelled := h.operand (.head _)
    simp only [Instr.tokens, List.cons_append, List.nil_append]
    refine readItem_assign (h.dest rfl) (readRhs_operation hx ?_)
    simp only [readOperation, readOperand_ofOperand hx, bind, Except.bind]
    rfl
  | copy d x => exact readItem_assign (h.dest rfl) (readRhs_copy (h.operand (.head _)))
  | load d a =>
    have ha : a.Spelled := h.operand (.head _)
    simp only [Instr.tokens, List.cons_append, List.nil_append]
    refine readItem_assign (h.dest rfl) ⟨[], ?_⟩
    simp only [readRhs, readOperand_ofOperand ha]
    rfl
  | store a v =>
    have ha : a.Spelled := h.operand (.head _)
    have hv : v.Spelled := h.operand (.tail _ (.head _))
    simp only [Instr.tokens, List.cons_append, List.nil_append, readItem, readKeyword,
      readOperand_ofOperand ha, readOperand_ofOperand hv, expect_self, bind, Except.bind]
    exact ⟨_, rfl, rfl⟩
  | call d g args =>
    have hcall : readCall (.name g :: .lparen :: (commaTokens (args.map fun x => [.ofOperand x]) ++
        .rparen :: .newline :: ts))
        = .ok ((g, args), .newline :: ts) := readCall_tokens fun x hx => h.operand hx
    cases d with
    | none =>
      simp only [Instr.tokens, callTokens, List.cons_append, List.append_assoc, List.nil_append,
        readItem, readKeyword, hcall]
      exact ⟨_, rfl, rfl⟩
    | some d =>
      simp only [Instr.tokens, callTokens, List.cons_append, List.append_assoc, List.nil_append]
      refine readItem_assign (h.dest rfl) ⟨[], ?_⟩
      simp only [readRhs, hcall]
      rfl
  | read d => exact readItem_assign (h.dest rfl) ⟨[], rfl⟩
  | write v =>
    have hv : v.Spelled := h.operand (.head _)
    simp only [Instr.tokens, List.cons_append, List.nil_append, readItem, readKeyword,
      readOperand_ofOperand hv]
    exact ⟨_, rfl, rfl⟩
  | phi φ =>
    have hargs : ∀ a ∈ φ.incoming, a.value.Spelled := fun a ha => h.operand (List.mem_map_of_mem ha)
    obtain ⟨marked, hread, heq⟩ := readPhiArgs_tokens hargs (.newline :: ts)
    simp only [Instr.tokens, List.cons_append, List.append_assoc, List.nil_append]
    refine readItem_assign (h.dest rfl) ⟨marked.map fun a => (a.1.block, a.2), ?_⟩
    simp only [readRhs, expect_self, hread, bind, Except.bind]
    rw [heq]
    rfl

theorem readItem_term {t : Terminator} (h : (Node.term t).Spelled) :
    ∃ item, readItem (t.tokens ++ .newline :: ts) = .ok (item, ts) ∧
      item.line = .node (.term t) := by
  cases t with
  | jump l => exact ⟨_, rfl, rfl⟩
  | branch c l r =>
    have hc : c.Spelled := h.operand (.head _)
    simp only [Terminator.tokens, List.cons_append, List.nil_append, readItem, readKeyword,
      readOperand_ofOperand hc, readName, expect_self, bind, Except.bind]
    exact ⟨_, rfl, rfl⟩
  | ret v =>
    cases v with
    | none => exact ⟨_, rfl, rfl⟩
    | some v =>
      have hv : v.Spelled := h.operand (.head _)
      have hret : readKeyword ((Token.ofOperand v :: .newline :: ts).length + 1) .ret
          (.ofOperand v :: .newline :: ts) =
          .ok ((.term (.ret (some v)), []), .newline :: ts) := by
        rw [readKeyword, readOperand_ofOperand hv]
        · rfl
        · intro more heq
          exact ofOperand_ne hv rfl (List.cons.inj heq).1
      simp only [Terminator.tokens, List.cons_append, List.nil_append, readItem, hret, expect_self,
        bind, Except.bind]
      exact ⟨_, rfl, rfl⟩

/-- A line is read as it is. -/
theorem readItem_tokens {line : Line} (h : line.Spelled) (ts : List Token) :
    ∃ item, readItem (line.tokens ++ .newline :: ts) = .ok (item, ts) ∧ item.line = line := by
  cases line with
  | label l => exact ⟨_, rfl, rfl⟩
  | node n =>
    cases n with
    | instr i => exact readItem_instr h
    | term t => exact readItem_term h

/-! ## Functions and programs -/

theorem readItems_tokens {lines : List Line} (h : ∀ line ∈ lines, line.Spelled)
    (hfuel : lines.length < fuel) (ts : List Token) :
    ∃ items, readItems fuel (lineTokens lines ++ .rbrace :: ts) = .ok (items, ts) ∧
      items.map Item.line = lines := by
  induction lines generalizing fuel with
  | nil =>
    obtain ⟨fuel, rfl⟩ := Nat.exists_eq_succ_of_ne_zero (Nat.ne_of_gt hfuel)
    exact ⟨[], rfl, rfl⟩
  | cons line lines ih =>
    obtain ⟨fuel, rfl⟩ := Nat.exists_eq_succ_of_ne_zero (Nat.ne_of_gt (Nat.zero_lt_of_lt hfuel))
    obtain ⟨items, hitems, hlines⟩ :=
      ih (fun l hl => h l (.tail _ hl)) (Nat.lt_of_succ_lt_succ hfuel)
    obtain ⟨item, hitem, hline⟩ := readItem_tokens (h line (.head _)) (lineTokens lines ++
      .rbrace :: ts)
    refine ⟨item :: items, ?_, by rw [List.map_cons, hline, hlines]⟩
    have htokens : lineTokens (line :: lines) ++ .rbrace :: ts
        = line.tokens ++ .newline :: (lineTokens lines ++ .rbrace :: ts) := by
      simp [lineTokens]
    rw [htokens, readItems, hitem]
    · simp only [bind, Except.bind, hitems]
      rfl
    · intro more heq
      obtain ⟨t, rest, htokens, _, hne⟩ := line.tokens_eq_cons
      rw [htokens] at heq
      exact hne (List.cons.inj heq).1

/-- Each line end counts. -/
theorem length_le_flatMap (g : α → List Token) (l : List α) :
    l.length ≤ (l.flatMap fun a => g a ++ [.newline]).length := by
  induction l with
  | nil => exact Nat.le_refl _
  | cons a l ih =>
    simp only [List.flatMap_cons, List.length_append, List.length_cons, List.length_nil] at ih ⊢
    omega

theorem Func.Spelled.source (h : f.Spelled) : ∀ line ∈ f.source, line.Spelled := by
  intro line hline
  obtain ⟨b, hb, hline⟩ := List.mem_flatMap.1 hline
  obtain ⟨l, hl⟩ := mem_printOrder.1 hb
  rcases List.mem_cons.1 hline with rfl | hline
  · exact (h.blocks hl).name
  · obtain ⟨n, hn, rfl⟩ := List.mem_map.1 hline
    exact (h.blocks hl).nodes n hn

theorem readFunction_tokens (h : f.Spelled) (ts : List Token) :
    ∃ t, readFunction (f.tokens ++ .newline :: ts) = .ok (t, ts) ∧ t.Shows f := by
  have hfuel : f.source.length < (lineTokens f.source ++ .rbrace :: .newline :: ts).length + 1 := by
    have hlength := length_le_flatMap Line.tokens f.source
    rw [List.length_append, lineTokens]
    omega
  obtain ⟨items, hitems, hlines⟩ := readItems_tokens h.source hfuel (.newline :: ts)
  simp only [Func.tokens, List.cons_append, List.append_assoc, List.nil_append, readFunction,
    expect_self, readName, readNames_tokens, hitems, bind, Except.bind]
  exact ⟨_, rfl, rfl, rfl, hlines⟩

theorem readFunctions_tokens {fs : List Func} (h : ∀ f ∈ fs, f.Spelled) (hfuel : fs.length < fuel) :
    ∃ texts, readFunctions fuel (fs.flatMap fun f => f.tokens ++ [.newline]) = .ok texts ∧
      List.Forall₂ FunctionText.Shows texts fs := by
  induction fs generalizing fuel with
  | nil =>
    obtain ⟨fuel, rfl⟩ := Nat.exists_eq_succ_of_ne_zero (Nat.ne_of_gt hfuel)
    exact ⟨[], rfl, .nil⟩
  | cons f fs ih =>
    obtain ⟨fuel, rfl⟩ := Nat.exists_eq_succ_of_ne_zero (Nat.ne_of_gt (Nat.zero_lt_of_lt hfuel))
    obtain ⟨texts, htexts, hshow⟩ :=
      ih (fun g hg => h g (.tail _ hg)) (Nat.lt_of_succ_lt_succ hfuel)
    obtain ⟨t, ht, hfirst⟩ := readFunction_tokens (h f (.head _)) (fs.flatMap fun f => f.tokens ++
      [.newline])
    refine ⟨t :: texts, ?_, .cons hfirst hshow⟩
    rw [List.flatMap_cons, List.append_assoc, List.singleton_append, readFunctions, ht]
    · simp only [bind, Except.bind, htexts]
      rfl
    · simp [Func.tokens]

/-- The tokens of a program are read as the texts of its functions. -/
theorem readSource_tokens {p : Program} (h : ∀ f ∈ p.functions.values, f.Spelled) :
    ∃ texts, readSource p.tokens = .ok texts ∧
      List.Forall₂ FunctionText.Shows texts p.functions.values := by
  unfold Program.tokens
  generalize p.functions.values = fs at h
  cases fs with
  | nil => exact ⟨[], rfl, .nil⟩
  | cons f fs =>
    refine readFunctions_tokens h (Nat.lt_succ_of_le ?_)
    exact length_le_flatMap Func.tokens (f :: fs)

end ThreeAddress
