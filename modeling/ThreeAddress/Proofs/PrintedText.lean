import Mathlib.Data.List.Forall2
import ThreeAddress.Proofs.Lexing
import ThreeAddress.Proofs.Tables
import ThreeAddress.Text.Printer

/-!
# The tokens of printed programs

Each part of a program has tokens, and where its names are names (`Node.Spelled`, `Block.Spelled`,
`Func.Spelled`), its text is cut into them (`lexes_render`).
-/

namespace ThreeAddress

open Text

variable {ts : List Token} {rest text : List Char} {b : Block} {x : Operand} {n : Node} {f : Func}
  {α : Type} {d : Var}

/-! ## Names -/

/-- The variable can be written: its name is a word, and a word that can be a name unless a version
follows. -/
def Var.Spelled (v : Var) : Prop :=
  match v.version with
  | none => isName v.name = true
  | some n => isWord v.name = true ∧ 0 ≤ n

/-- The labels that a node mentions. -/
def Node.labels : Node → List Label
  | instr (.phi φ) => φ.labels
  | term (.jump t) => [t]
  | term (.branch _ t e) => [t, e]
  | _ => []

/-- The names of operations and functions that a node mentions. -/
def Node.callees : Node → List String
  | instr (.binary _ op _ _) | instr (.unary _ op _) => [op]
  | instr (.call _ g _) => [g]
  | _ => []

/-- What the node mentions can be written. -/
structure Node.Spelled (n : Node) : Prop where
  vars : ∀ v ∈ n.vars, v.Spelled
  labels : ∀ l ∈ n.labels, isName l = true
  callees : ∀ g ∈ n.callees, isName g = true

structure Block.Spelled (b : Block) : Prop where
  name : isName b.name = true
  nodes : ∀ n ∈ b.nodes, n.Spelled
  preds : ∀ p ∈ b.preds, isName p = true

structure Func.Spelled (f : Func) : Prop where
  name : isName f.name = true
  params : ∀ x ∈ f.params, isName x = true
  blocks : ∀ {l b}, f.block? l = some b → b.Spelled

/-! ## Tokens -/

def Text.Token.ofVar (v : Var) : Token :=
  match v.version with
  | none => .name v.name
  | some n => .versioned v.name n.toNat

def Text.Token.ofOperand : Operand → Token
  | .const n => .int n
  | .var v => .ofVar v
  | .undefined => .keyword .undefined

/-- Tokens with commas between them. -/
def Text.commaTokens (tss : List (List Token)) : List Token := [Token.comma].intercalate tss

def PhiArg.tokens (a : PhiArg) : List Token := [.name a.block, .colon, .ofOperand a.value]

def callTokens (callee : String) (args : List Operand) : List Token :=
  .keyword .call :: .name callee :: .lparen :: commaTokens (args.map fun a => [.ofOperand a]) ++
    [.rparen]

def Instr.tokens : Instr → List Token
  | binary d op l r => [.ofVar d, .equals, .name op, .ofOperand l, .comma, .ofOperand r]
  | unary d op x => [.ofVar d, .equals, .name op, .ofOperand x]
  | copy d x => [.ofVar d, .equals, .ofOperand x]
  | load d a => [.ofVar d, .equals, .keyword .load, .ofOperand a]
  | store a v => [.keyword .store, .ofOperand a, .comma, .ofOperand v]
  | call none g args => callTokens g args
  | call (some d) g args => .ofVar d :: .equals :: callTokens g args
  | read d => [.ofVar d, .equals, .keyword .read]
  | write v => [.keyword .write, .ofOperand v]
  | phi φ => .ofVar φ.dest :: .equals :: .keyword .phi :: .lbracket
    :: commaTokens (φ.incoming.map PhiArg.tokens) ++ [.rbracket]

def Terminator.tokens : Terminator → List Token
  | jump t => [.keyword .jump, .name t]
  | branch c t e => [.keyword .branch, .ofOperand c, .comma, .name t, .comma, .name e]
  | ret none => [.keyword .ret]
  | ret (some v) => [.keyword .ret, .ofOperand v]

def Node.tokens : Node → List Token
  | instr i => i.tokens
  | term t => t.tokens

/-- A line of a function body. -/
inductive Line where
  | label (l : Label)
  | node (n : Node)

def Line.tokens : Line → List Token
  | label l => [.name l, .colon]
  | node n => n.tokens

/-- The lines of a block. -/
def Block.source (b : Block) : List Line := .label b.name :: b.nodes.map .node

/-- The lines of a function body. -/
def Func.source (f : Func) : List Line := f.printOrder.flatMap Block.source

/-- The tokens of lines, each with the line end. -/
def lineTokens (lines : List Line) : List Token := lines.flatMap fun l => l.tokens ++ [.newline]

/-- The tokens of a function, up to the closing brace. -/
def Func.tokens (f : Func) : List Token :=
  .keyword .function :: .name f.name :: .lparen :: commaTokens (f.params.map fun x => [.name x]) ++
    .rparen :: .lbrace :: .newline :: (lineTokens f.source ++ [.rbrace])

/-- The tokens of a program; its text ends with a line end even if there is no function. -/
def Program.tokens (p : Program) : List Token :=
  match p.functions.values with
  | [] => [.newline]
  | fs => fs.flatMap fun f => f.tokens ++ [.newline]

/-! ## Operands -/

theorem spells_renderInt (n : Int) : Spells (renderInt n).toList [.int n] := by
  cases n with
  | ofNat n => exact spells_nat n
  | negSucc n =>
    rw [renderInt, String.toList_append]
    exact spells_negative (n + 1)

theorem Var.Spelled.spells {v : Var} (h : v.Spelled) : Spells v.render.toList [.ofVar v] := by
  obtain ⟨x, version⟩ := v
  cases version with
  | none => exact spells_name h
  | some n =>
    obtain ⟨hx, hn⟩ := h
    obtain ⟨k, rfl⟩ := Int.eq_ofNat_of_zero_le hn
    have htext : (Var.render ⟨x, some (k : Int)⟩).toList = x.toList ++ '$' :: k.repr.toList := by
      simp only [Var.render, String.toList_append, List.append_assoc]
      rfl
    rw [htext]
    exact spells_versioned hx k

/-- What an operand mentions can be written. -/
def Operand.Spelled (x : Operand) : Prop := ∀ v, x = .var v → v.Spelled

theorem Operand.Spelled.spells (h : x.Spelled) : Spells x.render.toList [.ofOperand x] := by
  cases x with
  | const n => exact spells_renderInt n
  | var v => exact (h v rfl).spells
  | undefined => exact spells_word (x := "undef") rfl

/-- A list with commas between its items. -/
theorem spells_commaSeparated {text : α → String} {tokens : α → List Token} {l : List α}
    (h : ∀ a ∈ l, Spells (text a).toList (tokens a)) :
    Spells (commaSeparated (l.map text)).toList (commaTokens (l.map tokens)) := by
  unfold commaSeparated commaTokens
  rw [String.toList_intercalate]
  induction l with
  | nil => exact spells_nil
  | cons a l ih =>
    have hfirst := h a (.head _)
    have hrest := ih fun b hb => h b (List.mem_cons_of_mem a hb)
    cases l with
    | nil => simpa using hfirst
    | cons b l =>
      simp only [List.map_cons, List.intercalate_cons_cons] at hrest ⊢
      simp only [List.append_assoc]
      exact hfirst.append (hrest.space.symbol rfl) (stops_cons (by decide) _)

/-! ## Instructions and terminators -/

theorem PhiArg.spells {a : PhiArg} (hblock : isName a.block = true) (hvalue : a.value.Spelled) :
    Spells a.render.toList a.tokens := by
  simp only [PhiArg.render, String.toList_append, List.append_assoc]
  exact (spells_name hblock).append (hvalue.spells.space.symbol rfl) (stops_cons (by decide) _)

/-- A keyword and a blank. -/
theorem Text.Spells.afterWord (h : Spells text ts) (x : String) (hx : isWord x = true) :
    Spells (x.toList ++ ' ' :: text) (.ofWord x :: ts) :=
  (spells_word hx).append h.space (stops_cons (by decide) _)

theorem spells_renderCall {callee : String} {args : List Operand} (hcallee : isName callee = true)
    (hargs : ∀ a ∈ args, a.Spelled) :
    Spells (renderCall callee args).toList (callTokens callee args) := by
  have hlist : Spells (commaSeparated (args.map Operand.render)).toList
      (commaTokens (args.map fun a => [.ofOperand a])) :=
    spells_commaSeparated fun a ha => (hargs a ha).spells
  simp only [renderCall, String.toList_append, List.append_assoc]
  have hclosed := hlist.append (spells_nil.symbol (c := ')') rfl) (stops_cons (by decide) _)
  have hcall := (spells_name hcallee).append
    (hclosed.symbol (c := '(') rfl) (stops_cons (by decide) _)
  exact hcall.afterWord "call" rfl

/-- What an assignment puts into a variable. -/
theorem Text.Spells.assigned (h : Spells text ts) (hd : d.Spelled) :
    Spells (d.render.toList ++ (" = ".toList ++ text)) (.ofVar d :: .equals :: ts) :=
  hd.spells.append (h.space.symbol rfl).space (stops_cons (by decide) _)

theorem Text.Spells.comma {text' : List Char} {ts' : List Token} (h : Spells text ts)
    (h' : Spells text' ts') : Spells (text ++ (", ".toList ++ text')) (ts ++ .comma :: ts') :=
  h.append (h'.space.symbol rfl) (stops_cons (by decide) _)

theorem Node.Spelled.operand (h : n.Spelled) (hx : x ∈ n.uses) : x.Spelled := by
  rintro v rfl
  refine h.vars v (List.mem_append_right _ ?_)
  exact List.mem_filterMap.2 ⟨.var v, hx, rfl⟩

theorem Node.Spelled.dest (h : n.Spelled) (hd : n.dest? = some d) : d.Spelled :=
  h.vars d (List.mem_append_left _ (hd ▸ List.mem_singleton_self d))

theorem Instr.spells {i : Instr} (h : (Node.instr i).Spelled) :
    Spells i.render.toList i.tokens := by
  cases i with
  | binary d op l r =>
    have hop : isName op = true := h.callees op (.head _)
    have hl : l.Spelled := h.operand (.head _)
    have hr : r.Spelled := h.operand (.tail _ (.head _))
    simp only [Instr.render, String.toList_append, List.append_assoc]
    have hrhs := (hl.spells.comma hr.spells).afterWord op (isWord_of_isName hop)
    rw [ofWord_of_isName hop] at hrhs
    exact Spells.assigned hrhs (h.dest rfl)
  | unary d op x =>
    have hop : isName op = true := h.callees op (.head _)
    have hx : x.Spelled := h.operand (.head _)
    simp only [Instr.render, String.toList_append, List.append_assoc]
    have hrhs := hx.spells.afterWord op (isWord_of_isName hop)
    rw [ofWord_of_isName hop] at hrhs
    exact Spells.assigned hrhs (h.dest rfl)
  | copy d x =>
    simp only [Instr.render, String.toList_append, List.append_assoc]
    exact Spells.assigned (h.operand (.head _)).spells (h.dest rfl)
  | load d a =>
    simp only [Instr.render, String.toList_append, List.append_assoc]
    exact Spells.assigned ((h.operand (.head _)).spells.afterWord "load" rfl) (h.dest rfl)
  | store a v =>
    have ha : a.Spelled := h.operand (.head _)
    have hv : v.Spelled := h.operand (.tail _ (.head _))
    simp only [Instr.render, String.toList_append, List.append_assoc]
    exact (ha.spells.comma hv.spells).afterWord "store" rfl
  | call d g args =>
    have hcall := spells_renderCall (h.callees g (.head _)) fun a ha => h.operand ha
    cases d with
    | none => exact hcall
    | some d =>
      simp only [Instr.render, String.toList_append, List.append_assoc]
      exact Spells.assigned hcall (h.dest rfl)
  | read d =>
    simp only [Instr.render, String.toList_append]
    exact Spells.assigned (spells_word (x := "read") rfl) (h.dest rfl)
  | write v =>
    simp only [Instr.render, String.toList_append]
    exact (h.operand (.head _)).spells.afterWord "write" rfl
  | phi φ =>
    have hargs : Spells (commaSeparated (φ.incoming.map PhiArg.render)).toList
        (commaTokens (φ.incoming.map PhiArg.tokens)) :=
      spells_commaSeparated fun a ha => PhiArg.spells (h.labels a.block (List.mem_map_of_mem ha))
        (h.operand (List.mem_map_of_mem ha))
    have hclosed := hargs.append (spells_nil.symbol (c := ']') rfl) (stops_cons (by decide) _)
    simp only [Instr.render, String.toList_append, List.append_assoc]
    exact Spells.assigned ((hclosed.symbol (c := '[') rfl).afterWord "phi" rfl) (h.dest rfl)

theorem Terminator.spells {t : Terminator} (h : (Node.term t).Spelled) :
    Spells t.render.toList t.tokens := by
  cases t with
  | jump l =>
    simp only [Terminator.render, String.toList_append]
    exact (spells_name (h.labels l (.head _))).afterWord "jump" rfl
  | branch c l r =>
    have hl := spells_name (h.labels l (.head _))
    have hr := spells_name (h.labels r (.tail _ (.head _)))
    have hc : c.Spelled := h.operand (.head _)
    simp only [Terminator.render, String.toList_append, List.append_assoc]
    exact (hc.spells.comma (hl.comma hr)).afterWord "branch" rfl
  | ret v =>
    cases v with
    | none => exact spells_word (x := "return") rfl
    | some v =>
      simp only [Terminator.render, String.toList_append]
      exact (h.operand (.head _)).spells.afterWord "return" rfl

theorem Node.Spelled.spells (h : n.Spelled) : Spells n.render.toList n.tokens := by
  cases n with
  | instr i => exact Instr.spells h
  | term t => exact Terminator.spells h

/-! ## Lines -/

/-- The line and its end are cut into `ts` and a line end, if another line or the end of the text
follows. -/
def SpellsLine (line : String) (ts : List Token) : Prop :=
  ∀ rest ts', ts'.head? ≠ some .newline → Lexes rest ts' →
    Lexes (line.toList ++ '\n' :: rest) (ts ++ .newline :: ts')

theorem Text.Spells.line {line : String} (h : Spells line.toList ts) : SpellsLine line ts :=
  fun _ _ hne hlexes => h _ _ (stops_cons (by decide) _) (hlexes.newline (hlexes.opens hne))

/-- A list of names has no line end in it. -/
theorem newline_not_mem_commaSeparated {names : List String} (h : ∀ x ∈ names, isName x = true) :
    '\n' ∉ (commaSeparated names).toList := by
  unfold commaSeparated
  rw [String.toList_intercalate]
  induction names with
  | nil => exact List.not_mem_nil
  | cons x names ih =>
    have hx : '\n' ∉ x.toList := by
      obtain ⟨c, cs, heq, _, hcs⟩ := isWord_iff.1 (isWord_of_isName (h x (.head _)))
      rw [heq]
      exact fun hmem => absurd (hcs _ hmem) (by decide)
    have hrest := ih fun y hy => h y (List.mem_cons_of_mem x hy)
    cases names with
    | nil => simpa using hx
    | cons y names =>
      simp only [List.map_cons, List.intercalate_cons_cons, List.mem_append, not_or] at hrest ⊢
      exact ⟨⟨hx, by decide⟩, hrest⟩

theorem Block.Spelled.header (h : b.Spelled) (showPreds : Bool) :
    SpellsLine (b.header showPreds) [.name b.name, .colon] := by
  unfold Block.header
  split
  · -- The names of the predecessors stand in a comment, which ends with the line.
    have hcomment : '\n' ∉ " preds: ".toList ++ (commaSeparated b.preds).toList := by
      rw [List.mem_append, not_or]
      exact ⟨by decide, newline_not_mem_commaSeparated h.preds⟩
    intro rest ts' hne hlexes
    have hline := hlexes.comment (hlexes.opens hne) hcomment
    have hcolon := ((hline.blank (c := ' ') rfl).blank (c := ' ') rfl).of_token
      (scan_symbol (c := ':') rfl _)
    simp only [String.toList_append, List.append_assoc] at hcolon ⊢
    exact spells_name h.name _ _ (stops_cons (by decide) _) hcolon
  · refine Spells.line ?_
    rw [String.toList_append]
    exact (spells_name h.name).append (spells_nil.symbol (c := ':') rfl) (stops_cons (by decide) _)

theorem ofVar_cases (v : Var) :
    (∃ x, Token.ofVar v = .name x) ∨ ∃ x n, Token.ofVar v = .versioned x n := by
  unfold Token.ofVar
  split
  · exact .inl ⟨_, rfl⟩
  · exact .inr ⟨_, _, rfl⟩

/-- A line starts with a word. -/
theorem Line.tokens_eq_cons (line : Line) :
    ∃ t more, line.tokens = t :: more ∧ t ≠ .newline ∧ t ≠ .rbrace := by
  have hvar : ∀ v more, ∃ t more', Token.ofVar v :: more = t :: more' ∧ t ≠ .newline ∧
      t ≠ .rbrace := by
    intro v more
    rcases ofVar_cases v with ⟨x, h⟩ | ⟨x, n, h⟩
    · exact ⟨_, _, rfl, by rw [h]; exact Token.noConfusion, by rw [h]; exact Token.noConfusion⟩
    · exact ⟨_, _, rfl, by rw [h]; exact Token.noConfusion, by rw [h]; exact Token.noConfusion⟩
  have hkeyword : ∀ k more, ∃ t more', Token.keyword k :: more = t :: more' ∧ t ≠ .newline ∧
      t ≠ .rbrace :=
    fun k more => ⟨_, _, rfl, Token.noConfusion, Token.noConfusion⟩
  cases line with
  | label l => exact ⟨_, _, rfl, Token.noConfusion, Token.noConfusion⟩
  | node n =>
    rcases n with i | t
    · cases i with
      | call d g args =>
        cases d with
        | none => exact hkeyword _ _
        | some d => exact hvar _ _
      | store a v => exact hkeyword _ _
      | write v => exact hkeyword _ _
      | _ => exact hvar _ _
    · cases t with
      | ret v =>
        cases v with
        | none => exact hkeyword _ _
        | some v => exact hkeyword _ _
      | _ => exact hkeyword _ _

theorem head_lineTokens {lines : List Line} (h : ts.head? ≠ some .newline) :
    (lineTokens lines ++ ts).head? ≠ some .newline := by
  cases lines with
  | nil => exact h
  | cons line lines =>
    obtain ⟨t, more, heq, hne, _⟩ := line.tokens_eq_cons
    rw [lineTokens, List.flatMap_cons, heq]
    exact fun he => hne (Option.some.inj he)

/-- Lines are cut one after the other. -/
theorem lexes_lines {texts : List String} {lines : List Line}
    (h : List.Forall₂ (fun s l => SpellsLine s (Line.tokens l)) texts lines)
    (hne : ts.head? ≠ some .newline) (hrest : Lexes rest ts) :
    Lexes (texts.flatMap (fun s => s.toList ++ ['\n']) ++ rest) (lineTokens lines ++ ts) := by
  induction h with
  | nil => exact hrest
  | cons hline _ ih =>
    have hnext := hline _ _ (head_lineTokens hne) ih
    simpa [lineTokens] using hnext

theorem Block.Spelled.lines (h : b.Spelled) (showPreds : Bool) :
    List.Forall₂ (fun s l => SpellsLine s (Line.tokens l)) (b.lines showPreds) b.source := by
  refine .cons (h.header showPreds) ?_
  rw [List.forall₂_map_left_iff, List.forall₂_map_right_iff]
  refine List.forall₂_same.2 fun n hn => Spells.line ?_
  rw [String.toList_append]
  exact (h.nodes n hn).spells.blank rfl

/-! ## Functions and programs -/

theorem intercalate_concat (sep : List α) (l : List (List α)) (a : List α) :
    sep.intercalate (l ++ [a]) = l.flatMap (· ++ sep) ++ a := by
  induction l with
  | nil => simp
  | cons b l ih =>
    rw [List.cons_append, List.intercalate_cons_of_ne_nil (by simp), ih]
    simp

theorem Func.Spelled.header (h : f.Spelled) : Spells f.header.toList
    (.keyword .function :: .name f.name :: .lparen :: commaTokens (f.params.map fun x => [.name x])
      ++ [.rparen, .lbrace]) := by
  have hparams : Spells (commaSeparated f.params).toList
      (commaTokens (f.params.map fun x => [.name x])) := by
    have hnames : ∀ x ∈ f.params, Spells (id x).toList [Token.name x] :=
      fun x hx => spells_name (h.params x hx)
    simpa using spells_commaSeparated hnames
  have hopen : Spells [')', ' ', '\x7b'] [.rparen, .lbrace] :=
    (spells_nil.symbol rfl).space.symbol rfl
  have hlist := (hparams.append hopen (stops_cons (by decide) _)).symbol (c := '(') rfl
  have hname := ((spells_name h.name).append hlist (stops_cons (by decide) _)).afterWord "function"
    rfl
  simp only [Func.header, String.toList_append, List.append_assoc]
  exact hname

theorem Func.mem_printOrder : b ∈ f.printOrder ↔ ∃ l, f.block? l = some b := by
  constructor
  · intro hb
    rcases List.mem_append.1 hb with hb | hb
    · exact ⟨f.entry, Option.mem_toList.1 hb⟩
    · obtain ⟨l, hl⟩ := Table.mem_values.1 hb
      rw [Table.get?_erase] at hl
      split at hl
      · cases hl
      · exact ⟨l, hl⟩
  · rintro ⟨l, hl⟩
    by_cases he : l = f.entry
    · exact List.mem_append_left _ (Option.mem_toList.2 (he ▸ hl))
    · refine List.mem_append_right _ (Table.mem_values.2 ⟨l, ?_⟩)
      rw [Table.get?_erase, if_neg he]
      exact hl

/-- The text of a function is cut into its tokens, whatever follows. -/
theorem Func.Spelled.lexes (h : f.Spelled) (showPreds : Bool) (hrest : Lexes rest ts) :
    Lexes ((f.render showPreds).toList ++ rest) (f.tokens ++ ts) := by
  have hbody : List.Forall₂ (fun s l => SpellsLine s (Line.tokens l)) (f.printOrder.flatMap fun b =>
      b.lines showPreds)
      f.source := by
    have hall : ∀ b ∈ f.printOrder, b.Spelled := fun b hb =>
      let ⟨_, hl⟩ := mem_printOrder.1 hb
      h.blocks hl
    unfold Func.source
    generalize f.printOrder = blocks at hall
    induction blocks with
    | nil => exact .nil
    | cons b blocks ih =>
      rw [List.flatMap_cons, List.flatMap_cons]
      exact List.rel_append ((hall b (.head _)).lines showPreds) (ih fun c hc =>
        hall c (.tail _ hc))
  have hclose : Lexes ('\x7d' :: rest) (.rbrace :: ts) := hrest.of_token (scan_symbol rfl _)
  have hlines := lexes_lines hbody (by simp) hclose
  have hall := h.header.line _ _ (head_lineTokens (by simp)) hlines
  have htext : (f.render showPreds).toList ++ rest = f.header.toList ++ '\n' ::
      ((f.printOrder.flatMap fun b => b.lines showPreds).flatMap (fun s => s.toList ++ ['\n']) ++
        '\x7d' :: rest) := by
    simp only [Func.render, Func.lines, String.toList_intercalate, List.map_append, List.map_cons,
      List.map_nil]
    rw [intercalate_concat]
    simp [List.flatMap_map]
  rw [htext]
  simpa [Func.tokens] using hall

/-- The text of a program is cut into its tokens. -/
theorem lexes_render {p : Program} (h : ∀ f ∈ p.functions.values, f.Spelled) (showPreds : Bool) :
    Lexes (p.render showPreds).toList p.tokens := by
  unfold Program.render Program.tokens
  rw [String.toList_append, String.toList_intercalate]
  generalize p.functions.values = fs at h
  induction fs with
  | nil => exact lexes_nil.newline rfl
  | cons f fs ih =>
    have hf := h f (.head _)
    have hfs := ih fun g hg => h g (.tail _ hg)
    cases fs with
    | nil => simpa using hf.lexes showPreds (lexes_nil.newline rfl)
    | cons g gs =>
      have hopens := hfs.opens (by simp [Func.tokens])
      show Lexes _ (List.flatMap _ (f :: g :: gs))
      rw [List.flatMap_cons, List.append_assoc]
      simp only [List.map_cons, List.intercalate_cons_cons, List.append_assoc] at hfs ⊢
      exact hf.lexes showPreds (hfs.emptyLine hopens)

end ThreeAddress
