import ThreeAddress.Text.Token

/-!
# Cutting up texts

What a word, a numeral or a symbol is cut into does not depend on what follows, if that does not go
on with the word (`Stops`). `Spells` says so of a piece of text, and pieces are put together with
one lemma for each kind of token. Conversely, the words that a text is cut into are names
(`spelled_lex`).
-/

namespace ThreeAddress.Text

variable {c : Char} {y : String}

/-! ## Fuel -/

theorem length_dropWhile_le (p : Char → Bool) (cs : List Char) :
    (cs.dropWhile p).length ≤ cs.length :=
  (List.dropWhile_sublist p).length_le

theorem length_afterLineEnd? {cs rest : List Char} (h : afterLineEnd? cs = some rest) :
    rest.length < cs.length := by
  unfold afterLineEnd? at h
  split at h
  · cases h
    exact Nat.lt_succ_of_le (length_dropWhile_le _ _)
  · cases h
    exact Nat.lt_succ_of_le (Nat.le_succ_of_le (length_dropWhile_le _ _))
  · split at h
    · cases h
    · rename_i more _ _ line hline
      cases h
      have hle := length_dropWhile_le (· ≠ '\n') more
      have hblank := length_dropWhile_le isBlank line
      rw [hline, List.length_cons] at hle
      rw [List.length_cons]
      omega
  · cases h

theorem length_afterLineEnds (fuel : Nat) (cs : List Char) :
    (afterLineEnds fuel cs).length ≤ cs.length := by
  induction fuel generalizing cs with
  | zero => exact Nat.le_refl _
  | succ fuel ih =>
    unfold afterLineEnds
    split
    · rename_i rest hrest
      exact Nat.le_trans (ih rest) (Nat.le_of_lt (length_afterLineEnd? hrest))
    · exact Nat.le_refl _

/-- What is left is shorter. -/
def Scan.Shortens (cs : List Char) : Scan → Prop
  | .token _ rest | .skip rest => rest.length < cs.length
  | .bad _ | .done => True

theorem isNameChar_of_isNameStart (h : isNameStart c = true) : isNameChar c = true := by
  unfold isNameStart at h
  unfold isNameChar
  rcases Bool.or_eq_true_iff.1 h with h | h <;> simp [h]

theorem isNameChar_of_isDigit (h : c.isDigit = true) : isNameChar c = true := by
  simp [isNameChar, h]

theorem shortens_scanWord {cs : List Char} (hc : isNameStart c = true) :
    (scanWord (c :: cs)).Shortens (c :: cs) := by
  have hrest : ((c :: cs).dropWhile isNameChar).length < (c :: cs).length := by
    rw [List.dropWhile_cons_of_pos (isNameChar_of_isNameStart hc)]
    exact Nat.lt_succ_of_le (length_dropWhile_le _ _)
  unfold scanWord
  dsimp only
  split
  · rename_i d more heq
    split
    · have hle := length_dropWhile_le Char.isDigit (d :: more)
      rw [heq, List.length_cons] at hrest
      exact Nat.lt_of_le_of_lt hle (Nat.lt_trans (Nat.lt_succ_self _) hrest)
    · exact hrest
  · exact hrest

theorem shortens_scan (cs : List Char) : (scan cs).Shortens cs := by
  cases cs with
  | nil => trivial
  | cons c cs =>
    have hdrop : ∀ p, (cs.dropWhile p).length < (c :: cs).length := fun p =>
      Nat.lt_succ_of_le (length_dropWhile_le p cs)
    rw [scan]
    split
    · exact hdrop _
    split
    · exact shortens_scanWord ‹_›
    split
    · rename_i hdigit
      rw [List.dropWhile_cons_of_pos hdigit]
      exact hdrop _
    split
    · rename_i rest hrest
      exact Nat.lt_of_le_of_lt (length_afterLineEnds _ _) (length_afterLineEnd? hrest)
    split
    · exact Nat.succ_pos _
    split
    · split
      · trivial
      · exact hdrop _
    split
    · exact Nat.lt_succ_self _
    · trivial

/-- Fuel for every character is enough. -/
theorem lexFrom_fuel {fuel fuel' : Nat} {cs : List Char} (h : cs.length ≤ fuel)
    (h' : cs.length ≤ fuel') : lexFrom fuel cs = lexFrom fuel' cs := by
  induction fuel generalizing fuel' cs with
  | zero =>
    cases List.eq_nil_of_length_eq_zero (Nat.le_zero.1 h)
    cases fuel' <;> rfl
  | succ fuel ih =>
    cases fuel' with
    | zero =>
      cases List.eq_nil_of_length_eq_zero (Nat.le_zero.1 h')
      rfl
    | succ fuel' =>
      have hshort := shortens_scan cs
      unfold lexFrom
      cases hscan : scan cs with
      | token t rest =>
        rw [hscan] at hshort
        have hlt : rest.length < cs.length := hshort
        have hrest : lexFrom fuel rest = lexFrom fuel' rest := ih (by omega) (by omega)
        simp only [hrest]
      | skip rest =>
        rw [hscan] at hshort
        have hlt : rest.length < cs.length := hshort
        exact ih (by omega) (by omega)
      | bad c => rfl
      | done => rfl

/-- Cutting goes on after each token. -/
theorem lex_eq (cs : List Char) : lex cs =
    match scan cs with
    | .done => ⟨[], none⟩
    | .bad c => ⟨[], some (c, cs.length)⟩
    | .skip rest => lex rest
    | .token t rest => ⟨⟨t, cs.length, rest.length⟩ :: (lex rest).lexemes, (lex rest).fault⟩ := by
  have hshort := shortens_scan cs
  unfold lex
  rw [lexFrom_fuel (Nat.le_refl _) (Nat.le_succ cs.length), lexFrom]
  cases hscan : scan cs with
  | token t rest =>
    rw [hscan] at hshort
    simp only [lexFrom_fuel (Nat.le_of_lt hshort) (Nat.le_refl _)]
  | skip rest =>
    rw [hscan] at hshort
    exact lexFrom_fuel (Nat.le_of_lt hshort) (Nat.le_refl _)
  | bad c => rfl
  | done => rfl

/-! ## Texts that are cut up to the end -/

/-- The text is cut into the tokens `ts`, up to its end. -/
structure Lexes (cs : List Char) (ts : List Token) : Prop where
  tokens : (lex cs).tokens = ts
  complete : (lex cs).fault = none

variable {cs rest : List Char} {ts : List Token} {t : Token}

theorem lexes_nil : Lexes [] [] := ⟨rfl, rfl⟩

theorem Lexes.of_token (h : Lexes rest ts) (hscan : scan cs = .token t rest) :
    Lexes cs (t :: ts) := by
  have heq := lex_eq cs
  rw [hscan] at heq
  refine ⟨?_, ?_⟩
  · rw [heq, ← h.tokens]
    rfl
  · rw [heq]
    exact h.complete

/-- Blanks in front do not count. -/
theorem lex_dropBlanks (cs : List Char) : lex (cs.dropWhile isBlank) = lex cs := by
  cases cs with
  | nil => rfl
  | cons c cs =>
    by_cases hc : isBlank c = true
    · rw [lex_eq (c :: cs), List.dropWhile_cons_of_pos hc]
      simp [scan, hc]
    · rw [List.dropWhile_cons_of_neg hc]

theorem lex_blank (hc : isBlank c = true) (cs : List Char) : lex (c :: cs) = lex cs := by
  rw [← lex_dropBlanks, List.dropWhile_cons_of_pos hc, lex_dropBlanks]

theorem Lexes.blank (h : Lexes cs ts) (hc : isBlank c = true) : Lexes (c :: cs) ts :=
  ⟨lex_blank hc cs ▸ h.tokens, lex_blank hc cs ▸ h.complete⟩

/-! ## Line ends -/

/-- A line starts here, after blanks. -/
def Opens (cs : List Char) : Prop := afterLineEnd? (cs.dropWhile isBlank) = none

theorem first_of_afterLineEnd? (h : afterLineEnd? (c :: cs) = some rest) :
    c = '\n' ∨ c = '\r' ∨ c = '#' := by
  unfold afterLineEnd? at h
  split at h
  all_goals simp_all

theorem scan_newline (h : afterLineEnd? cs = some rest) :
    scan cs = .token .newline (afterLineEnds rest.length rest) := by
  cases cs with
  | nil => cases h
  | cons c cs =>
    have hclass : isBlank c = false ∧ isNameStart c = false ∧ c.isDigit = false := by
      rcases first_of_afterLineEnd? h with rfl | rfl | rfl <;> decide
    simp [scan, hclass, h]

theorem afterLineEnds_of_opens (fuel : Nat) (h : afterLineEnd? cs = none) :
    afterLineEnds fuel cs = cs := by
  cases fuel with
  | zero => rfl
  | succ fuel => simp [afterLineEnds, h]

/-- A line end, with the comment before it, and the start of the next line. -/
theorem Lexes.lineEnd {line : List Char} (h : Lexes rest ts) (hopens : Opens rest)
    (hline : afterLineEnd? line = some (rest.dropWhile isBlank)) : Lexes line (.newline :: ts) := by
  have hscan := scan_newline hline
  rw [afterLineEnds_of_opens _ hopens] at hscan
  refine Lexes.of_token ⟨?_, ?_⟩ hscan
  · rw [lex_dropBlanks]
    exact h.tokens
  · rw [lex_dropBlanks]
    exact h.complete

/-- A text whose first token is no line end starts a line. -/
theorem Lexes.opens (h : Lexes cs ts) (hne : ts.head? ≠ some .newline) : Opens cs := by
  unfold Opens
  cases hline : afterLineEnd? (cs.dropWhile isBlank) with
  | none => rfl
  | some rest =>
    have heq := lex_eq (cs.dropWhile isBlank)
    rw [scan_newline hline, lex_dropBlanks] at heq
    rw [← h.tokens, heq] at hne
    exact absurd rfl hne

theorem Lexes.newline (h : Lexes rest ts) (hopens : Opens rest) :
    Lexes ('\n' :: rest) (.newline :: ts) :=
  h.lineEnd hopens rfl

/-- An empty line between two others. -/
theorem Lexes.emptyLine (h : Lexes rest ts) (hopens : Opens rest) :
    Lexes ('\n' :: '\n' :: rest) (.newline :: ts) := by
  have hscan : scan ('\n' :: '\n' :: rest) = .token .newline (rest.dropWhile isBlank) := by
    rw [scan_newline rfl]
    show Scan.token .newline (afterLineEnds _ (rest.dropWhile isBlank)) = _
    rw [afterLineEnds_of_opens _ hopens]
  refine Lexes.of_token ⟨?_, ?_⟩ hscan
  · rw [lex_dropBlanks]
    exact h.tokens
  · rw [lex_dropBlanks]
    exact h.complete

theorem Lexes.comment {text : List Char} (h : Lexes rest ts) (hopens : Opens rest)
    (htext : '\n' ∉ text) : Lexes ('#' :: (text ++ '\n' :: rest)) (.newline :: ts) := by
  refine h.lineEnd hopens ?_
  have hdrop : (text ++ '\n' :: rest).dropWhile (· ≠ '\n') = '\n' :: rest := by
    rw [List.dropWhile_append_of_pos fun c hc => by
      simpa using fun he : c = '\n' => htext (he ▸ hc)]
    rfl
  simp only [afterLineEnd?, hdrop]

/-! ## Words -/

/-- The text is a word: a letter or an underscore, then letters, digits, underscores and dots. -/
def isWord (x : String) : Bool :=
  match x.toList with
  | [] => false
  | c :: cs => isNameStart c && cs.all isNameChar

/-- The text is a word that can be a name. -/
def isName (x : String) : Bool := isWord x && (Keyword.ofString? x).isNone

variable {x : String}

theorem isWord_of_isName (h : isName x = true) : isWord x = true := (Bool.and_eq_true_iff.1 h).1

theorem isWord_iff : isWord x = true ↔
    ∃ c cs, x.toList = c :: cs ∧ isNameStart c = true ∧ ∀ d ∈ c :: cs, isNameChar d = true := by
  unfold isWord
  constructor
  · intro h
    split at h
    · cases h
    · rename_i c cs heq
      obtain ⟨hc, hcs⟩ := Bool.and_eq_true_iff.1 h
      refine ⟨c, cs, heq, hc, fun d hd => ?_⟩
      rcases List.mem_cons.1 hd with rfl | hd
      · exact isNameChar_of_isNameStart hc
      · exact List.all_eq_true.1 hcs d hd
  · rintro ⟨c, cs, heq, hc, hcs⟩
    rw [heq]
    simp only [Bool.and_eq_true, List.all_eq_true]
    exact ⟨hc, fun d hd => hcs d (.tail _ hd)⟩

theorem isNameChar_of_isWord (h : isWord x = true) : ∀ c ∈ x.toList, isNameChar c = true := by
  obtain ⟨c, cs, heq, _, hcs⟩ := isWord_iff.1 h
  rw [heq]
  exact hcs

theorem ofWord_of_isName (h : isName x = true) : Token.ofWord x = .name x := by
  unfold Token.ofWord
  rw [Option.isNone_iff_eq_none.1 (Bool.and_eq_true_iff.1 h).2]

/-- No keyword has a dot or an underscore. -/
theorem ofString?_eq_none (h : '.' ∈ x.toList ∨ '_' ∈ x.toList) : Keyword.ofString? x = none := by
  unfold Keyword.ofString?
  split
  all_goals first | rfl | exact absurd h (by decide)

/-- A word that goes on with a dot or an underscore in it is a name. -/
theorem isName_append (hx : isWord x = true) (hy : ∀ c ∈ y.toList, isNameChar c = true)
    (hmark : '.' ∈ y.toList ∨ '_' ∈ y.toList) : isName (x ++ y) = true := by
  obtain ⟨c, cs, heq, hc, hcs⟩ := isWord_iff.1 hx
  have htext : (x ++ y).toList = c :: (cs ++ y.toList) := by
    rw [String.toList_append, heq, List.cons_append]
  have hnone : Keyword.ofString? (x ++ y) = none := by
    refine ofString?_eq_none (hmark.imp (fun h => ?_) fun h => ?_)
    all_goals exact htext ▸ List.mem_cons_of_mem _ (List.mem_append_right _ h)
  have hword : isWord (x ++ y) = true := by
    refine isWord_iff.2 ⟨c, _, htext, hc, fun d hd => ?_⟩
    rw [← List.cons_append] at hd
    rcases List.mem_append.1 hd with hd | hd
    · exact hcs d hd
    · exact hy d hd
  rw [isName, hword, hnone]
  rfl

/-- A word goes on behind a dot, and is then a name. -/
theorem isName_join (hx : isWord x = true) (hy : ∀ c ∈ y.toList, isNameChar c = true) :
    isName (x ++ "." ++ y) = true := by
  have htext : ("." ++ y).toList = '.' :: y.toList := String.toList_append
  rw [String.append_assoc]
  refine isName_append hx (fun c hc => ?_) (.inl (htext ▸ List.mem_cons_self))
  rw [htext] at hc
  rcases List.mem_cons.1 hc with rfl | hc
  · rfl
  · exact hy c hc

/-- The text does not go on with a word or a numeral that stands before it. -/
def Stops (cs : List Char) : Prop := ∀ c ∈ cs.head?, isNameChar c = false ∧ c ≠ '$'

theorem stops_cons (h : isNameChar c = false ∧ c ≠ '$') (cs : List Char) : Stops (c :: cs) := by
  intro d hd
  cases hd
  exact h

theorem Stops.append {text : List Char} (h : Stops text) (hrest : Stops rest) :
    Stops (text ++ rest) := by
  cases text with
  | nil => exact hrest
  | cons c cs => exact h

/-- Characters of one kind are taken up to where that kind ends. -/
theorem span_append {p : Char → Bool} {text : List Char} (htext : ∀ c ∈ text, p c = true)
    (hrest : ∀ c ∈ rest.head?, p c = false) :
    (text ++ rest).takeWhile p = text ∧ (text ++ rest).dropWhile p = rest := by
  rw [List.takeWhile_append_of_pos htext, List.dropWhile_append_of_pos htext]
  cases rest with
  | nil => exact ⟨List.append_nil _, rfl⟩
  | cons c rest =>
    have hc : p c = false := hrest c rfl
    simp [hc]

theorem span_word (h : isWord x = true) (hrest : ∀ c ∈ rest.head?, isNameChar c = false) :
    (x.toList ++ rest).takeWhile isNameChar = x.toList ∧
      (x.toList ++ rest).dropWhile isNameChar = rest := by
  obtain ⟨c, cs, heq, _, hcs⟩ := isWord_iff.1 h
  exact span_append (heq ▸ hcs) hrest

theorem not_isBlank_of_isNameStart (h : isNameStart c = true) : isBlank c = false := by
  rw [Bool.eq_false_iff]
  intro hblank
  simp only [isBlank, Bool.or_eq_true, decide_eq_true_eq] at hblank
  rcases hblank with rfl | rfl <;> exact absurd h (by decide)

theorem scan_of_isWord (h : isWord x = true) (rest : List Char) :
    scan (x.toList ++ rest) = scanWord (x.toList ++ rest) := by
  obtain ⟨c, cs, heq, hc, _⟩ := isWord_iff.1 h
  rw [heq]
  simp [scan, not_isBlank_of_isNameStart hc, hc]

theorem scan_word (h : isWord x = true) (hstops : Stops rest) :
    scan (x.toList ++ rest) = .token (.ofWord x) rest := by
  obtain ⟨htake, hdrop⟩ := span_word h fun c hc => (hstops c hc).1
  rw [scan_of_isWord h]
  unfold scanWord
  rw [htake, hdrop, String.ofList_toList]
  dsimp only
  split
  · rename_i d more
    exact absurd rfl (hstops '$' rfl).2
  · rfl

/-! ## Numerals -/

theorem isDigit_of_mem_repr {n : Nat} (h : c ∈ n.repr.toList) : c.isDigit = true := by
  rw [Nat.toList_repr] at h
  exact Nat.isDigit_of_mem_toDigits (by decide) (by decide) h

theorem numberOf_repr (n : Nat) : numberOf n.repr.toList = n := by
  rw [numberOf, Nat.toList_repr]
  exact Nat.ofDigitChars_toDigits (by decide) (by decide)

theorem repr_toList_eq_cons (n : Nat) :
    ∃ d ds, n.repr.toList = d :: ds ∧ ∀ c ∈ d :: ds, c.isDigit = true := by
  cases h : n.repr.toList with
  | nil =>
    rw [Nat.toList_repr] at h
    exact absurd h Nat.toDigits_ne_nil
  | cons d ds => exact ⟨d, ds, rfl, fun c hc => isDigit_of_mem_repr (h ▸ hc)⟩

theorem Stops.not_isDigit (h : Stops rest) : ∀ c ∈ rest.head?, c.isDigit = false := by
  intro c hc
  rw [Bool.eq_false_iff]
  intro hdigit
  exact absurd (isNameChar_of_isDigit hdigit) (Bool.eq_false_iff.1 (h c hc).1)

theorem digit_class (h : c.isDigit = true) : isBlank c = false ∧ isNameStart c = false := by
  constructor
  · rw [Bool.eq_false_iff]
    intro hblank
    simp only [isBlank, Bool.or_eq_true, decide_eq_true_eq] at hblank
    rcases hblank with rfl | rfl <;> exact absurd h (by decide)
  · rw [Bool.eq_false_iff]
    intro hstart
    simp only [isNameStart, Bool.or_eq_true, decide_eq_true_eq] at hstart
    rcases hstart with halpha | rfl
    · -- Digits stand before the letters.
      have hdigit : c.val ≤ '9'.val := of_decide_eq_true (Bool.and_eq_true_iff.1 h).2
      rcases Bool.or_eq_true_iff.1 halpha with hletter | hletter
      · have hupper : 'A'.val ≤ c.val := (of_decide_eq_true hletter).1
        exact absurd (UInt32.le_trans hupper hdigit) (by decide)
      · have hlower : 'a'.val ≤ c.val := of_decide_eq_true (Bool.and_eq_true_iff.1 hletter).1
        exact absurd (UInt32.le_trans hlower hdigit) (by decide)
    · exact absurd h (by decide)

section Digits

variable {d : Char} {ds : List Char}

theorem scan_numeral (hds : ∀ c ∈ d :: ds, c.isDigit = true)
    (hrest : ∀ c ∈ rest.head?, c.isDigit = false) :
    scan (d :: ds ++ rest) = .token (.int (numberOf (d :: ds))) rest := by
  obtain ⟨htake, hdrop⟩ := span_append hds hrest
  have hd := hds d (.head _)
  obtain ⟨hblank, hstart⟩ := digit_class hd
  rw [List.cons_append] at htake hdrop ⊢
  simp only [scan, hblank, hstart, hd, Bool.false_eq_true, if_false, if_true]
  rw [htake, hdrop]

theorem scan_minus (hds : ∀ c ∈ d :: ds, c.isDigit = true)
    (hrest : ∀ c ∈ rest.head?, c.isDigit = false) :
    scan ('-' :: (d :: ds ++ rest)) = .token (.int (-(numberOf (d :: ds) : Int))) rest := by
  obtain ⟨htake, hdrop⟩ := span_append hds hrest
  have hclass : isBlank '-' = false ∧ isNameStart '-' = false ∧ Char.isDigit '-' = false := by
    decide
  simp only [scan, hclass, Bool.false_eq_true, if_false, afterLineEnd?, htake, hdrop]
  rfl

theorem scan_version (h : isWord x = true) (hds : ∀ c ∈ d :: ds, c.isDigit = true)
    (hrest : ∀ c ∈ rest.head?, c.isDigit = false) :
    scan (x.toList ++ '$' :: (d :: ds ++ rest))
      = .token (.versioned x (numberOf (d :: ds))) rest := by
  obtain ⟨htake, hdrop⟩ := span_append hds hrest
  have hdollar : ∀ c ∈ ('$' :: (d :: ds ++ rest)).head?, isNameChar c = false := fun c hc => by
    cases hc
    decide
  obtain ⟨hword, hafter⟩ := span_word h hdollar
  rw [scan_of_isWord h]
  unfold scanWord
  rw [hword, hafter, String.ofList_toList]
  rw [List.cons_append] at htake hdrop ⊢
  simp only [hds d (.head _), if_true]
  rw [htake, hdrop]

end Digits

theorem scan_nat (n : Nat) (hstops : Stops rest) :
    scan (n.repr.toList ++ rest) = .token (.int n) rest := by
  obtain ⟨d, ds, heq, hds⟩ := repr_toList_eq_cons n
  rw [heq, scan_numeral hds hstops.not_isDigit, ← heq, numberOf_repr]

theorem scan_negative (n : Nat) (hstops : Stops rest) :
    scan ('-' :: (n.repr.toList ++ rest)) = .token (.int (-(n : Int))) rest := by
  obtain ⟨d, ds, heq, hds⟩ := repr_toList_eq_cons n
  rw [heq, scan_minus hds hstops.not_isDigit, ← heq, numberOf_repr]

theorem scan_versioned (h : isWord x = true) (n : Nat) (hstops : Stops rest) :
    scan (x.toList ++ '$' :: (n.repr.toList ++ rest)) = .token (.versioned x n) rest := by
  obtain ⟨d, ds, heq, hds⟩ := repr_toList_eq_cons n
  rw [heq, scan_version h hds hstops.not_isDigit, ← heq, numberOf_repr]

/-! ## Pieces of text -/

/-- The text is cut into the tokens `ts`, whatever follows, if that does not go on with the last
word. -/
def Spells (text : List Char) (ts : List Token) : Prop :=
  ∀ rest ts', Stops rest → Lexes rest ts' → Lexes (text ++ rest) (ts ++ ts')

variable {text text' : List Char} {ts' : List Token}

theorem spells_nil : Spells [] [] := fun _ _ _ h => h

theorem Spells.append (h : Spells text ts) (h' : Spells text' ts') (hstops : Stops text') :
    Spells (text ++ text') (ts ++ ts') := by
  intro rest ts'' hrest hlexes
  rw [List.append_assoc, List.append_assoc]
  exact h _ _ (hstops.append hrest) (h' _ _ hrest hlexes)

theorem Spells.blank (h : Spells text ts) (hc : isBlank c = true) : Spells (c :: text) ts :=
  fun _ _ hrest hlexes => (h _ _ hrest hlexes).blank hc

theorem Spells.space (h : Spells text ts) : Spells (' ' :: text) ts := h.blank rfl

/-- The symbols and their tokens. -/
def symbols : List (Char × Token) :=
  [('(', .lparen), (')', .rparen), ('\x7b', .lbrace), ('\x7d', .rbrace),
    ('[', .lbracket), (']', .rbracket), (':', .colon), ('=', .equals), (',', .comma)]

theorem mem_symbols (h : Token.ofSymbol? c = some t) : (c, t) ∈ symbols := by
  unfold Token.ofSymbol? at h
  repeat' split at h
  all_goals simp_all [symbols]

theorem scan_symbol (hsymbol : Token.ofSymbol? c = some t) (cs : List Char) :
    scan (c :: cs) = .token t cs := by
  have hclass : ∀ e ∈ symbols, isBlank e.1 = false ∧ isNameStart e.1 = false ∧ e.1.isDigit = false ∧
      e.1 ≠ '#' ∧
      e.1 ≠ '-' ∧ e.1 ≠ '\n' ∧ e.1 ≠ '\r' := by decide
  obtain ⟨hblank, hstart, hdigit, hhash, hminus, hnewline, hreturn⟩ :=
    hclass _ (mem_symbols hsymbol)
  have hline : afterLineEnd? (c :: cs) = none := by
    unfold afterLineEnd?
    split <;> simp_all
  simp [scan, hblank, hstart, hdigit, hhash, hminus, hline, hsymbol]

/-- A symbol ends by itself. -/
theorem Spells.symbol (h : Spells text ts) (hc : Token.ofSymbol? c = some t) :
    Spells (c :: text) (t :: ts) :=
  fun _ _ hrest hlexes => (h _ _ hrest hlexes).of_token (scan_symbol hc _)

theorem spells_word (h : isWord x = true) : Spells x.toList [.ofWord x] :=
  fun _ _ hrest hlexes => hlexes.of_token (scan_word h hrest)

theorem spells_name (h : isName x = true) : Spells x.toList [.name x] :=
  ofWord_of_isName h ▸ spells_word (isWord_of_isName h)

theorem spells_nat (n : Nat) : Spells n.repr.toList [.int n] :=
  fun _ _ hrest hlexes => hlexes.of_token (scan_nat n hrest)

theorem spells_negative (n : Nat) : Spells ('-' :: n.repr.toList) [.int (-(n : Int))] :=
  fun _ _ hrest hlexes => hlexes.of_token (scan_negative n hrest)

theorem spells_versioned (h : isWord x = true) (n : Nat) :
    Spells (x.toList ++ '$' :: n.repr.toList) [.versioned x n] := by
  intro rest ts' hrest hlexes
  rw [List.append_assoc]
  exact hlexes.of_token (scan_versioned h n hrest)

/-! ## Tokens of a text -/

/-- Words among tokens are words. -/
def Token.Spelled : Token → Prop
  | .name x => isName x = true
  | .versioned x _ => isWord x = true
  | _ => True

theorem spelled_ofWord (h : isWord x = true) : (Token.ofWord x).Spelled := by
  unfold Token.ofWord
  split
  · trivial
  · rename_i hnone
    show isName x = true
    rw [isName, h, hnone]
    rfl

/-- The characters that a word is made of are a word. -/
theorem isWord_takeWhile (hc : isNameStart c = true) (cs : List Char) :
    isWord (String.ofList ((c :: cs).takeWhile isNameChar)) = true := by
  rw [List.takeWhile_cons_of_pos (isNameChar_of_isNameStart hc), isWord, String.toList_ofList]
  simp only [hc, Bool.true_and]
  exact List.all_takeWhile

theorem spelled_scanWord (hc : isNameStart c = true) (h : scanWord (c :: cs) = .token t rest) :
    t.Spelled := by
  have hword := isWord_takeWhile hc cs
  unfold scanWord at h
  dsimp only at h
  split at h
  · split at h
    · cases h
      exact hword
    · cases h
      exact spelled_ofWord hword
  · cases h
    exact spelled_ofWord hword

theorem spelled_ofSymbol (h : Token.ofSymbol? c = some t) : t.Spelled := by
  have hall : ∀ e ∈ symbols, e.2.Spelled := by simp [symbols, Token.Spelled]
  exact hall _ (mem_symbols h)

theorem spelled_scan (h : scan cs = .token t rest) : t.Spelled := by
  cases cs with
  | nil => cases h
  | cons c cs =>
    rw [scan] at h
    split at h
    · cases h
    split at h
    · exact spelled_scanWord ‹_› h
    split at h
    · cases h
      trivial
    split at h
    · cases h
      trivial
    split at h
    · cases h
    split at h
    · split at h
      · cases h
      · cases h
        trivial
    split at h
    · cases h
      exact spelled_ofSymbol ‹_›
    · cases h

/-- The words that a text is cut into can be what they are taken for. -/
theorem spelled_lex (cs : List Char) : ∀ t ∈ (lex cs).tokens, t.Spelled := by
  unfold lex
  generalize cs.length = fuel
  induction fuel generalizing cs with
  | zero => exact fun t ht => (List.not_mem_nil ht).elim
  | succ fuel ih =>
    unfold lexFrom
    split
    · exact fun t ht => (List.not_mem_nil ht).elim
    · exact fun t ht => (List.not_mem_nil ht).elim
    · exact ih _
    · rename_i t rest hscan
      simp only [Lexed.tokens, List.map_cons, List.mem_cons, forall_eq_or_imp]
      exact ⟨spelled_scan hscan, ih rest⟩

end ThreeAddress.Text
