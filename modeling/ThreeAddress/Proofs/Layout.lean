import Mathlib
import ThreeAddress.Proofs.Rereading

/-!
# Layout

Reading a text ignores its layout (`parse_relaid`): blanks where two tokens meet or where a line
starts or ends, comments at the ends of lines, and lines that are blank or comments.

The run of line ends that becomes one token is cut off greedily, with blanks and comments between
them. To say what an edit does to it, the text is cut once more, piece by piece (`Cuts`): each line
end is a token of its own, and each place is in a comment or not. These cuts can be split at a place
that no token goes across, and the text behind that place replaced. One token for each run of line
ends then gives the tokens of the text (`Cuts.lexes`).
-/

namespace ThreeAddress.Text

variable {c : Char} {cs' : List Char}

/-! ## Texts of tokens -/

/-- The text of a token that is no line end. -/
inductive Spelling : List Char → Token → Prop
  | word {x : String} (h : isWord x = true) : Spelling x.toList (.ofWord x)
  | versioned {x : String} {d : Char} {ds : List Char} (h : isWord x = true)
      (hds : ∀ c ∈ d :: ds, c.isDigit = true) :
      Spelling (x.toList ++ '$' :: d :: ds) (.versioned x (numberOf (d :: ds)))
  | numeral {d : Char} {ds : List Char} (hds : ∀ c ∈ d :: ds, c.isDigit = true) :
      Spelling (d :: ds) (.int (numberOf (d :: ds)))
  | minus {d : Char} {ds : List Char} (hds : ∀ c ∈ d :: ds, c.isDigit = true) :
      Spelling ('-' :: d :: ds) (.int (-(numberOf (d :: ds) : Int)))
  | symbol {c : Char} {t : Token} (h : Token.ofSymbol? c = some t) : Spelling [c] t

/-- The token ends where the text `rest` follows. -/
def Token.EndsAt : Token → (rest : List Char) → Prop
  | .keyword _, rest | .name _, rest => Stops rest
  | .versioned .., rest | .int _, rest => ∀ c ∈ rest.head?, c.isDigit = false
  | _, _ => True

variable {cs rest rest' w : List Char} {t : Token}

theorem Stops.endsAt (h : Stops rest) (t : Token) : t.EndsAt rest := by
  cases t with
  | keyword k => exact h
  | name x => exact h
  | versioned x n => exact h.not_isDigit
  | int n => exact h.not_isDigit
  | _ => trivial

/-- Where a token ends depends on the next character only. -/
theorem Token.EndsAt.congr (h : t.EndsAt rest) (hhead : rest'.head? = rest.head?) :
    t.EndsAt rest' := by
  cases t with
  | keyword k => exact fun c hc => h c (hhead ▸ hc)
  | name x => exact fun c hc => h c (hhead ▸ hc)
  | versioned x n => exact fun c hc => h c (hhead ▸ hc)
  | int n => exact fun c hc => h c (hhead ▸ hc)
  | _ => trivial

theorem endsAt_ofWord {x : String} : (Token.ofWord x).EndsAt rest ↔ Stops rest := by
  unfold Token.ofWord
  split
  · exact Iff.rfl
  · exact Iff.rfl

theorem endsAt_of_symbol (h : Token.ofSymbol? c = some t) (rest : List Char) : t.EndsAt rest := by
  have hall : ∀ e ∈ symbols, e.2.EndsAt rest := by simp [symbols, Token.EndsAt]
  exact hall _ (mem_symbols h)

theorem Spelling.scan_eq (h : Spelling w t) (hends : t.EndsAt rest) :
    scan (w ++ rest) = .token t rest := by
  cases h with
  | word h => exact scan_word h (endsAt_ofWord.1 hends)
  | versioned h hds =>
    rw [List.append_assoc]
    exact scan_version h hds hends
  | numeral hds => exact scan_numeral hds hends
  | minus hds => exact scan_minus hds hends
  | symbol h => exact scan_symbol h rest

theorem Spelling.ne_newline (h : Spelling w t) : t ≠ .newline := by
  cases h with
  | @word x h =>
    unfold Token.ofWord
    split
    · exact fun heq => by cases heq
    · exact fun heq => by cases heq
  | versioned h hds => exact fun heq => by cases heq
  | numeral hds => exact fun heq => by cases heq
  | minus hds => exact fun heq => by cases heq
  | symbol h =>
    have hall : ∀ e ∈ symbols, e.2 ≠ .newline := by decide
    exact hall _ (mem_symbols h)

theorem Spelling.ne_nil (h : Spelling w t) : w ≠ [] := by
  cases h with
  | word h =>
    obtain ⟨c, cs, heq, _⟩ := isWord_iff.1 h
    rw [heq]
    exact List.cons_ne_nil c cs
  | versioned h hds => exact List.append_ne_nil_of_right_ne_nil _ (List.cons_ne_nil _ _)
  | numeral hds => exact List.cons_ne_nil _ _
  | minus hds => exact List.cons_ne_nil _ _
  | symbol h => exact List.cons_ne_nil _ _

/-- No token but a line end goes over the end of a line. -/
theorem Spelling.newline_not_mem (h : Spelling w t) : '\n' ∉ w := by
  have hdigits : ∀ {ds : List Char}, (∀ c ∈ ds, c.isDigit = true) → '\n' ∉ ds := fun hds hmem =>
    absurd (hds _ hmem) (by decide)
  have hword : ∀ {x : String}, isWord x = true → '\n' ∉ x.toList := fun hx hmem =>
    absurd (isNameChar_of_isWord hx _ hmem) (by decide)
  cases h with
  | word h => exact hword h
  | versioned h hds =>
    intro hmem
    rcases List.mem_append.1 hmem with hmem | hmem
    · exact hword h hmem
    · rcases List.mem_cons.1 hmem with hmem | hmem
      · cases hmem
      · exact hdigits hds hmem
  | numeral hds => exact hdigits hds
  | minus hds =>
    intro hmem
    rcases List.mem_cons.1 hmem with hmem | hmem
    · cases hmem
    · exact hdigits hds hmem
  | symbol h =>
    intro hmem
    rw [← List.mem_singleton.1 hmem] at h
    cases h

/-! ## What is cut off -/

/-- What stands at the front of a text, case by case. -/
inductive Scans : List Char → Scan → Prop
  | done : Scans [] .done
  | blank {c : Char} {cs : List Char} (hc : isBlank c = true) :
    Scans (c :: cs) (.skip (cs.dropWhile isBlank))
  | lineEnd {cs rest : List Char} (h : afterLineEnd? cs = some rest) :
      Scans cs (.token .newline (afterLineEnds rest.length rest))
  | comment {cs : List Char} (h : afterLineEnd? ('#' :: cs) = none) : Scans ('#' :: cs) (.skip [])
  | word {w rest : List Char} {t : Token} (hw : Spelling w t) (hends : rest.head? ≠ some '$' →
    t.EndsAt rest) :
      Scans (w ++ rest) (.token t rest)
  | bad (c : Char) (cs : List Char) : Scans (c :: cs) (.bad c)

theorem not_of_mem_head?_dropWhile {p : Char → Bool} (h : c ∈ (cs.dropWhile p).head?) :
    p c = false := by
  have hnot := List.head?_dropWhile_not p cs
  rw [Option.mem_def.1 h] at hnot
  exact hnot

theorem scans_scanWord (hc : isNameStart c = true) (cs : List Char) :
    Scans (c :: cs) (scanWord (c :: cs)) := by
  have hword := isWord_takeWhile hc cs
  have hsplit : (String.ofList ((c :: cs).takeWhile isNameChar)).toList ++
      (c :: cs).dropWhile isNameChar
      = c :: cs := by
    rw [String.toList_ofList, List.takeWhile_append_dropWhile]
  have hplain : Scans (c :: cs) (.token (.ofWord (String.ofList ((c :: cs).takeWhile isNameChar)))
      ((c :: cs).dropWhile isNameChar)) := by
    have hends : ((c :: cs).dropWhile isNameChar).head? ≠ some '$' →
        Stops ((c :: cs).dropWhile isNameChar) :=
      fun hne d hd => ⟨not_of_mem_head?_dropWhile hd, fun heq => hne (heq ▸ hd)⟩
    have hscans := Scans.word (.word hword) fun hne => endsAt_ofWord.2 (hends hne)
    rwa [hsplit] at hscans
  unfold scanWord
  dsimp only
  split
  · rename_i d more hrest
    split
    · rename_i hd
      -- The digits up to the next character that is none are the version.
      have hdigits : ∀ e ∈ d :: more.takeWhile Char.isDigit, e.isDigit = true :=
        List.forall_mem_cons.2 ⟨hd, fun e he => List.mem_takeWhile_imp he⟩
      rw [List.takeWhile_cons_of_pos hd, List.dropWhile_cons_of_pos hd]
      have hscans : Scans (_ ++ more.dropWhile Char.isDigit)
          (.token _ (more.dropWhile Char.isDigit)) :=
        .word (.versioned hword hdigits) fun _ e he => not_of_mem_head?_dropWhile he
      rwa [List.append_assoc, List.cons_append, List.cons_append, List.takeWhile_append_dropWhile,
        ← hrest, hsplit] at hscans
    · exact hplain
  · exact hplain

theorem scans (cs : List Char) : Scans cs (scan cs) := by
  cases cs with
  | nil => exact .done
  | cons c cs =>
    rw [scan]
    split
    · exact .blank ‹_›
    split
    · exact scans_scanWord ‹_› cs
    split
    · rename_i hdigit
      have hdigits : ∀ e ∈ c :: cs.takeWhile Char.isDigit, e.isDigit = true :=
        List.forall_mem_cons.2 ⟨hdigit, fun e he => List.mem_takeWhile_imp he⟩
      rw [List.takeWhile_cons_of_pos hdigit, List.dropWhile_cons_of_pos hdigit]
      have hscans : Scans (_ ++ cs.dropWhile Char.isDigit) (.token _ (cs.dropWhile Char.isDigit)) :=
        .word (.numeral hdigits) fun _ e he => not_of_mem_head?_dropWhile he
      rwa [List.cons_append, List.takeWhile_append_dropWhile] at hscans
    split
    · exact .lineEnd ‹_›
    split
    · rename_i hnone hc
      subst hc
      exact .comment hnone
    split
    · rename_i hc
      subst hc
      have hsplit := List.takeWhile_append_dropWhile (p := Char.isDigit) (l := cs)
      cases hdigits : cs.takeWhile Char.isDigit with
      | nil => exact .bad _ _
      | cons d ds =>
        have hall : ∀ e ∈ d :: ds, e.isDigit = true :=
          fun e he => List.mem_takeWhile_imp (hdigits ▸ he)
        have hscans : Scans (_ ++ cs.dropWhile Char.isDigit)
            (.token _ (cs.dropWhile Char.isDigit)) :=
          .word (.minus hall) fun _ e he => not_of_mem_head?_dropWhile he
        rwa [List.cons_append, ← hdigits, hsplit, hdigits] at hscans
    split
    · rename_i hsymbol
      exact Scans.word (.symbol hsymbol) fun _ => endsAt_of_symbol hsymbol cs
    · exact .bad _ _

/-! ## Line ends and comments -/

theorem afterLineEnds_fuel {fuel fuel' : Nat} (h : cs.length ≤ fuel) (h' : cs.length ≤ fuel') :
    afterLineEnds fuel cs = afterLineEnds fuel' cs := by
  induction fuel generalizing fuel' cs with
  | zero =>
    cases List.eq_nil_of_length_eq_zero (Nat.le_zero.1 h)
    exact (afterLineEnds_of_opens fuel' rfl).symm
  | succ fuel ih =>
    cases hline : afterLineEnd? cs with
    | none => rw [afterLineEnds_of_opens _ hline, afterLineEnds_of_opens _ hline]
    | some rest =>
      have hlt := length_afterLineEnd? hline
      cases fuel' with
      | zero => omega
      | succ fuel' =>
        simp only [afterLineEnds, hline]
        exact ih (by omega) (by omega)

/-- The lexemes that are no line ends. -/
def Lexed.words (l : Lexed) : List Lexeme := l.lexemes.filter (·.token ≠ .newline)

/-- Two texts are cut alike, up to the places of line ends. -/
structure Lexed.Like (l l' : Lexed) : Prop where
  tokens_eq : l.tokens = l'.tokens
  words_eq : l.words = l'.words
  fault_eq : l.fault = l'.fault

/-- Adds a token in front; line ends in a row are one. -/
def addToken (t : Token) (ts : List Token) : List Token :=
  if t = .newline ∧ ts.head? = some .newline then ts else t :: ts

/-- The tokens with one line end for each run of them. -/
def squeeze (ts : List Token) : List Token := ts.foldr addToken []

theorem addToken_of_ne (h : t ≠ .newline) (ts : List Token) : addToken t ts = t :: ts :=
  if_neg fun hand => h hand.1

theorem lex_lineEnd_eq (h : afterLineEnd? cs = some rest) : lex cs =
    ⟨⟨.newline, cs.length, (afterLineEnds rest.length rest).length⟩
      :: (lex (afterLineEnds rest.length rest)).lexemes,
      (lex (afterLineEnds rest.length rest)).fault⟩ := by
  rw [lex_eq, scan_newline h]

/-- A text in which no line ends first does not start with a line end. -/
theorem head?_tokens_of_opens (h : afterLineEnd? cs = none)
    (hblank : ∀ c ∈ cs.head?, isBlank c = false) : (lex cs).tokens.head? ≠ some .newline := by
  have hscans := scans cs
  rw [lex_eq]
  generalize scan cs = r at hscans
  cases hscans with
  | done => exact fun heq => by cases heq
  | blank hc => exact absurd hc (Bool.eq_false_iff.1 (hblank _ rfl))
  | lineEnd hsome =>
    rw [h] at hsome
    cases hsome
  | comment hnone => exact fun heq => by cases heq
  | word hw hends => exact fun heq => hw.ne_newline (Option.some.inj heq)
  | bad c cs => exact fun heq => by cases heq

/-- A line end in front of a text joins a line end that the text starts with. -/
theorem lex_newline (cs : List Char) :
    (lex ('\n' :: cs)).tokens = addToken .newline (lex cs).tokens ∧
    (lex ('\n' :: cs)).words = (lex cs).words ∧ (lex ('\n' :: cs)).fault = (lex cs).fault := by
  have hfirst : afterLineEnd? ('\n' :: cs) = some (cs.dropWhile isBlank) := rfl
  rw [lex_lineEnd_eq hfirst, ← lex_dropBlanks cs]
  have hblank : ∀ c ∈ (cs.dropWhile isBlank).head?, isBlank c = false :=
    fun c hc => not_of_mem_head?_dropWhile hc
  generalize cs.dropWhile isBlank = cs' at *
  cases hline : afterLineEnd? cs' with
  | none =>
    have hne := head?_tokens_of_opens hline hblank
    rw [afterLineEnds_of_opens _ hline]
    exact ⟨(if_neg fun hand => hne hand.2).symm, rfl, rfl⟩
  | some rest =>
    have hlt := length_afterLineEnd? hline
    have hrest : afterLineEnds cs'.length cs' = afterLineEnds rest.length rest := by
      rw [afterLineEnds_fuel (Nat.le_refl _) (Nat.le_succ _), afterLineEnds]
      simp only [hline]
      exact afterLineEnds_fuel (Nat.le_of_lt hlt) (Nat.le_refl _)
    rw [lex_lineEnd_eq hline, hrest]
    exact ⟨rfl, rfl, rfl⟩

theorem like_of_afterLineEnd? (h : afterLineEnd? cs = some rest)
    (h' : afterLineEnd? cs' = some rest) : (lex cs).Like (lex cs') := by
  rw [lex_lineEnd_eq h, lex_lineEnd_eq h']
  exact ⟨rfl, rfl, rfl⟩

/-- A comment at the end of the text is nothing. -/
theorem lex_comment (h : afterLineEnd? ('#' :: cs) = none) : lex ('#' :: cs) = lex [] := by
  have hclass : isBlank '#' = false ∧ isNameStart '#' = false ∧ Char.isDigit '#' = false := by
    decide
  rw [lex_eq]
  simp [scan, hclass, h]

/-- A comment may be longer or shorter. -/
theorem like_comment_cons (hc : c ≠ '\n') (cs : List Char) :
    (lex ('#' :: c :: cs)).Like (lex ('#' :: cs)) := by
  have hdrop : (c :: cs).dropWhile (· ≠ '\n') = cs.dropWhile (· ≠ '\n') :=
    List.dropWhile_cons_of_pos (by simpa using hc)
  have hsame : afterLineEnd? ('#' :: c :: cs) = afterLineEnd? ('#' :: cs) := by
    simp only [afterLineEnd?, hdrop]
  cases hline : afterLineEnd? ('#' :: cs) with
  | none =>
    rw [lex_comment hline, lex_comment (hsame.trans hline)]
    exact ⟨rfl, rfl, rfl⟩
  | some rest => exact like_of_afterLineEnd? (hsame.trans hline) hline

/-- A comment belongs to the line end behind it. -/
theorem like_comment_newline (cs : List Char) : (lex ('#' :: '\n' :: cs)).Like (lex ('\n' :: cs)) :=
  like_of_afterLineEnd? rfl rfl

/-! ## Cutting piece by piece -/

/-- A place in a text is in a comment or not. -/
inductive Zone where
  | code | comment

/-- The text with the sign that opens its first comment, should it start inside of one. -/
def Zone.text : Zone → List Char → List Char
  | code, cs => cs
  | comment, cs => '#' :: cs

/-- The text `cs`, followed by `post`, is cut into the tokens `ts`, with a line end for the end of
each line. It starts in the first zone and stops in the second. -/
inductive Cuts (post : List Char) : Zone → (cs : List Char) → Zone → (ts : List Token) → Prop
  | nil (z : Zone) : Cuts post z [] z []
  | blank {c : Char} {cs : List Char} {z : Zone} {ts : List Token} (hc : isBlank c = true)
      (h : Cuts post .code cs z ts) : Cuts post .code (c :: cs) z ts
  | newline {y : Zone} {cs : List Char} {z : Zone} {ts : List Token} (h : Cuts post .code cs z ts) :
      Cuts post y ('\n' :: cs) z (.newline :: ts)
  | hash {cs : List Char} {z : Zone} {ts : List Token} (h : Cuts post .comment cs z ts) :
      Cuts post .code ('#' :: cs) z ts
  | note {c : Char} {cs : List Char} {z : Zone} {ts : List Token} (hc : c ≠ '\n')
    (h : Cuts post .comment cs z ts) :
      Cuts post .comment (c :: cs) z ts
  | word {w cs : List Char} {z : Zone} {t : Token} {ts : List Token} (hw : Spelling w t)
      (hends : t.EndsAt (cs ++ post)) (h : Cuts post .code cs z ts) :
        Cuts post .code (w ++ cs) z (t :: ts)

namespace Cuts

variable {pre mid post post' : List Char} {x y z : Zone} {ts ts' : List Token}

theorem append (h : Cuts (mid ++ post) x pre y ts) (h' : Cuts post y mid z ts') :
    Cuts post x (pre ++ mid) z (ts ++ ts') := by
  induction h with
  | nil => exact h'
  | blank hc _ ih => exact .blank hc (ih h')
  | newline _ ih => exact .newline (ih h')
  | hash _ ih => exact .hash (ih h')
  | note hc _ ih => exact .note hc (ih h')
  | word hw hends _ ih =>
    rw [List.append_assoc]
    rw [← List.append_assoc] at hends
    exact .word hw hends (ih h')

/-- What follows may be another text, if it does not go on with the last token. -/
theorem followed (h : Cuts post x pre y ts) (hstops : Stops post') : Cuts post' x pre y ts := by
  induction h with
  | nil z => exact .nil z
  | blank hc _ ih => exact .blank hc ih
  | newline _ ih => exact .newline ih
  | hash _ ih => exact .hash ih
  | note hc _ ih => exact .note hc ih
  | @word w cs z t ts hw hends _ ih =>
    refine .word hw ?_ ih
    cases cs with
    | nil => exact hstops.endsAt t
    | cons c cs => exact hends.congr rfl

/-- Blanks are cut into nothing, in a comment and out of it. -/
theorem blanks {blanks : List Char} (h : ∀ c ∈ blanks, isBlank c = true) (post : List Char)
    (z : Zone) : Cuts post z blanks z [] := by
  induction blanks with
  | nil => exact .nil z
  | cons c cs ih =>
    obtain ⟨hc, hcs⟩ := List.forall_mem_cons.1 h
    cases z with
    | code => exact .blank hc (ih hcs)
    | comment =>
      refine .note ?_ (ih hcs)
      rintro rfl
      cases hc

/-- The text of a comment is cut into nothing. -/
theorem notes {text : List Char} (h : '\n' ∉ text) (post : List Char) :
    Cuts post .comment text .comment [] := by
  induction text with
  | nil => exact .nil _
  | cons c cs ih =>
    exact .note (List.ne_of_not_mem_cons h).symm (ih (List.not_mem_of_not_mem_cons h))

/-- The pieces give the tokens of the text. -/
theorem lexes (h : Cuts [] x cs z ts) : Lexes (x.text cs) (squeeze ts) := by
  induction h with
  | nil z =>
    cases z with
    | code => exact lexes_nil
    | comment => exact ⟨rfl, rfl⟩
  | blank hc _ ih => exact ih.blank hc
  | @newline y cs z ts _ ih =>
    obtain ⟨htokens, _, hfault⟩ := lex_newline cs
    have hcode : Lexes ('\n' :: cs) (squeeze (.newline :: ts)) :=
      ⟨htokens.trans (congrArg (addToken .newline) ih.tokens), hfault.trans ih.complete⟩
    cases y with
    | code => exact hcode
    | comment =>
      have hlike := like_comment_newline cs
      exact ⟨hlike.tokens_eq.trans hcode.tokens, hlike.fault_eq.trans hcode.complete⟩
  | hash _ ih => exact ih
  | @note c cs z ts hc _ ih =>
    have hlike := like_comment_cons hc cs
    exact ⟨hlike.tokens_eq.trans ih.tokens, hlike.fault_eq.trans ih.complete⟩
  | @word w cs z t ts hw hends _ ih =>
    have hsqueeze : squeeze (t :: ts) = t :: squeeze ts := addToken_of_ne hw.ne_newline _
    rw [List.append_nil] at hends
    rw [hsqueeze]
    exact ih.of_token (hw.scan_eq hends)

end Cuts

theorem fault_dollar (cs : List Char) : (lex ('$' :: cs)).fault ≠ none := by
  have hscan : scan ('$' :: cs) = .bad '$' := by
    have hclass : isBlank '$' = false ∧ isNameStart '$' = false ∧ Char.isDigit '$' = false := by
      decide
    simp [scan, hclass, afterLineEnd?, Token.ofSymbol?]
  rw [lex_eq, hscan]
  exact Option.some_ne_none _

/-- A text that starts with nothing else starts with a word, a numeral or a symbol. -/
theorem exists_spelling (hline : c ≠ '\n' ∧ c ≠ '\r') (hhash : c ≠ '#') (hblank : isBlank c ≠ true)
    (h : (lex (c :: cs)).fault = none) :
    ∃ w rest t, c :: cs = w ++ rest ∧ Spelling w t ∧ t.EndsAt rest ∧ (lex rest).fault = none := by
  rw [lex_eq] at h
  have hscans := scans (c :: cs)
  generalize htext : c :: cs = text at *
  generalize scan text = r at *
  cases hscans with
  | done => cases htext
  | blank hc =>
    cases htext
    exact absurd hc hblank
  | lineEnd hend =>
    subst htext
    rcases first_of_afterLineEnd? hend with heq | heq | heq
    · exact absurd heq hline.1
    · exact absurd heq hline.2
    · exact absurd heq hhash
  | comment hnone =>
    cases htext
    exact absurd rfl hhash
  | bad c' cs' => cases h
  | @word w rest t hw hends =>
    have hdollar : rest.head? ≠ some '$' := by
      intro hhead
      obtain ⟨rest', rfl⟩ := List.head?_eq_some_iff.1 hhead
      exact fault_dollar rest' h
    exact ⟨w, rest, t, rfl, hw, hends hdollar, h⟩

/-- A text without carriage returns that is cut up to its end is cut piece by piece. -/
theorem cuts_of_complete (x : Zone) (hcr : '\r' ∉ cs) (h : (lex (x.text cs)).fault = none) :
    ∃ z ts, Cuts [] x cs z ts := by
  -- By the length of the text: a word takes all its characters at once.
  induction hn : cs.length using Nat.strong_induction_on generalizing x cs with
  | _ n ih =>
    subst hn
    cases cs with
    | nil => exact ⟨x, [], .nil x⟩
    | cons c cs =>
      have hlt : cs.length < (c :: cs).length := Nat.lt_succ_self _
      have hcr' : '\r' ∉ cs := List.not_mem_of_not_mem_cons hcr
      by_cases hnewline : c = '\n'
      · subst hnewline
        have hrest : (lex cs).fault = none := by
          rw [← (lex_newline cs).2.2]
          cases x with
          | code => exact h
          | comment => exact (like_comment_newline cs).fault_eq.symm.trans h
        obtain ⟨z, ts, hcuts⟩ := ih _ hlt .code hcr' hrest rfl
        exact ⟨z, _, .newline hcuts⟩
      cases x with
      | comment =>
        have hrest := (like_comment_cons hnewline cs).fault_eq.symm.trans h
        obtain ⟨z, ts, hcuts⟩ := ih _ hlt .comment hcr' hrest rfl
        exact ⟨z, ts, .note hnewline hcuts⟩
      | code =>
        by_cases hhash : c = '#'
        · subst hhash
          obtain ⟨z, ts, hcuts⟩ := ih _ hlt .comment hcr' h rfl
          exact ⟨z, ts, .hash hcuts⟩
        by_cases hblank : isBlank c = true
        · have hrest : (lex cs).fault = none := lex_blank hblank cs ▸ h
          obtain ⟨z, ts, hcuts⟩ := ih _ hlt .code hcr' hrest rfl
          exact ⟨z, ts, .blank hblank hcuts⟩
        have hreturn : c ≠ '\r' := (List.ne_of_not_mem_cons hcr).symm
        obtain ⟨w, rest, t, heq, hw, hends, hrest⟩ :=
          exists_spelling ⟨hnewline, hreturn⟩ hhash hblank h
        rw [heq] at ih hcr ⊢
        have hshort : rest.length < (w ++ rest).length := by
          have hpos := List.length_pos_of_ne_nil hw.ne_nil
          rw [List.length_append]
          omega
        obtain ⟨z, ts, hcuts⟩ :=
          ih _ hshort .code (fun hmem => hcr (List.mem_append_right _ hmem)) hrest rfl
        exact ⟨z, _, .word hw ((List.append_nil rest).symm ▸ hends) hcuts⟩

/-! ## Places between tokens -/

/-- A token among `words` goes across the place between `pre` and `post`. -/
inductive Straddles (words : List Lexeme) : (pre post : List Char) → Prop
  | intro {before w₁ w₂ after : List Char} {t : Token} (hw : Spelling (w₁ ++ w₂) t) (h₁ : w₁ ≠ [])
    (h₂ : w₂ ≠ [])
      (hmem : ⟨t, (w₁ ++ w₂ ++ after).length, after.length⟩ ∈ words) :
        Straddles words (before ++ w₁) (w₂ ++ after)

namespace Straddles

variable {words words' : List Lexeme} {pre post : List Char}

theorem prepend (h : Straddles words pre post) (hsub : ∀ x ∈ words, x ∈ words')
    (front : List Char) : Straddles words' (front ++ pre) post := by
  obtain ⟨hw, h₁, h₂, hmem⟩ := h
  rw [← List.append_assoc]
  exact .intro hw h₁ h₂ (hsub _ hmem)

/-- No token goes across an end of the text or of a line. -/
theorem inside (h : Straddles words pre post) :
    pre ≠ [] ∧ post ≠ [] ∧ pre.getLast? ≠ some '\n' ∧ post.head? ≠ some '\n' := by
  obtain ⟨hw, h₁, h₂, hmem⟩ := h
  refine ⟨List.append_ne_nil_of_right_ne_nil _ h₁, List.append_ne_nil_of_left_ne_nil h₂ _,
    fun hlast => ?_, fun hhead => ?_⟩
  · rw [List.getLast?_append_of_ne_nil _ h₁] at hlast
    exact hw.newline_not_mem (List.mem_append_left _ (List.mem_of_getLast? hlast))
  · rw [List.head?_append_of_ne_nil _ h₂] at hhead
    exact hw.newline_not_mem (List.mem_append_right _ (List.mem_of_head? hhead))

theorem exists_lexeme (h : Straddles words pre post) :
    ∃ x ∈ words, x.stop < post.length ∧ post.length < x.start := by
  obtain ⟨hw, h₁, h₂, hmem⟩ := h
  have hpos₁ := List.length_pos_of_ne_nil h₁
  have hpos₂ := List.length_pos_of_ne_nil h₂
  refine ⟨_, hmem, ?_, ?_⟩
  · simp only [List.length_append]
    omega
  · simp only [List.length_append]
    omega

end Straddles

/-- Lexemes stand one behind the other. -/
theorem lexemes_ordered (cs : List Char) : (lex cs).lexemes.Pairwise (fun x y => y.start ≤ x.stop) ∧
    ∀ x ∈ (lex cs).lexemes, x.stop < x.start ∧ x.start ≤ cs.length := by
  induction hn : cs.length using Nat.strong_induction_on generalizing cs with
  | _ n ih =>
    subst hn
    have hshort := shortens_scan cs
    rw [lex_eq]
    cases hscan : scan cs with
    | done => exact ⟨.nil, List.forall_mem_nil _⟩
    | bad c => exact ⟨.nil, List.forall_mem_nil _⟩
    | skip rest =>
      rw [hscan] at hshort
      obtain ⟨hpairs, hall⟩ := ih _ hshort rest rfl
      exact ⟨hpairs, fun x hx => ⟨(hall x hx).1, Nat.le_trans (hall x hx).2 (Nat.le_of_lt hshort)⟩⟩
    | token t rest =>
      rw [hscan] at hshort
      obtain ⟨hpairs, hall⟩ := ih _ hshort rest rfl
      refine ⟨List.pairwise_cons.2 ⟨fun x hx => (hall x hx).2, hpairs⟩,
        List.forall_mem_cons.2 ⟨?_, fun x hx => ?_⟩⟩
      · exact ⟨hshort, Nat.le_refl _⟩
      · exact ⟨(hall x hx).1, Nat.le_trans (hall x hx).2 (Nat.le_of_lt hshort)⟩

/-- No token goes across a place between two tokens that follow each other. -/
theorem not_straddles_of_between {pre post : List Char} {a b : Lexeme}
    (h : [a, b] <:+: (lex cs).lexemes) (hstop : post.length ≤ a.stop)
    (hstart : b.start ≤ post.length) : ¬ Straddles (lex cs).words pre post := by
  intro hcross
  obtain ⟨before, after, h⟩ := h
  replace h : (lex cs).lexemes = before ++ a :: b :: after := by
    rw [← h, List.append_assoc]
    rfl
  obtain ⟨x, hx, hlt, hgt⟩ := hcross.exists_lexeme
  obtain ⟨hpairs, hall⟩ := lexemes_ordered cs
  replace hx : x ∈ (lex cs).lexemes := List.mem_of_mem_filter hx
  rw [h] at hpairs hall hx
  obtain ⟨_, hpairs', hbefore⟩ := List.pairwise_append.1 hpairs
  obtain ⟨hfollow, hpairs'⟩ := List.pairwise_cons.1 hpairs'
  obtain ⟨hafter, _⟩ := List.pairwise_cons.1 hpairs'
  have ha := (hall a (List.mem_append_right _ (.head _))).1
  have hb := (hall b (List.mem_append_right _ (.tail _ (.head _)))).1
  rcases List.mem_append.1 hx with hx | hx
  · have hle := hbefore x hx a (.head _)
    omega
  rcases List.mem_cons.1 hx with rfl | hx
  · omega
  rcases List.mem_cons.1 hx with rfl | hx
  · omega
  · have hle := hafter x hx
    omega

/-- The text on both sides of a place is cut up. -/
def SplitsAt (x : Zone) (pre post : List Char) (z : Zone) (ts : List Token) : Prop :=
  ∃ y ts₁ ts₂, Cuts post x pre y ts₁ ∧ Cuts [] y post z ts₂ ∧ ts = ts₁ ++ ts₂

theorem mem_words_newline {l : Lexeme} (x : Zone) (h : l ∈ (lex cs).words) :
    l ∈ (lex (x.text ('\n' :: cs))).words := by
  rw [← (lex_newline cs).2.1] at h
  cases x with
  | code => exact h
  | comment => exact (like_comment_newline cs).words_eq ▸ h

theorem stops_blank (h : isBlank c = true) (cs : List Char) : Stops (c :: cs) := by
  refine stops_cons ?_ cs
  rcases Bool.or_eq_true_iff.1 h with hc | hc
  · rw [of_decide_eq_true hc]
    decide
  · rw [of_decide_eq_true hc]
    decide

namespace Cuts

variable {pre post : List Char} {x y z : Zone} {ts ts' : List Token}

theorem splitsAt_start (h : Cuts [] x post z ts) : SplitsAt x [] post z ts :=
  ⟨x, [], ts, .nil x, h, rfl⟩

/-- One character is cut off first. -/
theorem split_cons (ts' : List Token) (h : Cuts [] x (c :: cs) z (ts' ++ ts))
    (hstep : ∀ rest, Cuts rest x [c] y ts')
    (hwords : ∀ l ∈ (lex (y.text cs)).words, l ∈ (lex (x.text (c :: cs))).words)
    (hrest : ∀ {pre}, cs = pre ++ post → SplitsAt y pre post z ts ∨
      Straddles (lex (y.text cs)).words pre post) (heq : c :: cs = pre ++ post) :
    SplitsAt x pre post z (ts' ++ ts) ∨ Straddles (lex (x.text (c :: cs))).words pre post := by
  cases pre with
  | nil =>
    subst heq
    exact .inl h.splitsAt_start
  | cons p pre =>
    obtain ⟨rfl, hcs⟩ := List.cons.inj (heq.trans (List.cons_append ..))
    rcases hrest hcs with ⟨y', ts₁, ts₂, h₁, h₂, rfl⟩ | hcross
    · exact .inl ⟨y', ts' ++ ts₁, ts₂, (hstep _).append h₁, h₂, (List.append_assoc ..).symm⟩
    · exact .inr (hcross.prepend hwords [c])

/-- A text can be cut at each place that no token goes across. -/
theorem split (h : Cuts [] x cs z ts) (heq : cs = pre ++ post) :
    SplitsAt x pre post z ts ∨ Straddles (lex (x.text cs)).words pre post := by
  induction h generalizing pre with
  | nil z =>
    obtain ⟨rfl, rfl⟩ := List.append_eq_nil_iff.1 heq.symm
    exact .inl (Cuts.nil z).splitsAt_start
  | @blank c cs z ts hc h ih =>
    refine split_cons [] (.blank hc h) (fun _ => .blank hc (.nil _)) (fun l hl => ?_) ih heq
    rw [Zone.text, lex_blank hc]
    exact hl
  | @newline x cs z ts h ih =>
    exact split_cons [.newline] (.newline h) (fun _ => .newline (.nil _))
      (fun l => mem_words_newline x) ih heq
  | hash h ih => exact split_cons [] (.hash h) (fun _ => .hash (.nil _)) (fun l hl => hl) ih heq
  | @note c cs z ts hc h ih =>
    refine split_cons [] (.note hc h) (fun _ => .note hc (.nil _)) (fun l hl => ?_) ih heq
    exact (like_comment_cons hc cs).words_eq.symm ▸ hl
  | @word w cs z t ts hw hends h ih =>
    have hcuts : Cuts [] .code (w ++ cs) z (t :: ts) := .word hw hends h
    rw [List.append_nil] at hends
    have hwords : (lex (w ++ cs)).words = ⟨t, (w ++ cs).length, cs.length⟩ :: (lex cs).words := by
      rw [lex_eq, hw.scan_eq hends]
      exact List.filter_cons_of_pos (decide_eq_true hw.ne_newline)
    rcases List.append_eq_append_iff.1 heq with ⟨mid, rfl, rfl⟩ | ⟨mid, rfl, rfl⟩
    · rcases ih rfl with ⟨y, ts₁, ts₂, h₁, h₂, rfl⟩ | hcross
      · exact .inl ⟨y, t :: ts₁, ts₂, .word hw hends h₁, h₂, rfl⟩
      · refine .inr (hcross.prepend (fun l hl => ?_) w)
        rw [Zone.text, hwords]
        exact .tail _ hl
    · -- The place is in the word, or at one of its ends.
      by_cases hpre : pre = []
      · subst hpre
        exact .inl hcuts.splitsAt_start
      by_cases hmid : mid = []
      · subst hmid
        rw [List.append_nil] at hw
        refine .inl ⟨.code, [t], ts, ?_, h, rfl⟩
        have hword : Cuts ([] ++ cs) .code (pre ++ []) .code [t] := .word hw hends (.nil .code)
        rwa [List.append_nil] at hword
      · have hcross : Straddles (lex (pre ++ mid ++ cs)).words ([] ++ pre) (mid ++ cs) :=
          .intro hw hpre hmid (hwords ▸ List.mem_cons_self)
        exact .inr hcross

/-- Behind a line end the text is cut as if it started there. -/
theorem of_newline (h : Cuts [] x ('\n' :: cs) z ts) :
    ∃ ts', ts = .newline :: ts' ∧ Cuts [] .code cs z ts' := by
  generalize htext : '\n' :: cs = text at h
  cases h with
  | nil z => cases htext
  | blank hc h =>
    cases htext
    cases hc
  | newline h =>
    cases htext
    exact ⟨_, rfl, h⟩
  | hash h => cases htext
  | note hc h =>
    cases htext
    exact absurd rfl hc
  | @word w rest z t ts hw hends h =>
    have hmem : '\n' ∈ (w ++ rest).head? := htext ▸ rfl
    rw [List.head?_append_of_ne_nil _ hw.ne_nil] at hmem
    exact absurd (List.mem_of_head? hmem) hw.newline_not_mem

/-- The two sides of a place are put together. -/
theorem join (h : Cuts post x pre y ts) (h' : Cuts [] y post z ts') :
    Cuts [] x (pre ++ post) z (ts ++ ts') := by
  rw [← List.append_nil post] at h
  exact h.append h'

/-- The text behind a place is replaced. -/
theorem replace {post' : List Char} (h : Cuts post x pre y ts) (hstops : Stops post')
    (h' : Cuts [] y post' z ts') : Cuts [] x (pre ++ post') z (ts ++ ts') :=
  (h.followed hstops).join h'

theorem insert_blanks {blanks : List Char} (h : Cuts [] x (pre ++ post) z ts)
    (hcut : ¬ Straddles (lex (x.text (pre ++ post))).words pre post)
    (hblanks : ∀ c ∈ blanks, isBlank c = true) : Cuts [] x (pre ++ (blanks ++ post)) z ts := by
  cases blanks with
  | nil => exact h
  | cons c cs =>
    obtain ⟨y, ts₁, ts₂, h₁, h₂, rfl⟩ := (h.split rfl).resolve_right hcut
    have hstops : Stops (c :: cs ++ post) := stops_blank (hblanks c (.head _)) _
    exact h₁.replace hstops ((Cuts.blanks hblanks post y).join h₂)

end Cuts

/-! ## Edits -/

/-- One edit of the layout: the second text has blanks where two tokens of the first one meet or
where a line starts or ends, a comment at the end of a line, or a line more that is blank or a
comment. -/
inductive Relaid : List Char → List Char → Prop
  | between {pre post blanks : List Char} {a b : Lexeme}
    (htokens : [a, b] <:+: (lex (pre ++ post)).lexemes)
      (hstop : post.length ≤ a.stop) (hstart : b.start ≤ post.length) (hblanks : ∀ c ∈ blanks,
        isBlank c = true) :
      Relaid (pre ++ post) (pre ++ (blanks ++ post))
  | lineStart {pre post blanks : List Char} (hstart : pre = [] ∨ pre.getLast? = some '\n')
      (hblanks : ∀ c ∈ blanks, isBlank c = true) : Relaid (pre ++ post) (pre ++ (blanks ++ post))
  | lineEnd {pre post blanks : List Char} (hend : post = [] ∨ post.head? = some '\n')
      (hblanks : ∀ c ∈ blanks, isBlank c = true) : Relaid (pre ++ post) (pre ++ (blanks ++ post))
  | comment {pre post text : List Char} (htext : '\n' ∉ text) :
      Relaid (pre ++ '\n' :: post) (pre ++ (' ' :: '#' :: text ++ '\n' :: post))
  | blankLine {pre post blanks : List Char} (hblanks : ∀ c ∈ blanks, isBlank c = true) :
      Relaid (pre ++ '\n' :: post) (pre ++ '\n' :: (blanks ++ '\n' :: post))
  | commentLine {pre post blanks text : List Char} (hblanks : ∀ c ∈ blanks,
    isBlank c = true) (htext : '\n' ∉ text) :
      Relaid (pre ++ '\n' :: post) (pre ++ '\n' :: (blanks ++ '#' :: text ++ '\n' :: post))

theorem squeeze_append (ts ts' : List Token) :
    squeeze (ts ++ ts') = ts.foldr addToken (squeeze ts') :=
  List.foldr_append ..

/-- Two line ends in a row are one. -/
theorem squeeze_newlines (ts ts' : List Token) :
    squeeze (ts ++ .newline :: .newline :: ts') = squeeze (ts ++ .newline :: ts') := by
  have honce : addToken .newline (addToken .newline (squeeze ts'))
      = addToken .newline (squeeze ts') := by
    refine if_pos ⟨rfl, ?_⟩
    unfold addToken
    split
    · rename_i hand
      exact hand.2
    · rfl
  rw [squeeze_append, squeeze_append]
  exact congrArg (ts.foldr addToken) honce

theorem stops_newline (cs : List Char) : Stops ('\n' :: cs) := stops_cons (by decide) cs

section Edits

variable {pre post line : List Char} {x y z : Zone} {ts : List Token}

/-- A text can be cut before each line end. -/
theorem Cuts.split_newline (h : Cuts [] x (pre ++ '\n' :: post) z ts) : ∃ y ts₁ ts₂,
    Cuts ('\n' :: post) x pre y ts₁ ∧ Cuts [] .code post z ts₂ ∧ ts = ts₁ ++ .newline :: ts₂ := by
  rcases h.split rfl with ⟨y, ts₁, ts₂, h₁, h₂, rfl⟩ | hcross
  · obtain ⟨ts₃, rfl, h₃⟩ := h₂.of_newline
    exact ⟨y, ts₁, ts₃, h₁, h₃, rfl⟩
  · exact absurd rfl hcross.inside.2.2.2

/-- A line without tokens is added. -/
theorem Cuts.insert_line (h : Cuts [] x (pre ++ '\n' :: post) z ts)
    (hline : Cuts ('\n' :: post) .code line y []) :
    ∃ ts', Cuts [] x (pre ++ '\n' :: (line ++ '\n' :: post)) z ts' ∧ squeeze ts' = squeeze ts := by
  obtain ⟨x', ts₁, ts₂, h₁, h₂, rfl⟩ := h.split_newline
  have hrest : Cuts [] .code (line ++ '\n' :: post) z ([] ++ .newline :: ts₂) :=
    hline.join (.newline h₂)
  exact ⟨_, h₁.replace (stops_newline _) (.newline hrest), squeeze_newlines ts₁ ts₂⟩

/-- An edit of the layout leaves the tokens alone. -/
theorem Relaid.cuts (hedit : Relaid cs cs') (h : Cuts [] .code cs z ts) :
    ∃ ts', Cuts [] .code cs' z ts' ∧ squeeze ts' = squeeze ts := by
  cases hedit with
  | between htokens hstop hstart hblanks =>
    exact ⟨ts, h.insert_blanks (not_straddles_of_between htokens hstop hstart) hblanks, rfl⟩
  | lineStart hstart hblanks =>
    refine ⟨ts, h.insert_blanks (fun hcross => ?_) hblanks, rfl⟩
    obtain ⟨hpre, _, hlast, _⟩ := hcross.inside
    exact hstart.elim hpre hlast
  | lineEnd hend hblanks =>
    refine ⟨ts, h.insert_blanks (fun hcross => ?_) hblanks, rfl⟩
    obtain ⟨_, hpost, _, hhead⟩ := hcross.inside
    exact hend.elim hpost hhead
  | @comment pre post text htext =>
    obtain ⟨x, ts₁, ts₂, h₁, h₂, rfl⟩ := h.split_newline
    have hcomment : Cuts ('\n' :: post) x (' ' :: '#' :: text) .comment [] := by
      cases x with
      | code => exact .blank rfl (.hash (.notes htext _))
      | comment => exact .note (by decide) (.note (by decide) (.notes htext _))
    exact ⟨_, h₁.replace (stops_blank rfl _) (hcomment.join (.newline h₂)), rfl⟩
  | blankLine hblanks => exact h.insert_line (.blanks hblanks _ _)
  | @commentLine pre post blanks text hblanks htext =>
    have hline : Cuts ('\n' :: post) .code (blanks ++ '#' :: text) .comment ([] ++ []) :=
      (Cuts.blanks hblanks _ _).append (.hash (.notes htext _))
    exact h.insert_line hline

/-- So do any number of edits. -/
theorem cuts_of_edits (hedits : Relation.ReflTransGen Relaid cs cs') (h : Cuts [] .code cs z ts) :
    ∃ ts', Cuts [] .code cs' z ts' ∧ squeeze ts' = squeeze ts := by
  induction hedits with
  | refl => exact ⟨ts, h, rfl⟩
  | tail _ hedit ih =>
    obtain ⟨ts₁, h₁, hsame₁⟩ := ih
    obtain ⟨ts₂, h₂, hsame₂⟩ := hedit.cuts h₁
    exact ⟨ts₂, h₂, hsame₂.trans hsame₁⟩

end Edits

/-! ## Programs -/

/-- Texts with the same tokens are read as the same programs. -/
theorem parse_congr {s s' : String} {ts : List Token} (h : Lexes s.toList ts)
    (h' : Lexes s'.toList ts) {p : Program} (hp : parse s = .ok p) : parse s' = .ok p := by
  obtain ⟨functions, hread, hbuild⟩ := parse_eq_ok hp
  rw [h.tokens] at hread
  exact parse_of_lexes h' hread hbuild

/-- Reading ignores layout: a text that comes by edits of the layout from one without carriage
returns and without characters that start no token is read if and only if that one is, and as the
same program. -/
theorem parse_relaid {s s' : String} (hcr : '\r' ∉ s.toList)
    (hcomplete : (lex s.toList).fault = none)
    (hedits : Relation.ReflTransGen Relaid s.toList s'.toList) (p : Program) :
    parse s' = .ok p ↔ parse s = .ok p := by
  obtain ⟨z, ts, hcuts⟩ := cuts_of_complete .code hcr hcomplete
  obtain ⟨ts', hcuts', hsame⟩ := cuts_of_edits hedits hcuts
  have hlexes : Lexes s'.toList (squeeze ts) := hsame ▸ hcuts'.lexes
  exact ⟨parse_congr hlexes hcuts.lexes, parse_congr hcuts.lexes hlexes⟩

/-- A text with no more layout than it needs. -/
def tightText : String := "function f()\x7b\n\x7d"

/-- The text with a blank before the brace, a comment behind it, a line that is a comment, and an
indented line. -/
def looseText : String := "function f() \x7b # f\n# none\n \x7d"

/-- The function of both texts. -/
def returnsNothing : Func where
  name := "f"
  params := []
  blocks := Table.ofList [("entry", { name := "entry", term := some (.ret none) })]

theorem parse_relaid_loose : '\r' ∉ tightText.toList ∧ (lex tightText.toList).fault = none ∧
    Relation.ReflTransGen Relaid tightText.toList looseText.toList ∧
      parse looseText = .ok ⟨Table.ofList [("f", returnsNothing)]⟩ := by
  have hcr : '\r' ∉ tightText.toList := by simp [tightText]
  have hcomplete : (lex tightText.toList).fault = none := by cbv
  have hread : parse tightText = .ok ⟨Table.ofList [("f", returnsNothing)]⟩ := by cbv
  have hbetween : Relaid tightText.toList "function f() \x7b\n\x7d".toList := by
    have hedit := @Relaid.between "function f()".toList "\x7b\n\x7d".toList [' '] ⟨.rparen, 4,
      3⟩ ⟨.lbrace, 3, 2⟩
      (by decide +kernel) (by decide +kernel) (by decide +kernel) (List.forall_mem_singleton.2 rfl)
    simpa [tightText] using hedit
  have hcomment : Relaid "function f() \x7b\n\x7d".toList "function f() \x7b # f\n\x7d".toList := by
    have hedit := @Relaid.comment "function f() \x7b".toList ['\x7d'] [' ', 'f'] (by simp)
    simpa using hedit
  have hline : Relaid "function f() \x7b # f\n\x7d".toList
      "function f() \x7b # f\n# none\n\x7d".toList := by
    have hedit := @Relaid.commentLine "function f() \x7b # f".toList ['\x7d'] [] " none".toList
      (List.forall_mem_nil _) (by simp)
    simpa using hedit
  have hstart : Relaid "function f() \x7b # f\n# none\n\x7d".toList looseText.toList := by
    have hedit := @Relaid.lineStart "function f() \x7b # f\n# none\n".toList ['\x7d'] [' ']
      (by simp) (List.forall_mem_singleton.2 rfl)
    simpa [looseText] using hedit
  have hedits : Relation.ReflTransGen Relaid tightText.toList looseText.toList :=
    .tail (.tail (.tail (.tail .refl hbetween) hcomment) hline) hstart
  exact ⟨hcr, hcomplete, hedits, (parse_relaid hcr hcomplete hedits _).2 hread⟩

end ThreeAddress.Text
