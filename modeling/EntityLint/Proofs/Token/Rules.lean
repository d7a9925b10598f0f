import EntityLint.Proofs.Token.Lookahead
import EntityLint.Proofs.Token.Stream
import Mathlib

/-!
# The rules of the cutter, one by one

The cutter of code tries its rules in turn. Here each rule stands on its own, with the condition
under which it is the one that counts.

* `IsSymbol`: characters that no other rule takes;
* `CodePiece`, `codePiece_eq_ok_iff`: the pieces of code, rule by rule.
-/

namespace EntityLint

open Lexeme Text

/-- The marks around strings. -/
def isQuote (c : Char) : Bool := c == '\'' || c == '"' || c == '\x60'

/-- A character that begins none of the other lexemes: it begins an operator or stands for
itself. -/
structure IsSymbol (c : Char) (t : Text) : Prop where
  closeTag : ¬(c = '?' ∧ t.head? = some '>')
  blank : isCodeBlank c = false
  hash : c ≠ '#'
  slash : c = '/' → t.head? ≠ some '/' ∧ t.head? ≠ some '*'
  dollar : ¬(c = '$' ∧ t.head?.any isWordStart = true)
  quote : isQuote c = false
  heredoc : heredocLabel? (c :: t) = none
  number : ¬(c.isDigit = true ∨ c = '.' ∧ t.head?.any Char.isDigit = true)
  word : isWordStart c = false

/-- The pieces that stand at the beginning of code, one constructor for each rule. -/
inductive CodePiece (ctx : Context) (c : Char) (t : Text) : Piece → Prop
  | closeTag (hc : c = '?') (ht : t.head? = some '>') :
    CodePiece ctx c t (.cut .closeTag c t (closeTagLength (c :: t)))
  | blank (hc : isCodeBlank c = true) : CodePiece ctx c t (.cut .blank c t (blankLength (c :: t)))
  | attributeOpen (hc : c = '#') (ht : t.head? = some '[') :
    CodePiece ctx c t (.cut .attributeOpen c t 2)
  | lineComment (h : c = '#' ∧ t.head? ≠ some '[' ∨ c = '/' ∧ t.head? = some '/') :
    CodePiece ctx c t (.cut .comment c t (lineCommentLength (c :: t)))
  | docComment (body rest : Text) (hdoc : opensDocComment (c :: t) = true)
    (h : breakOn "*/".toList (t.drop 2) = some (body, rest)) :
    CodePiece ctx c t (.docComment (docLexemes false body))
  | blockComment (n : ℕ) (hc : c = '/') (ht : t.head? = some '*')
    (hdoc : opensDocComment (c :: t) = false) (h : blockCommentLength? (c :: t) = some n) :
    CodePiece ctx c t (.cut .comment c t n)
  | variableName (hc : c = '$') (ht : t.head?.any isWordStart = true) :
    CodePiece ctx c t (.cut .variable c t (1 + wordLength t))
  | quoted (n : ℕ) (hc : isQuote c = true) (h : quotedLength? (c :: t) = some n) :
    CodePiece ctx c t (.cut .quoted c t n)
  | heredoc (label : Text) (n : ℕ) (hlabel : heredocLabel? (c :: t) = some label)
    (h : heredocLength? label (c :: t) = some n) : CodePiece ctx c t (.cut .quoted c t n)
  | number (h : c.isDigit = true ∨ c = '.' ∧ t.head?.any Char.isDigit = true) :
    CodePiece ctx c t (.cut .number c t (numberLength (c :: t)))
  | word (hc : isWordStart c = true) :
    CodePiece ctx c t (.cut (ctx.wordKind ((c :: t).take (wordLength (c :: t)))
      ((c :: t).drop (wordLength (c :: t)))) c t (wordLength (c :: t)))
  | symbol (h : IsSymbol c t) : CodePiece ctx c t (.cut (symbolAt c t).1 c t (symbolAt c t).2)

theorem eq_cons_of_opensDocComment {c : Char} {t : Text} (h : opensDocComment (c :: t) = true) :
    ∃ d u, c = '/' ∧ t = '*' :: '*' :: d :: u ∧ isAsciiBlank d = true := by
  unfold opensDocComment at h
  split at h
  · next d u hopen =>
    have htext := append_of_stripLeading? hopen
    obtain ⟨rfl, rfl⟩ : c = '/' ∧ t = '*' :: '*' :: d :: u := by simpa [eq_comm] using htext
    exact ⟨d, u, rfl, rfl, h⟩
  · cases h

theorem eq_of_heredocLabel? {c : Char} {t label : Text} (h : heredocLabel? (c :: t) = some label) :
    c = '<' := by
  unfold heredocLabel? at h
  obtain ⟨header, hheader, -⟩ := Option.bind_eq_some_iff.1 h
  exact (List.cons.inj (append_of_stripLeading? hheader)).1.symm

/-- A character that is neither a blank nor a quote nor part of a word, and that none of the other
lexemes begins with. -/
theorem IsSymbol.of_char {c : Char} (hplain : c ∉ ['?', '#', '/', '$', '<', '.'])
    (hblank : isCodeBlank c = false) (hquote : isQuote c = false) (hdigit : c.isDigit = false)
    (hword : isWordStart c = false) (t : Text) : IsSymbol c t := by
  have hne : ∀ d ∈ ['?', '#', '/', '$', '<', '.'], c ≠ d := fun d hd heq => hplain (heq ▸ hd)
  refine ⟨fun h => hne '?' (by decide) h.1, hblank, hne '#' (by decide),
    fun h => absurd h (hne '/' (by decide)), fun h => hne '$' (by decide) h.1, hquote, ?_,
    not_or.2 ⟨Bool.eq_false_iff.1 hdigit, fun h => hne '.' (by decide) h.1⟩, hword⟩
  cases hlabel : heredocLabel? (c :: t) with
  | none => rfl
  | some label => exact absurd (eq_of_heredocLabel? hlabel) (hne '<' (by decide))

/-- The opening of a heredoc is taken by no other rule. -/
theorem codePiece_of_heredocLabel? (ctx : Context) {c : Char} {t label : Text}
    (h : heredocLabel? (c :: t) = some label) :
    codePiece ctx c t = match heredocLength? label (c :: t) with
      | some n => .ok (.cut .quoted c t n)
      | none => .error (.unterminatedString ctx.line) := by
  obtain rfl := eq_of_heredocLabel? h
  have hdoc : opensDocComment ('<' :: t) = false := rfl
  simp only [codePiece, isCodeBlank, hdoc, h]
  rfl

theorem codePiece_of_ok {ctx : Context} {c : Char} {t : Text} {p : Piece}
    (h : codePiece ctx c t = .ok p) : CodePiece ctx c t p := by
  cases hlabel : heredocLabel? (c :: t) with
  | some label =>
    rw [codePiece_of_heredocLabel? ctx hlabel] at h
    split at h
    · next n hn => cases h; exact .heredoc label n hlabel hn
    · cases h
  | none =>
    simp only [codePiece, hlabel] at h
    split_ifs at h with hclose hblank hattribute hline hdoc hblock hvariable hquoted hnumber hword
    · cases h; exact .closeTag hclose.1 hclose.2
    · cases h; exact .blank hblank
    · cases h; exact .attributeOpen hattribute.1 hattribute.2
    · cases h
      exact .lineComment (hline.imp_left fun hc => ⟨hc, fun ht => hattribute ⟨hc, ht⟩⟩)
    · split at h
      · next body rest hbreak => cases h; exact .docComment body rest hdoc hbreak
      · cases h
    · split at h
      · next n hn => cases h; exact .blockComment n hblock.1 hblock.2 (Bool.eq_false_iff.2 hdoc) hn
      · cases h
    · cases h; exact .variableName hvariable.1 hvariable.2
    · split at h
      · next n hn => cases h; exact .quoted n (by simpa [isQuote, or_assoc] using hquoted) hn
      · cases h
    · cases h; exact .number hnumber
    · cases h; exact .word hword
    · cases h
      have hslash : c = '/' → t.head? ≠ some '/' ∧ t.head? ≠ some '*' :=
        fun hc => ⟨fun ht => hline (.inr ⟨hc, ht⟩), fun ht => hblock ⟨hc, ht⟩⟩
      have hquote : isQuote c = false := by simpa [isQuote, and_assoc] using hquoted
      exact .symbol ⟨hclose, Bool.eq_false_iff.2 hblank, fun hc => hline (.inl hc), hslash,
        hvariable, hquote, hlabel, hnumber, Bool.eq_false_iff.2 hword⟩

theorem isDigit_eq_false_of_isWordStart {c : Char} (h : isWordStart c = true) :
    c.isDigit = false := by
  refine Bool.eq_false_iff.2 fun hdigit => ?_
  simp only [isWordStart, Char.isAlpha, Char.isUpper, Char.isLower, Char.isDigit, Bool.or_eq_true,
    Bool.and_eq_true, decide_eq_true_eq, beq_iff_eq, ge_iff_le, UInt32.le_iff_toNat_le]
    at h hdigit
  have hle : c.toNat ≤ 57 := hdigit.2
  rcases h with ((⟨hl, -⟩ | ⟨hl, -⟩) | rfl) | hl
  · exact absurd (hl.trans hdigit.2) (by decide)
  · exact absurd (hl.trans hdigit.2) (by decide)
  · exact absurd hdigit.2 (by decide)
  · omega

theorem codePiece_eq_ok {ctx : Context} {c : Char} {t : Text} {p : Piece}
    (h : CodePiece ctx c t p) : codePiece ctx c t = .ok p := by
  have hlabel : ∀ {d : Char}, d ≠ '<' → heredocLabel? (d :: t) = none := by
    intro d hd
    cases hd' : heredocLabel? (d :: t) with
    | none => rfl
    | some label => exact absurd (eq_of_heredocLabel? hd') hd
  have hdoc : ∀ {d : Char}, d ≠ '/' → opensDocComment (d :: t) = false := by
    intro d hd
    refine Bool.eq_false_iff.2 fun hopen => hd ?_
    obtain ⟨_, _, h, -⟩ := eq_cons_of_opensDocComment hopen
    exact h
  -- with the first character known, the rules that are tried before decide themselves
  cases h with
  | closeTag hc ht => subst hc; simp [codePiece, ht]
  | blank hc =>
    rcases (by simpa [isCodeBlank, or_assoc] using hc : c = ' ' ∨ c = '\t' ∨ c = '\r' ∨ c = '\n')
      with rfl | rfl | rfl | rfl
    all_goals simp [codePiece, isCodeBlank]
  | attributeOpen hc ht => subst hc; simp [codePiece, ht, isCodeBlank]
  | lineComment h =>
    rcases h with ⟨rfl, ht⟩ | ⟨rfl, ht⟩
    · simp [codePiece, ht, isCodeBlank]
    · simp [codePiece, ht, isCodeBlank]
  | docComment body rest hopen h =>
    obtain ⟨d, u, rfl, rfl, hd⟩ := eq_cons_of_opensDocComment hopen
    simp only [codePiece, hopen, h]
    simp [isCodeBlank]
  | blockComment n hc ht hopen h => subst hc; simp [codePiece, ht, isCodeBlank, hopen, h]
  | variableName hc ht => subst hc; simp [codePiece, ht, isCodeBlank, hdoc]
  | quoted n hc h =>
    rcases (by simpa [isQuote, or_assoc] using hc : c = '\'' ∨ c = '"' ∨ c = '\x60')
      with rfl | rfl | rfl
    all_goals simp [codePiece, isCodeBlank, hdoc, h]
  | heredoc label n hlabel h => rw [codePiece_of_heredocLabel? ctx hlabel, h]
  | number h =>
    have hne : ∀ d : Char, d.isDigit = false → d ≠ '.' → c ≠ d := by
      rintro d hd hpoint rfl
      rcases h with h | ⟨rfl, -⟩
      · rw [hd] at h
        cases h
      · exact hpoint rfl
    have hblank : isCodeBlank c = false := by simp [isCodeBlank, hne]
    simp [codePiece, hne, hblank, hdoc, hlabel, h]
  | word hc =>
    have hne : ∀ d : Char, isWordStart d = false → c ≠ d := by
      rintro d hd rfl
      rw [hd] at hc
      cases hc
    have hblank : isCodeBlank c = false := by
      simp [isCodeBlank, hne ' ' rfl, hne '\t' rfl, hne '\r' rfl, hne '\n' rfl]
    simp [codePiece, hne '?' rfl, hne '#' rfl, hne '/' rfl, hne '$' rfl, hne '\'' rfl,
      hne '"' rfl, hne '\x60' rfl, hne '.' rfl, hblank, hdoc (hne '/' rfl), hlabel (hne '<' rfl),
      isDigit_eq_false_of_isWordStart hc, hc]
  | symbol h =>
    have hopen : opensDocComment (c :: t) = false := by
      refine Bool.eq_false_iff.2 fun hopen => ?_
      obtain ⟨_, _, rfl, rfl, -⟩ := eq_cons_of_opensDocComment hopen
      exact (h.slash rfl).2 rfl
    have hquote : ¬(c = '\'' ∨ c = '"' ∨ c = '\x60') := by
      simpa [isQuote, and_assoc] using h.quote
    have hline : ¬(c = '/' ∧ t.head? = some '/') := fun hc => (h.slash hc.1).1 hc.2
    have hblock : ¬(c = '/' ∧ t.head? = some '*') := fun hc => (h.slash hc.1).2 hc.2
    simp only [codePiece]
    rw [if_neg h.closeTag, if_neg (Bool.eq_false_iff.1 h.blank), if_neg fun hc => h.hash hc.1,
      if_neg (not_or.2 ⟨h.hash, hline⟩), if_neg (Bool.eq_false_iff.1 hopen), if_neg hblock,
      if_neg h.dollar, if_neg hquote, h.heredoc]
    dsimp only
    rw [if_neg h.number, if_neg (Bool.eq_false_iff.1 h.word)]

/-- The cutter tries its rules in an order, and each rule has a condition of its own. -/
theorem codePiece_eq_ok_iff {ctx : Context} {c : Char} {t : Text} {p : Piece} :
    codePiece ctx c t = .ok p ↔ CodePiece ctx c t p :=
  ⟨codePiece_of_ok, codePiece_eq_ok⟩

end EntityLint
