import EntityLint.Proofs.Bounds.Measures

/-!
# The turns of a lexer, rule by rule

A turn asks one rule and takes what it finds. Here the choice of the rule stands apart from the turn.

* `outsideMeasure`, `codeMeasure`, `docMeasure`: which rule is asked;
* `begins_outsideMeasure`, `exists_codeMeasure`, `begins_docMeasure`: it is asked where it belongs;
* `Lexer.take`, `takeTurn`, `takePart`: take what a rule finds;
* `Lexer.lexOutside_eq_takeTurn`, `lexCode_eq_takeTurn`, `docTurn_eq_takePart`: this is what a turn does.
-/

namespace EntityLint.Bytewise

open Lexeme Text

/-! ### Which rule is asked -/

/-- The rule that is asked outside of code. -/
def outsideMeasure (c : Char) (t : Text) : Measure :=
  if openTagOffset? (c :: t) = some 0 then .openTag else .plainText

/-- The rule that is asked inside of code. -/
def codeMeasure (c : Char) (t : Text) : Checked Measure := do
  let rest := c :: t
  let next := (← cutFrom rest c.utf8Size).head?
  if c = '?' ∧ next = some '>' then return .closeTag
  else if isCodeBlank c then return .blank
  else if c = '#' ∧ next = some '[' then return .attributeOpen
  else if c = '#' ∨ c = '/' ∧ next = some '/' then return .lineComment
  else if ← Lexer.opensDocComment rest then return .docOpen
  else if c = '/' ∧ next = some '*' then return .blockComment
  else if c = '$' ∧ next.any isWordStart then return .variableName
  else if c = '\'' ∨ c = '"' ∨ c = '\x60' then return .quoted c
  else if ← Lexer.opensHeredoc rest then return .heredoc
  else if c.isDigit ∨ c = '.' ∧ next.any Char.isDigit then return .number
  else if isWordStart c then return .word
  else return .symbol

/-- The rule that is asked in the body of a doc comment. -/
def docMeasure (lineStart : Bool) (c : Char) (t : Text) : Measure :=
  if startsWith (c :: t) ['\r', '\n'] ∨ c = '\n' then .docLineBreak
  else if isSpaceOrTab c ∨ c = '\r' then .docBlank
  else if c = '*' ∧ lineStart then .docStar
  else if c = '@' ∧ 1 < docTagLength (c :: t) then .docTag
  else .docText

/-! ### Rules are asked where they belong -/

variable {c d : Char} {t : Text}

theorem begins_outsideMeasure (c : Char) (t : Text) : (outsideMeasure c t).Begins c t := by
  rw [outsideMeasure]
  split
  · next h => exact h
  · next h => exact h

theorem begins_docMeasure (lineStart : Bool) (c : Char) (t : Text) :
    (docMeasure lineStart c t).Begins c t := by
  rw [docMeasure]
  split_ifs with hbreak hblank hstar htag
  · refine hbreak.imp_left fun h => ?_
    obtain ⟨rest, hrest⟩ := Option.isSome_iff_exists.1 h
    exact ⟨rest, append_of_stripLeading? hrest⟩
  · exact hblank
  · exact hstar.1
  · exact htag.1
  · exact True.intro

theorem prefix_of_head? (h : t.head? = some d) : [c, d] <+: c :: t := by
  obtain ⟨u, rfl⟩ := List.head?_eq_some_iff.1 h
  exact ⟨u, rfl⟩

/-- Inside of code a rule is asked, and where it belongs. -/
theorem exists_codeMeasure (c : Char) (t : Text) :
    ∃ m, codeMeasure c t = .ok m ∧ m.Begins c t := by
  have hnext : cutFrom (c :: t) c.utf8Size = .ok t := cutFrom_eq (u := [c]) rfl (by simp)
  rw [codeMeasure, hnext]
  dsimp only [Checked.ok_bind]
  -- rule by rule, each time with what its condition says of the text
  by_cases hclose : c = '?' ∧ t.head? = some '>'
  · obtain ⟨rfl, ht⟩ := hclose
    rw [if_pos ⟨rfl, ht⟩]
    exact ⟨.closeTag, rfl, prefix_of_head? ht⟩
  rw [if_neg hclose]
  by_cases hblank : isCodeBlank c = true
  · rw [if_pos hblank]
    exact ⟨.blank, rfl, hblank⟩
  rw [if_neg hblank]
  by_cases hattribute : c = '#' ∧ t.head? = some '['
  · obtain ⟨rfl, ht⟩ := hattribute
    rw [if_pos ⟨rfl, ht⟩]
    exact ⟨.attributeOpen, rfl, prefix_of_head? ht⟩
  rw [if_neg hattribute]
  by_cases hline : c = '#' ∨ c = '/' ∧ t.head? = some '/'
  · rw [if_pos hline]
    refine ⟨.lineComment, rfl, hline.imp_right ?_⟩
    rintro ⟨rfl, ht⟩
    exact prefix_of_head? ht
  rw [if_neg hline, Lexer.opensDocComment_eq]
  dsimp only [Checked.ok_bind]
  by_cases hdoc : EntityLint.opensDocComment (c :: t) = true
  · rw [if_pos hdoc]
    obtain ⟨d, u, rfl, rfl, -⟩ := eq_cons_of_opensDocComment hdoc
    exact ⟨.docOpen, rfl, d :: u, rfl⟩
  rw [if_neg hdoc]
  by_cases hblock : c = '/' ∧ t.head? = some '*'
  · obtain ⟨rfl, ht⟩ := hblock
    rw [if_pos ⟨rfl, ht⟩]
    exact ⟨.blockComment, rfl, prefix_of_head? ht⟩
  rw [if_neg hblock]
  by_cases hvariable : c = '$' ∧ t.head?.any isWordStart = true
  · rw [if_pos hvariable]
    exact ⟨.variableName, rfl, hvariable.1⟩
  rw [if_neg hvariable]
  by_cases hquote : c = '\'' ∨ c = '"' ∨ c = '\x60'
  · rw [if_pos hquote]
    refine ⟨.quoted c, rfl, rfl, ?_⟩
    rcases hquote with rfl | rfl | rfl <;> rfl
  rw [if_neg hquote, Lexer.opensHeredoc_eq]
  dsimp only [Checked.ok_bind]
  by_cases hheredoc : (Lexeme.heredocLabel? (c :: t)).isSome = true
  · rw [if_pos hheredoc]
    obtain ⟨label, hlabel⟩ := Option.isSome_iff_exists.1 hheredoc
    obtain ⟨header, hheader, -⟩ := Option.bind_eq_some_iff.1 hlabel
    exact ⟨.heredoc, rfl, header, append_of_stripLeading? hheader⟩
  rw [if_neg hheredoc]
  by_cases hnumber : c.isDigit = true ∨ c = '.' ∧ t.head?.any Char.isDigit = true
  · rw [if_pos hnumber]
    exact ⟨.number, rfl, hnumber.imp_right And.left⟩
  rw [if_neg hnumber]
  by_cases hword : isWordStart c = true
  · rw [if_pos hword]
    exact ⟨.word, rfl, hword⟩
  · rw [if_neg hword]
    exact ⟨.symbol, rfl, True.intro⟩

namespace Measure

/-- The error of a lexeme without end. -/
def error : Measure → Nat → LexError
  | quoted _ | heredoc => .unterminatedString
  | _ => .unterminatedComment

/-- The kind of what a rule measures. Names and operators have kinds of their own. -/
def kind : Measure → Kind
  | plainText => .plainText
  | openTag => .openTag
  | closeTag => .closeTag
  | blank => .blank
  | attributeOpen => .attributeOpen
  | lineComment | blockComment => .comment
  | variableName => .variable
  | quoted _ | heredoc => .quoted
  | number => .number
  | word | symbol => .word
  | docOpen => .docOpen
  | docLineBreak | docBlank => .docBlank
  | docStar => .docStar
  | docTag => .docTag
  | docText => .docText
  | docClose => .docClose

end Measure

namespace Lexer

/-- The kind of what comes next, given the rule that is asked. -/
def kindOf (s : Lexer) (m : Measure) (c : Char) (t : Text) : Checked Kind :=
  match m with
  | .word => do s.wordKind (← cutTo (c :: t) (wordLength (c :: t)))
  | .symbol => return (symbolAt c t).1
  | m => return m.kind

/-- Take what a rule finds, or tell that there is no end. -/
def take (s : Lexer) (m : Measure) (c : Char) (t : Text) : Checked Lexer := do
  let kind ← s.kindOf m c t
  match ← m.length? c t with
  | some n => s.push kind n
  | none => throw (.failure (m.error s.line))

/-- A turn in a text, once the rule is known. A doc comment is taken as a whole. -/
def takeTurn (s : Lexer) (c : Char) (t : Text) (m : Measure) : Checked (Lexer × Bool) := do
  if m = .docOpen then return (← s.lexDocComment, true)
  else return (← s.take m c t, m ∉ [.closeTag, .plainText])

/-- A turn in the body of a doc comment, once the rule is known. -/
def takePart (s : Lexer) (tags : List Nat) (lineStart : Bool) (c : Char) (t : Text) (m : Measure) :
    Checked (Lexer × List Nat × Bool) := do
  let s' ← s.take m c t
  match m with
  | .docLineBreak => return (s', tags, true)
  | .docBlank => return (s', tags, lineStart)
  | .docTag => return (s', tags ++ [s.lexemes.length], false)
  | _ => return (s', tags, false)

/-- A turn that looks for the end of a lexeme. -/
theorem takeTurn_of_found (s : Lexer) {c : Char} {t : Text} {m : Measure} {kind : Kind}
    (hkind : s.kindOf m c t = .ok kind) (hcode : m ∉ [.docOpen, .closeTag, .plainText])
    {length : Checked (Option Nat)} (hlength : m.length? c t = length) :
    (do return (← s.pushFound kind m.error (← length), true)) = s.takeTurn c t m := by
  rw [List.mem_cons, not_or] at hcode
  rw [takeTurn, if_neg hcode.1, take, hkind, hlength, decide_eq_true hcode.2]
  cases length with
  | error stop => rfl
  | ok length => cases length <;> rfl

/-- **A turn inside of code.** It takes what the rule finds that is asked. -/
theorem lexCode_eq_takeTurn (s : Lexer) (c : Char) (t : Text) :
    s.lexCode c t = codeMeasure c t >>= s.takeTurn c t := by
  have hnext : cutFrom (c :: t) c.utf8Size = .ok t := cutFrom_eq (u := [c]) rfl (by simp)
  rw [lexCode, codeMeasure, hnext]
  dsimp only [Checked.ok_bind]
  by_cases hclose : c = '?' ∧ t.head? = some '>'
  · rw [if_pos hclose, if_pos hclose]
    simp [takeTurn, take, kindOf, Measure.length?, Measure.kind]
  rw [if_neg hclose, if_neg hclose]
  by_cases hblank : isCodeBlank c = true
  · rw [if_pos hblank, if_pos hblank]
    rfl
  rw [if_neg hblank, if_neg hblank]
  by_cases hattribute : c = '#' ∧ t.head? = some '['
  · rw [if_pos hattribute, if_pos hattribute]
    rfl
  rw [if_neg hattribute, if_neg hattribute]
  by_cases hline : c = '#' ∨ c = '/' ∧ t.head? = some '/'
  · rw [if_pos hline, if_pos hline]
    rfl
  rw [if_neg hline, if_neg hline, opensDocComment_eq]
  dsimp only [Checked.ok_bind]
  by_cases hdoc : EntityLint.opensDocComment (c :: t) = true
  · rw [if_pos hdoc, if_pos hdoc]
    rfl
  rw [if_neg hdoc, if_neg hdoc]
  by_cases hblock : c = '/' ∧ t.head? = some '*'
  · rw [if_pos hblock, if_pos hblock]
    exact takeTurn_of_found s (m := .blockComment) rfl (by decide) rfl
  rw [if_neg hblock, if_neg hblock]
  by_cases hvariable : c = '$' ∧ t.head?.any isWordStart = true
  · rw [if_pos hvariable, if_pos hvariable]
    simp [takeTurn, take, kindOf, Measure.length?, Measure.kind]
  rw [if_neg hvariable, if_neg hvariable]
  by_cases hquote : c = '\'' ∨ c = '"' ∨ c = '\x60'
  · rw [if_pos hquote, if_pos hquote]
    exact takeTurn_of_found s (m := .quoted c) rfl (by simp) rfl
  rw [if_neg hquote, if_neg hquote, opensHeredoc_eq]
  dsimp only [Checked.ok_bind]
  by_cases hheredoc : (Lexeme.heredocLabel? (c :: t)).isSome = true
  · rw [if_pos hheredoc, if_pos hheredoc]
    exact takeTurn_of_found s (m := .heredoc) rfl (by decide) rfl
  rw [if_neg hheredoc, if_neg hheredoc]
  by_cases hnumber : c.isDigit = true ∨ c = '.' ∧ t.head?.any Char.isDigit = true
  · rw [if_pos hnumber, if_pos hnumber]
    simp [takeTurn, take, kindOf, Measure.length?, Measure.kind]
  rw [if_neg hnumber, if_neg hnumber]
  by_cases hword : isWordStart c = true
  · rw [if_pos hword, if_pos hword]
    simp [takeTurn, take, kindOf, Measure.length?]
  · rw [if_neg hword, if_neg hword]
    simp [takeTurn, take, kindOf, Measure.length?]

theorem lexOutside_eq_takeTurn {s : Lexer} {c : Char} {t : Text} (h : s.rest = .ok (c :: t)) :
    s.lexOutside = s.takeTurn c t (outsideMeasure c t) := by
  rw [lexOutside, h, outsideMeasure]
  dsimp only [Checked.ok_bind]
  cases hoffset : openTagOffset? (c :: t) with
  | none => simp [takeTurn, take, kindOf, Measure.length?, Measure.kind, hoffset]
  | some i =>
    cases i with
    | zero => simp [takeTurn, take, kindOf, Measure.length?, Measure.kind]
    | succ i => simp [takeTurn, take, kindOf, Measure.length?, Measure.kind, hoffset]

theorem docTurn_eq_takePart (s : Lexer) (tags : List Nat) (lineStart : Bool) (c : Char) (t : Text) :
    s.docTurn tags lineStart c t = s.takePart tags lineStart c t (docMeasure lineStart c t) := by
  rw [docTurn, docMeasure]
  by_cases hbreak : startsWith (c :: t) ['\r', '\n'] = true
  · rw [if_pos hbreak, if_pos (.inl hbreak)]
    simp [takePart, take, kindOf, Measure.length?, Measure.kind, hbreak]
  rw [if_neg hbreak]
  by_cases hline : c = '\n'
  · rw [if_pos hline, if_pos (.inr hline)]
    simp [takePart, take, kindOf, Measure.length?, Measure.kind, hbreak]
  rw [if_neg hline, if_neg (not_or.2 ⟨hbreak, hline⟩)]
  split_ifs
  all_goals simp [takePart, take, kindOf, Measure.length?, Measure.kind]

end Lexer

end EntityLint.Bytewise
