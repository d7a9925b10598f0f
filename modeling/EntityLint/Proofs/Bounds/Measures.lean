import EntityLint.Proofs.Bounds.Lexer
import EntityLint.Proofs.Token.Position
import EntityLint.Proofs.Token.Recut

/-!
# What a lexer measures

At each place a lexer picks a rule by the characters that stand there, and asks it for a number of
bytes. The rule looks at what comes next, and answers with a number or that the lexeme has no end.

* `Fits`: a number of bytes is the length of a first part of a text;
* `Measure`, `Measure.length?`: the rules and the numbers of bytes they find;
* `Measure.Begins`: what stands where a rule is asked.

The main statement is `Measure.isSound`: what a rule finds there fits.
-/

namespace EntityLint.Bytewise

open Lexeme Text

/-! ### Numbers of bytes that fit -/

/-- A number of bytes is the length of a first part of a text: it is not zero, there are as many, and it
does not end inside of a character. -/
structure Fits (t : Text) (n : Nat) : Prop where
  pos : 1 ≤ n
  le : n ≤ (String.ofList t).utf8ByteSize
  boundary : String.Pos.Raw.IsValid (String.ofList t) ⟨n⟩

/-- A first part of a text ends between two characters. -/
theorem isValid_append (u v : Text) :
    String.Pos.Raw.IsValid (String.ofList (u ++ v)) ⟨u.utf8Length⟩ := by
  refine String.Pos.Raw.isValid_iff_exists_append.2
    ⟨String.ofList u, String.ofList v, String.ofList_append, ?_⟩
  rw [String.rawEndPos, utf8ByteSize_ofList]

theorem fits_append {u : Text} (hu : u ≠ []) (v : Text) : Fits (u ++ v) u.utf8Length where
  pos := utf8Length_pos hu
  le := by
    rw [utf8ByteSize_ofList, utf8Length_append]
    exact Nat.le_add_right _ _
  boundary := isValid_append u v

/-- The first characters of a text fit, if they are any. -/
theorem fits_size {t : Text} (ht : t ≠ []) {k : Nat} (hk : 0 < k) : Fits t (size t k) := by
  have hne : t.take k ≠ [] := by
    rw [Ne, List.take_eq_nil_iff, not_or]
    exact ⟨Nat.pos_iff_ne_zero.1 hk, ht⟩
  have hfits := fits_append hne (t.drop k)
  rwa [List.take_append_drop] at hfits

/-! ### The rules -/

/-- The rules that measure what comes next. -/
inductive Measure
  | plainText
  | openTag
  | closeTag
  | blank
  | attributeOpen
  | lineComment
  | blockComment
  | variableName
  | quoted (quote : Char)
  | heredoc
  | number
  | word
  | symbol
  | docOpen
  | docLineBreak
  | docBlank
  | docStar
  | docTag
  | docText
  | docClose
  deriving DecidableEq, Repr

namespace Measure

/-- The number of bytes that a rule finds at the beginning of a text `c :: t`, if the lexeme has an
end. -/
def length? (m : Measure) (c : Char) (t : Text) : Checked (Option Nat) :=
  let rest : Text := c :: t
  match m with
  | plainText => return some ((openTagOffset? rest).getD rest.utf8Length)
  | openTag => return some (if startsWith rest "<?=".toList then 3 else 5)
  | closeTag => return some (← closeTagLength rest)
  | blank => return some (blankLength rest)
  | attributeOpen => return some 2
  | lineComment => return some (lineCommentLength rest)
  | blockComment => blockCommentLength? rest
  | variableName => return some (1 + wordLength (← cutFrom rest 1))
  | quoted quote => quotedLength? quote rest
  | heredoc => heredocLength? rest
  | number => return some (← numberLength rest)
  | word => return some (wordLength rest)
  | symbol => return some (symbolAt c t).2
  | docOpen => return (offsetOf? "*/".toList (← cutFrom rest 3)).map fun _ => 3
  | docLineBreak => return some (if startsWith rest ['\r', '\n'] then 2 else 1)
  | docBlank => return some (docBlankLength rest)
  | docStar => return some 1
  | docTag => return some (docTagLength rest)
  | docText => return some (max (← docTextLength rest) c.utf8Size)
  | docClose => return some 2

/-- What stands where a rule is asked. -/
def Begins (m : Measure) (c : Char) (t : Text) : Prop :=
  match m with
  | plainText => openTagOffset? (c :: t) ≠ some 0
  | openTag => openTagOffset? (c :: t) = some 0
  | closeTag => "?>".toList <+: c :: t
  | blank => isCodeBlank c = true
  | attributeOpen => "#[".toList <+: c :: t
  | lineComment => c = '#' ∨ "//".toList <+: c :: t
  | blockComment => "/*".toList <+: c :: t
  | variableName => c = '$'
  | quoted quote => c = quote ∧ isQuote quote = true
  | heredoc => "<<<".toList <+: c :: t
  | number => c.isDigit = true ∨ c = '.'
  | word => isWordStart c = true
  | symbol => True
  | docOpen => "/**".toList <+: c :: t
  | docLineBreak => "\r\n".toList <+: c :: t ∨ c = '\n'
  | docBlank => isSpaceOrTab c = true ∨ c = '\r'
  | docStar => c = '*'
  | docTag => c = '@'
  | docText => True
  | docClose => "*/".toList <+: c :: t

/-- A rule has an answer, which fits unless it is that there is no end. -/
def IsSound (m : Measure) (c : Char) (t : Text) : Prop :=
  ∃ length, m.length? c t = .ok length ∧ ∀ n ∈ length, Fits (c :: t) n

section Sound

variable {m : Measure} {c : Char} {t : Text}

/-- A rule that finds some first characters is sound. -/
theorem isSound_of_size {k : Nat} (h : m.length? c t = .ok (some (size (c :: t) k))) (hk : 0 < k) :
    m.IsSound c t :=
  ⟨_, h, fun _ hn => Option.mem_some.1 hn ▸ fits_size (List.cons_ne_nil c t) hk⟩

/-- A rule that looks for an end, which is behind some first characters, is sound. -/
theorem isSound_of_map_size {length : Option Nat}
    (h : m.length? c t = .ok (length.map (size (c :: t)))) (hk : ∀ k ∈ length, 0 < k) :
    m.IsSound c t := by
  refine ⟨_, h, fun n hn => ?_⟩
  obtain ⟨k, hmem, rfl⟩ := Option.map_eq_some_iff.1 hn
  exact fits_size (List.cons_ne_nil c t) (hk k hmem)

/-- A rule that finds a text that stands there is sound. -/
theorem isSound_of_leading {u : Text} (hu : u ≠ []) (hlead : u <+: c :: t)
    (h : m.length? c t = .ok (some u.utf8Length)) : m.IsSound c t := by
  obtain ⟨v, hv⟩ := hlead
  exact ⟨_, h, fun _ hn => Option.mem_some.1 hn ▸ hv ▸ fits_append hu v⟩

/-! ### Rules outside of code -/

theorem isSound_plainText (h : plainText.Begins c t) : plainText.IsSound c t := by
  have hclosed : openTagLength? (c :: t) = none := by
    rw [Begins, openTagOffset?_cons] at h
    cases hopen : openTagLength? (c :: t) with
    | none => rfl
    | some n => exact absurd (if_pos (by rw [hopen]; rfl)) h
  refine isSound_of_size ?_ (plainTextLength_pos hclosed)
  rw [length?, openTagOffset?_getD]
  rfl

theorem isSound_openTag (h : openTag.Begins c t) : openTag.IsSound c t := by
  have hopen : (openTagLength? (c :: t)).isSome = true := by
    by_contra hclosed
    rw [Begins, openTagOffset?_cons, if_neg hclosed, Option.map_eq_some_iff] at h
    obtain ⟨i, -, hi⟩ := h
    have := c.utf8Size_pos
    omega
  obtain ⟨n, hn⟩ := Option.isSome_iff_exists.1 hopen
  obtain ⟨u, rest, hu, htext, -⟩ := openTagLength?_eq_some_iff.1 hn
  refine isSound_of_leading hu.ne_nil ⟨rest, htext.symm⟩ ?_
  dsimp only [length?]
  rw [htext]
  rcases hu with rfl | rfl <;> rfl

/-! ### Rules of code -/

theorem isSound_closeTag (h : closeTag.Begins c t) : closeTag.IsSound c t := by
  obtain ⟨u, hu⟩ := h
  refine isSound_of_size ?_ (closeTagLength_pos (c :: t))
  rw [length?, ← hu]
  change (do return some (← closeTagLength ('?' :: '>' :: u)) : Checked (Option Nat)) = _
  rw [closeTagLength_eq]
  rfl

theorem isSound_blank (h : blank.Begins c t) : blank.IsSound c t := by
  refine isSound_of_size ?_ (blankLength_pos h t)
  rw [size_blankLength]
  rfl

theorem isSound_lineComment (h : lineComment.Begins c t) : lineComment.IsSound c t := by
  have hc : c = '#' ∨ c = '/' := h.imp_right fun hslash => ((List.cons_prefix_cons).1 hslash).1.symm
  refine isSound_of_size ?_ (lineCommentLength_pos hc t)
  rw [← lineCommentLength_eq]
  rfl

theorem isSound_blockComment (h : blockComment.Begins c t) : blockComment.IsSound c t := by
  obtain ⟨u, hu⟩ := h
  refine isSound_of_map_size ?_ fun k hk => pos_of_blockCommentLength? (t := c :: t) hk
  rw [length?, ← hu]
  exact blockCommentLength?_eq u

theorem isSound_variableName (h : variableName.Begins c t) : variableName.IsSound c t := by
  obtain rfl : c = '$' := h
  refine isSound_of_size (k := 1 + Lexeme.wordLength t) ?_ (Nat.add_pos_left Nat.one_pos _)
  have hcut : cutFrom ('$' :: t) 1 = .ok t := cutFrom_eq (u := ['$']) rfl rfl
  rw [length?, hcut, Nat.add_comm, size_cons, ← wordLength_eq]
  rfl

/-- The scan of a string lands between characters, whatever stands behind a backslash. -/
theorem isSound_quoted {quote : Char} (h : (quoted quote).Begins c t) :
    (quoted quote).IsSound c t := by
  obtain ⟨rfl, hquote⟩ := h
  have hlt : c.toNat < 128 := by
    rcases (by simpa [isQuote, or_assoc] using hquote : c = '\'' ∨ c = '"' ∨ c = '\x60')
      with rfl | rfl | rfl <;> decide
  exact isSound_of_map_size (quotedLength?_eq hlt t) fun k hk => pos_of_quotedLength? hk

theorem isSound_heredoc (h : heredoc.Begins c t) : heredoc.IsSound c t := by
  obtain ⟨u, hu⟩ := h
  have hlength : heredoc.length? c t = .ok (((Lexeme.heredocLabel? (c :: t)).bind fun label =>
      Lexeme.heredocLength? label (c :: t)).map (size (c :: t))) := by
    rw [length?, ← hu]
    refine (heredocLength?_eq u).trans ?_
    cases Lexeme.heredocLabel? ("<<<".toList ++ u) <;> rfl
  refine isSound_of_map_size hlength fun k hk => ?_
  obtain ⟨label, -, hk⟩ := Option.bind_eq_some_iff.1 hk
  exact pos_of_heredocLength? hk

theorem isSound_number (h : number.Begins c t) : number.IsSound c t := by
  refine isSound_of_size ?_ (numberLength_pos c t)
  dsimp only [length?]
  rw [numberLength_eq h]
  rfl

theorem isSound_word (h : word.Begins c t) : word.IsSound c t := by
  refine isSound_of_size ?_ (wordLength_pos h t)
  rw [← wordLength_eq]
  rfl

theorem isSound_symbol : symbol.IsSound c t := by
  refine isSound_of_size ?_ (symbolAt_pos c t)
  rw [length?, symbolAt_eq]
  rfl

/-! ### Rules of doc comments -/

theorem isSound_docOpen (h : docOpen.Begins c t) : docOpen.IsSound c t := by
  obtain ⟨u, hu⟩ := h
  have hcut : cutFrom (c :: t) 3 = .ok u := cutFrom_eq hu.symm rfl
  refine ⟨(offsetOf? "*/".toList u).map fun _ => 3, ?_, fun n hn => ?_⟩
  · dsimp only [length?]
    rw [hcut]
    rfl
  · obtain ⟨i, -, rfl⟩ := Option.map_eq_some_iff.1 hn
    exact hu ▸ fits_append (List.cons_ne_nil _ _) u

theorem isSound_docLineBreak (h : docLineBreak.Begins c t) : docLineBreak.IsSound c t := by
  rcases h with hbreak | rfl
  · refine isSound_of_leading (List.cons_ne_nil _ _) hbreak ?_
    obtain ⟨u, hu⟩ := hbreak
    rw [length?, ← hu]
    rfl
  · exact isSound_of_leading (u := ['\n']) (List.cons_ne_nil _ _) ⟨t, rfl⟩ rfl

theorem isSound_docBlank (h : docBlank.Begins c t) : docBlank.IsSound c t := by
  rcases h with hspace | rfl
  · refine isSound_of_size (k := ((c :: t).takeWhile isSpaceOrTab).length) ?_ ?_
    · rw [← docBlankLength_eq hspace]
      rfl
    · rw [List.takeWhile_cons_of_pos hspace]
      exact Nat.succ_pos _
  · exact isSound_of_leading (u := ['\r']) (List.cons_ne_nil _ _) ⟨t, rfl⟩ rfl

theorem isSound_docTag : docTag.IsSound c t := by
  refine isSound_of_size (k := Lexeme.docTagLength (c :: t)) ?_ (Nat.add_pos_left Nat.one_pos _)
  rw [← docTagLength_eq]
  rfl

theorem isSound_docText : docText.IsSound c t := by
  refine isSound_of_size (k := max (Lexeme.docTextLength (c :: t)) 1) ?_ (by omega)
  dsimp only [length?]
  rw [docTextLength_eq, Checked.ok_bind, Lexer.max_size]
  rfl

/-- **What a rule finds fits.** -/
theorem isSound (h : m.Begins c t) : m.IsSound c t := by
  cases m with
  | plainText => exact isSound_plainText h
  | openTag => exact isSound_openTag h
  | closeTag => exact isSound_closeTag h
  | blank => exact isSound_blank h
  | attributeOpen => exact isSound_of_leading (List.cons_ne_nil _ _) h rfl
  | lineComment => exact isSound_lineComment h
  | blockComment => exact isSound_blockComment h
  | variableName => exact isSound_variableName h
  | quoted quote => exact isSound_quoted h
  | heredoc => exact isSound_heredoc h
  | number => exact isSound_number h
  | word => exact isSound_word h
  | symbol => exact isSound_symbol
  | docOpen => exact isSound_docOpen h
  | docLineBreak => exact isSound_docLineBreak h
  | docBlank => exact isSound_docBlank h
  | docStar =>
    obtain rfl : c = '*' := h
    exact isSound_of_leading (u := ['*']) (List.cons_ne_nil _ _) ⟨t, rfl⟩ rfl
  | docTag => exact isSound_docTag
  | docText => exact isSound_docText
  | docClose => exact isSound_of_leading (List.cons_ne_nil _ _) h rfl

end Sound

end Measure

end EntityLint.Bytewise
