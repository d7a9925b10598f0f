import EntityLint.Proofs.Token.Rules

/-!
# What lexemes tolerate

A lexeme of code stays as it is when the text after it is changed in a way that its rule cannot see.
There are three such ways: the text begins alike, a line break is put after a lexeme that has one
already, or a string is exchanged somewhere after a colon.

* `Kind.Alike`, `Context.Similar`: what the cutter need not tell apart;
* `Lexeme.Tolerates`: the changes that a lexeme tolerates;
* `Lexeme.Regular`: what the text of a lexeme says of its kind;
* `Keeps`, `codePiece_keeps`: each lexeme of code is regular, and stays when it tolerates a change.
-/

namespace EntityLint

open Lexeme Text

/-! ### Contexts -/

/-- Kinds that have a say in what the next word is. -/
def Kind.steers : Kind → Bool
  | kwFunction | arrow | nullsafeArrow | doubleColon | kwConst | ampersand => true
  | _ => false

/-- Whether a lexeme may have either of two kinds. What follows makes `enum` a keyword or a name, and
nothing else depends on it. -/
def Kind.Alike (k k' : Kind) : Prop :=
  k = k' ∨ k ∈ [word, kwEnum] ∧ k' ∈ [word, kwEnum]

namespace Kind.Alike

variable {k k' : Kind}

theorem refl (k : Kind) : k.Alike k := .inl rfl

/-- What does not tell `enum` from a name does not tell kinds apart that are alike. -/
theorem map_eq {α : Type} (h : k.Alike k') (p : Kind → α) (hp : p .kwEnum = p .word) :
    p k = p k' := by
  rcases h with rfl | ⟨hk, hk'⟩
  · rfl
  · simp only [List.mem_cons, List.not_mem_nil, or_false] at hk hk'
    rcases hk with rfl | rfl <;> rcases hk' with rfl | rfl <;> simp [hp]

end Kind.Alike

namespace Context

/-- Two contexts in which the same text is cut in the same way, up to kinds that are alike. -/
structure Similar (a b : Context) : Prop where
  inCode : a.inCode = b.inCode
  last : a.last.filter Kind.steers = b.last.filter Kind.steers
  earlier : a.inCode = true → a.earlier.filter Kind.steers = b.earlier.filter Kind.steers
  afterBackslash : a.inCode = true → a.afterBackslash = b.afterBackslash
  /-- Outside of code, nothing is left to say what the next word is. -/
  outside : a.inCode = false → a.last.filter Kind.steers = none

variable {a b : Context}

theorem similar_start : start.Similar start :=
  ⟨rfl, rfl, fun _ => rfl, fun _ => rfl, fun _ => rfl⟩

theorem expectsName_eq (a : Context) : a.expectsName = match a.last.filter Kind.steers with
    | some .ampersand => a.earlier.filter Kind.steers == some .kwFunction
    | some _ => true
    | none => false := by
  unfold expectsName
  cases hlast : a.last with
  | none => rfl
  | some k =>
    cases k with
    | ampersand =>
      cases a.earlier with
      | none => rfl
      | some k => cases k <;> rfl
    | _ => rfl

theorem Similar.expectsName_eq (h : a.Similar b) (hcode : a.inCode = true) :
    a.expectsName = b.expectsName := by
  rw [Context.expectsName_eq, Context.expectsName_eq, h.last, h.earlier hcode]

theorem Similar.wordKind_alike (h : a.Similar b) (hcode : a.inCode = true) {word rest rest' : Text}
    (hrest : rest.head? = some '\\' ↔ rest'.head? = some '\\') :
    (a.wordKind word rest).Alike (b.wordKind word rest') := by
  have hhead : (rest.head? == some '\\') = (rest'.head? == some '\\') := by
    rw [Bool.eq_iff_iff, beq_iff_eq, beq_iff_eq, hrest]
  unfold wordKind
  rw [h.expectsName_eq hcode, h.afterBackslash hcode, hhead]
  split
  · exact .refl _
  · split
    · refine .inr ⟨?_, ?_⟩
      · split <;> simp
      · split <;> simp
    · exact .refl _
    · exact .refl _

theorem inCode_after_of_isTrivia {l : Lexeme} (h : l.kind.isTrivia = true) :
    (a.after l).inCode = a.inCode := by
  obtain ⟨k, t⟩ := l
  cases k <;> first | rfl | cases h

/-- Contexts stay similar after lexemes of kinds that are alike. -/
theorem Similar.after (h : a.Similar b) {l l' : Lexeme} (hkind : l.kind.Alike l'.kind)
    (hend : (a.after l).inCode = true →
      (l.text.getLast? = some '\\' ↔ l'.text.getLast? = some '\\'))
    (hout : (a.after l).inCode = false → l.kind.steers = false) :
    (a.after l).Similar (b.after l') := by
  have htrivia : l.kind.isTrivia = l'.kind.isTrivia := hkind.map_eq Kind.isTrivia rfl
  have hsteers := hkind.map_eq (fun k => (some k).filter Kind.steers) rfl
  constructor
  case inCode =>
    simp only [Context.after, h.inCode]
    exact hkind.map_eq (fun k => (b.after ⟨k, []⟩).inCode) rfl
  case last =>
    simp only [Context.after, htrivia]
    split
    · exact h.last
    · exact hsteers
  case earlier =>
    intro hcode
    cases hl : l.kind.isTrivia with
    | true =>
      rw [inCode_after_of_isTrivia hl] at hcode
      simp only [Context.after, ← htrivia, hl]
      exact h.earlier hcode
    | false =>
      simp only [Context.after, ← htrivia, hl]
      exact h.last
  case afterBackslash =>
    intro hcode
    simp only [Context.after]
    rw [Bool.eq_iff_iff, beq_iff_eq, beq_iff_eq, hend hcode]
  case outside =>
    intro hcode
    cases hl : l.kind.isTrivia with
    | true =>
      rw [inCode_after_of_isTrivia hl] at hcode
      simp only [Context.after, hl]
      exact h.outside hcode
    | false =>
      simp only [Context.after, hl]
      exact Option.filter_some_neg (hout hcode)

end Context

/-! ### Changes of the following text -/

namespace Lexeme

/-- The changes of the text after a lexeme that the lexeme tolerates. -/
inductive Tolerates (l : Lexeme) (rest rest' : Text) : Prop
  /-- The text begins alike. -/
  | view (h : Text.view rest = Text.view rest')
  /-- The text begins with a line break, and the lexeme has one, too. -/
  | line (hl : '\n' ∈ l.text) (c : Char) (t : Text) (h : rest' = c :: t) (hc : isLineEnd c = true)
  /-- A string is exchanged for another one, after a colon and things that do not count. -/
  | literal (hk : l.kind = .colon ∨ l.kind.isTrivia = true) (s : Text) (q : Char) (t t' : Text)
    (hq : isQuote q = true ∨ q = '<') (h : rest = s ++ q :: t) (h' : rest' = s ++ '\'' :: t')

/-- What the text of a lexeme says of its kind. -/
structure Regular (l : Lexeme) : Prop where
  colon : l.kind = .colon → ∃ c ∈ l.text, isSoft c = false
  word : l.kind = .word → IsName l.text
  quoted : l.kind = .quoted → ∃ q t, l.text = q :: t ∧ (isQuote q = true ∨ q = '<')

/-- What the text of a lexeme of code and the text after it say of its kind. -/
structure Stands (l : Lexeme) (rest : Text) : Prop extends Regular l where
  unescaped : '\n' ∈ l.text ∨ l.kind = .quoted → l.text.getLast? ≠ some '\\'
  boundary : l.kind = .word → rest.head?.any isWordChar = false

namespace Tolerates

variable {l : Lexeme} {rest rest' : Text}

theorem refl (l : Lexeme) (rest : Text) : l.Tolerates rest rest := .view rfl

/-- A lexeme without line breaks, neither a colon nor one that does not count, tolerates only texts
that begin alike. -/
theorem view_eq (h : l.Tolerates rest rest') (hline : '\n' ∉ l.text) (hcolon : l.kind ≠ .colon)
    (htrivia : l.kind.isTrivia = false) : Text.view rest = Text.view rest' := by
  cases h with
  | view h => exact h
  | line hl => exact absurd hl hline
  | literal hk =>
    rcases hk with hk | hk
    · exact absurd hk hcolon
    · rw [htrivia] at hk
      cases hk

/-- The new text begins as the old one or with a line break or with a quote. -/
theorem head?_cases (h : l.Tolerates rest rest') :
    rest'.head? = rest.head? ∨ '\n' ∈ l.text ∧ rest'.head?.any isLineEnd = true ∨
      rest'.head? = some '\'' := by
  cases h with
  | view h => exact .inl (head?_eq_of_view h).symm
  | line hl c t h hc => subst h; exact .inr (.inl ⟨hl, hc⟩)
  | literal _ s q t t' _ h h' =>
    subst h h'
    cases s with
    | nil => exact .inr (.inr rfl)
    | cons c s => exact .inl rfl

end Tolerates

end Lexeme

/-! ### Lexemes that stay -/

/-- The next piece is a lexeme that stays as it is when it tolerates a change of the text after it,
apart from its kind being another one that is alike. -/
def Keeps (ctx : Context) (c : Char) (t : Text) (p : Piece) : Prop :=
  ∃ (l : Lexeme) (u rest : Text), p = .single l ∧ l.text = c :: u ∧ t = u ++ rest ∧
    l.Stands rest ∧
    ∀ (ctx' : Context) (rest' : Text), ctx.Similar ctx' → l.Tolerates rest rest' →
      ∃ k', l.kind.Alike k' ∧ CodePiece ctx' c (u ++ rest') (.single ⟨k', l.text⟩)

namespace Piece

theorem cut_append {kind : Kind} {c : Char} {u rest : Text} {n : ℕ} (hn : n = u.length + 1) :
    cut kind c (u ++ rest) n = single ⟨kind, c :: u⟩ := by
  simp [cut, hn]

end Piece

section Rules

variable {ctx : Context} {c : Char} {t : Text}

/-- A way to show that a rule keeps its lexeme. -/
theorem keeps_of_cut {kind : Kind} {u rest : Text} {n : ℕ} (ht : t = u ++ rest)
    (hn : n = u.length + 1) (hstands : Stands ⟨kind, c :: u⟩ rest)
    (hkeep : ∀ (ctx' : Context) (rest' : Text), ctx.Similar ctx' →
      Tolerates ⟨kind, c :: u⟩ rest rest' →
      ∃ k' n', n' = u.length + 1 ∧ kind.Alike k' ∧
        CodePiece ctx' c (u ++ rest') (.cut k' c (u ++ rest') n')) :
    Keeps ctx c t (.cut kind c t n) := by
  subst ht
  refine ⟨⟨kind, c :: u⟩, u, rest, Piece.cut_append hn, rfl, rfl, hstands,
    fun ctx' rest' hsimilar htolerates => ?_⟩
  obtain ⟨k', n', hn', halike, hpiece⟩ := hkeep ctx' rest' hsimilar htolerates
  rw [Piece.cut_append hn'] at hpiece
  exact ⟨k', halike, hpiece⟩

/-- The last character of a lexeme that is neither a string nor has a line break does not matter. -/
theorem unescaped_of_not_mem {kind : Kind} {u : Text} (hline : '\n' ∉ c :: u)
    (hkind : kind ≠ .quoted) :
    '\n' ∈ c :: u ∨ kind = .quoted → (c :: u).getLast? ≠ some '\\' :=
  fun h => (h.elim hline hkind).elim

theorem keeps_closeTag (hc : c = '?') (ht : t.head? = some '>') :
    Keeps ctx c t (.cut .closeTag c t (closeTagLength (c :: t))) := by
  subst hc
  obtain ⟨t, rfl⟩ : ∃ t', t = '>' :: t' := by
    cases t with
    | nil => cases ht
    | cons d t => exact ⟨t, by rw [Option.some.inj ht]⟩
  obtain ⟨u, rest, rfl, hlen, hlast, hstable⟩ := closeTagLength_spec t
  refine keeps_of_cut (u := '>' :: u) rfl hlen ⟨⟨nofun, nofun, nofun⟩, ?_, nofun⟩
    fun ctx' rest' _ htolerates => ?_
  · rintro (hmem | hkind)
    · have hu : u ≠ [] := by rintro rfl; exact absurd hmem (by decide)
      rw [← List.singleton_append, ← List.singleton_append (x := '>'), List.getLast?_append,
        List.getLast?_append, hlast hu]
      decide
    · cases hkind
  · refine ⟨.closeTag, _, hstable rest' ?_, .refl _, .closeTag rfl rfl⟩
    rintro rfl
    exact htolerates.view_eq (by decide) (by decide) rfl

theorem keeps_blank (hc : isCodeBlank c = true) :
    Keeps ctx c t (.cut .blank c t (blankLength (c :: t))) := by
  obtain ⟨v, rest, htext, hlen, hblank, hends, hstable⟩ := blankLength_spec (c :: t)
  cases v with
  | nil =>
    rw [List.nil_append] at htext
    subst htext
    rcases hends with h | h
    · cases h
    · rw [show isCodeBlank c = false from h] at hc
      cases hc
  | cons d u =>
    obtain ⟨rfl, rfl⟩ := List.cons.inj htext
    refine keeps_of_cut rfl hlen ⟨⟨nofun, nofun, nofun⟩, fun _ hlast => ?_, nofun⟩
      fun ctx' rest' _ htolerates => ?_
    · cases hblank _ (List.mem_of_getLast? hlast)
    · refine ⟨.blank, _, hstable rest' ?_, .refl _, .blank hc⟩
      rcases hends with hline | hhead
      · exact .inl hline
      · rcases htolerates.head?_cases with h | ⟨hline, -⟩ | h
        · exact .inr (h ▸ hhead)
        · exact .inl hline
        · exact .inr (h ▸ rfl)

theorem keeps_attributeOpen (hc : c = '#') (ht : t.head? = some '[') :
    Keeps ctx c t (.cut .attributeOpen c t 2) := by
  subst hc
  cases t with
  | nil => cases ht
  | cons d rest =>
    obtain rfl := Option.some.inj ht
    refine keeps_of_cut (u := ['[']) rfl rfl
      ⟨⟨nofun, nofun, nofun⟩, unescaped_of_not_mem (by decide) (by decide), nofun⟩ fun ctx' rest' _ _ =>
        ⟨.attributeOpen, 2, rfl, .refl _, .attributeOpen rfl rfl⟩

/-- The end of a line comment stays one when the comment tolerates the change. -/
theorem endsLine_of_tolerates {l : Lexeme} {rest rest' : Text} (hends : EndsLine rest)
    (h : l.Tolerates rest rest') (hline : '\n' ∉ l.text) : EndsLine rest' := by
  cases h with
  | view hview =>
    rcases hends with hends | ⟨t, rfl⟩
    · exact .inl (head?_eq_of_view hview ▸ hends)
    · have hsoft : ∀ c ∈ ['?', '>'], isSoft c = true := List.all_eq_true.1 rfl
      obtain ⟨u, rfl, -⟩ := exists_of_view_append hsoft hview
      exact .inr ⟨u, rfl⟩
  | line hl => exact absurd hl hline
  | literal _ s q t t' hq h h' =>
    subst h h'
    have hne : ∀ d : Char, isQuote d = false → d ≠ '<' → q ≠ d := by
      rintro d hd hd' rfl
      rcases hq with hq | hq
      · rw [hd] at hq
        cases hq
      · exact hd' hq
    match s, hends with
    | [], .inl hq' =>
      rcases (by simpa [isLineEnd] using hq' : q = '\r' ∨ q = '\n') with rfl | rfl
      · exact absurd rfl (hne _ rfl (by decide))
      · exact absurd rfl (hne _ rfl (by decide))
    | [], .inr ⟨_, heq⟩ => exact absurd (List.cons.inj heq).1 (hne _ rfl (by decide))
    | _ :: _, .inl hd => exact .inl hd
    | [_], .inr ⟨_, heq⟩ =>
      exact absurd (List.cons.inj (List.cons.inj heq).2).1 (hne _ rfl (by decide))
    | d :: e :: s, .inr ⟨_, heq⟩ =>
      simp only [List.cons_append, List.cons.injEq] at heq
      obtain ⟨rfl, rfl, -⟩ := heq
      exact .inr ⟨_, rfl⟩

theorem keeps_lineComment (h : c = '#' ∧ t.head? ≠ some '[' ∨ c = '/' ∧ t.head? = some '/') :
    Keeps ctx c t (.cut .comment c t (lineCommentLength (c :: t))) := by
  obtain ⟨v, rest, htext, hlen, hline, hends, hstable⟩ := lineCommentLength_spec (c :: t)
  cases v with
  | nil =>
    rw [List.nil_append] at htext
    subst htext
    rcases h with ⟨rfl, -⟩ | ⟨rfl, -⟩ <;> rcases hends with hends | ⟨_, hends⟩ <;> cases hends
  | cons d u =>
    obtain ⟨rfl, rfl⟩ := List.cons.inj htext
    have hmem : '\n' ∉ c :: u := fun hmem => by cases hline _ hmem
    refine keeps_of_cut rfl hlen ⟨⟨nofun, nofun, nofun⟩, unescaped_of_not_mem hmem nofun, nofun⟩
      fun ctx' rest' _ htolerates => ?_
    have hends' := endsLine_of_tolerates hends htolerates hmem
    refine ⟨.comment, _, hstable rest' hends', .refl _, .lineComment ?_⟩
    cases u with
    | nil =>
      have hhead : ∀ {r : Text} {d : Char}, EndsLine r → isLineEnd d = false → d ≠ '?' →
          r.head? ≠ some d := by
        rintro r d (hr | ⟨_, rfl⟩) hd hne heq
        · rw [heq] at hr
          exact absurd hr (Bool.eq_false_iff.1 hd)
        · exact hne (Option.some.inj heq).symm
      exact h.imp (fun hc => ⟨hc.1, hhead hends' rfl (by decide)⟩)
        fun hc => absurd hc.2 (hhead hends rfl (by decide))
    | cons d u => exact h

theorem opensDocComment_congr (x y : Char) (s s' : Text) :
    opensDocComment ('/' :: '*' :: x :: y :: s) = opensDocComment ('/' :: '*' :: x :: y :: s') := by
  by_cases hx : '*' = x
  · subst hx
    rfl
  · have hnot : ∀ t : Text, opensDocComment ('/' :: '*' :: x :: t) = false := by
      intro t
      refine Bool.eq_false_iff.2 fun hopen => ?_
      obtain ⟨_, _, -, heq, -⟩ := eq_cons_of_opensDocComment hopen
      exact hx (List.cons.inj (List.cons.inj heq).2).1.symm
    rw [hnot, hnot]

theorem keeps_blockComment {n : ℕ} (hc : c = '/') (ht : t.head? = some '*')
    (hdoc : opensDocComment (c :: t) = false) (h : blockCommentLength? (c :: t) = some n) :
    Keeps ctx c t (.cut .comment c t n) := by
  subst hc
  cases t with
  | nil => cases ht
  | cons d t =>
    obtain rfl := Option.some.inj ht
    obtain ⟨v, rest, rfl, rfl, hstable⟩ := blockCommentLength?_spec h
    refine keeps_of_cut (u := '*' :: (v ++ "*/".toList)) rfl (by simp)
      ⟨⟨nofun, nofun, nofun⟩, ?_, nofun⟩ fun ctx' rest' _ _ => ?_
    · intro _
      rw [← List.cons_append, ← List.cons_append, List.getLast?_append,
        show "*/".toList.getLast? = some '/' from rfl]
      exact nofun
    · refine ⟨.comment, _, by simp, .refl _, .blockComment _ rfl rfl ?_ (hstable rest')⟩
      -- whether a doc comment is opened shows in the first four characters
      rw [← hdoc]
      match v with
      | [] => rfl
      | [x] => exact opensDocComment_congr x '*' _ _
      | x :: y :: v => exact opensDocComment_congr x y _ _

theorem keeps_variableName (hc : c = '$') (ht : t.head?.any isWordStart = true) :
    Keeps ctx c t (.cut .variable c t (1 + wordLength t)) := by
  subst hc
  obtain ⟨u, rest, rfl, hlen, hword, hhead, hstable⟩ := wordLength_spec t
  have hmem : '\n' ∉ '$' :: u := by
    intro hmem
    rcases List.mem_cons.1 hmem with h | h
    · cases h
    · cases hword _ h
  refine keeps_of_cut rfl (by rw [hlen, Nat.add_comm])
    ⟨⟨nofun, nofun, nofun⟩, unescaped_of_not_mem hmem nofun, nofun⟩ fun ctx' rest' _ htolerates => ?_
  have hview := htolerates.view_eq hmem nofun rfl
  have hlen' := hstable rest' (head?_eq_of_view hview ▸ hhead)
  refine ⟨.variable, 1 + wordLength (u ++ rest'), by rw [hlen', Nat.add_comm], .refl _,
    .variableName rfl ?_⟩
  rwa [← head?_eq_of_view (view_append_congr hview u)]

theorem keeps_quoted {n : ℕ} (hc : isQuote c = true) (h : quotedLength? (c :: t) = some n) :
    Keeps ctx c t (.cut .quoted c t n) := by
  have hescape : c ≠ '\\' := by rintro rfl; cases hc
  obtain ⟨m, hm, rfl⟩ := Option.map_eq_some_iff.1 h
  obtain ⟨v, rest, rfl, rfl, hstable⟩ := quotedTailLength?_spec hescape hm
  have htext : ∀ r : Text, v ++ c :: r = (v ++ [c]) ++ r := fun r => by simp
  refine keeps_of_cut (htext rest) (by simp [Nat.add_comm])
    ⟨⟨nofun, nofun, fun _ => ⟨c, _, rfl, .inl hc⟩⟩, fun _ hlast => ?_, nofun⟩
    fun ctx' rest' _ _ => ?_
  · rw [← List.cons_append, List.getLast?_append] at hlast
    exact hescape (Option.some.inj hlast)
  · rw [← htext]
    exact ⟨.quoted, _, by simp [Nat.add_comm], .refl _, .quoted _ hc
      (Option.map_eq_some_iff.2 ⟨_, hstable rest', rfl⟩)⟩

theorem keeps_heredoc {label : Text} {n : ℕ} (hlabel : heredocLabel? (c :: t) = some label)
    (h : heredocLength? label (c :: t) = some n) : Keeps ctx c t (.cut .quoted c t n) := by
  obtain ⟨hstart, hname⟩ := isName_of_heredocLabel? hlabel
  obtain ⟨v, rest, htext, rfl, hrest, hstable⟩ := heredocLength?_spec hlabel h
  obtain rfl := eq_of_heredocLabel? hlabel
  cases v with
  | nil =>
    cases label with
    | nil => cases hstart
    | cons d label =>
      obtain rfl := (List.cons.inj htext).1
      cases hstart
  | cons d v =>
    obtain ⟨rfl, rfl⟩ := List.cons.inj htext
    refine keeps_of_cut (u := v ++ label) (List.append_assoc ..).symm (by simp; omega)
      ⟨⟨nofun, nofun, fun _ => ⟨_, _, rfl, .inr rfl⟩⟩, fun _ hlast => ?_, nofun⟩
      fun ctx' rest' _ htolerates => ?_
    · rw [← List.cons_append, List.getLast?_append] at hlast
      cases hlast' : label.getLast? with
      | none =>
        rw [List.getLast?_eq_none_iff.1 hlast'] at hstart
        cases hstart
      | some d =>
        rw [hlast'] at hlast
        obtain rfl : d = '\\' := Option.some.inj hlast
        cases hname _ (List.mem_of_getLast? hlast')
    · have hrest' : rest'.head?.any isWordChar = false := by
        rcases htolerates.head?_cases with h | ⟨-, h⟩ | h
        · rw [h, hrest]
        · cases rest' with
          | nil => rfl
          | cons d rest' =>
            rcases (by simpa [isLineEnd] using h : d = '\r' ∨ d = '\n') with rfl | rfl <;> rfl
        · rw [h]
          rfl
      obtain ⟨hlabel', hlen'⟩ := hstable rest' hrest'
      rw [List.append_assoc]
      exact ⟨.quoted, _, by simp; omega, .refl _, .heredoc label _ hlabel' hlen'⟩

theorem keeps_number (h : c.isDigit = true ∨ c = '.' ∧ t.head?.any Char.isDigit = true) :
    Keeps ctx c t (.cut .number c t (numberLength (c :: t))) := by
  obtain ⟨u, rest, rfl, hlen, hline, hstable⟩ := numberLength_spec c t
  have hmem : '\n' ∉ c :: u := by
    rintro hmem
    rcases List.mem_cons.1 hmem with rfl | hmem
    · rcases h with h | ⟨h, -⟩ <;> cases h
    · exact hline hmem
  refine keeps_of_cut rfl hlen ⟨⟨nofun, nofun, nofun⟩, unescaped_of_not_mem hmem nofun, nofun⟩
    fun ctx' rest' _ htolerates => ?_
  have hview := htolerates.view_eq hmem nofun rfl
  refine ⟨.number, _, hstable rest' hview, .refl _, .number ?_⟩
  rwa [← head?_eq_of_view (view_append_congr hview u)]

theorem isSoft_eq_false_of_isWordStart {c : Char} (h : isWordStart c = true) :
    isSoft c = false := by
  refine Bool.eq_false_iff.2 fun hsoft => ?_
  have hall : ∀ d ∈ "?-<>=!&|*+./%^'\" \t\r".toList, (!isWordStart d) = true :=
    List.all_eq_true.1 rfl
  have hnot := hall c (List.contains_iff_mem.1 hsoft)
  rw [h] at hnot
  cases hnot

theorem Context.ofKeyword?_of_wordKind {ctx : Context} {word following : Text} {k : Kind}
    (h : ctx.wordKind word following = k) (hk : k ≠ .word) : Kind.ofKeyword? word = some k := by
  unfold Context.wordKind at h
  split at h
  · exact absurd h.symm hk
  · split at h
    · next henum =>
      split at h
      · exact h ▸ henum
      · exact absurd h.symm hk
    · next hsome => exact h ▸ hsome
    · exact absurd h.symm hk

/-- The kinds of names: those of the table of keywords, and that of a name that is none. -/
theorem Context.of_wordKind {P : Kind → Prop} (hword : P .word)
    (htable : ∀ x ∈ Kind.keywordTable, P x.2) (ctx : Context) (word following : Text) :
    P (ctx.wordKind word following) := by
  have henum : P .kwEnum := htable ("enum".toList, .kwEnum) (by decide)
  unfold Context.wordKind
  split
  · exact hword
  · split
    · split
      · exact henum
      · exact hword
    · next k _ hk =>
      obtain ⟨before, after, hlookup, -⟩ := List.lookup_eq_some_iff.1 hk
      exact htable (asciiLower word, k) (hlookup ▸ by simp)
    · exact hword

/-- A name that does not go on is the next lexeme. -/
theorem codePiece_of_isName (ctx : Context) {u rest : Text} (hname : IsName (c :: u))
    (hrest : rest.head?.any isWordChar = false) :
    CodePiece ctx c (u ++ rest) (.single ⟨ctx.wordKind (c :: u) rest, c :: u⟩) := by
  have hlen : wordLength (c :: (u ++ rest)) = (c :: u).length := by
    rw [wordLength, ← List.cons_append, takeWhile_append_of_head hname.2 hrest]
  have hpiece : CodePiece ctx c (u ++ rest) _ := .word hname.1
  rwa [hlen, ← List.cons_append, List.take_left, List.drop_left,
    Piece.cut_append List.length_cons] at hpiece

theorem keeps_word (hcode : ctx.inCode = true) (hc : isWordStart c = true) :
    Keeps ctx c t (.cut (ctx.wordKind ((c :: t).take (wordLength (c :: t)))
      ((c :: t).drop (wordLength (c :: t)))) c t (wordLength (c :: t))) := by
  have hchar := isWordChar_of_isWordStart hc
  obtain ⟨u, rest, rfl, hlen, hword, hhead, -⟩ := wordLength_spec t
  have hname : IsName (c :: u) := ⟨hc, List.forall_mem_cons.2 ⟨hchar, hword⟩⟩
  have hmem : '\n' ∉ c :: u := fun hmem => by cases hname.2 _ hmem
  rw [wordLength_cons hchar, hlen, show u.length + 1 = (c :: u).length from rfl, ← List.cons_append,
    List.take_left, List.drop_left, Piece.cut_append List.length_cons]
  obtain ⟨hquoted, hcolon, htrivia⟩ :=
    Context.of_wordKind (P := fun k => k ≠ .quoted ∧ k ≠ .colon ∧ k.isTrivia = false)
      (by decide) (by decide) ctx (c :: u) rest
  refine ⟨_, u, rest, rfl, rfl, rfl,
    ⟨⟨fun h => absurd h hcolon, fun _ => hname, fun h => absurd h hquoted⟩,
      unescaped_of_not_mem hmem hquoted, fun _ => hhead⟩, fun ctx' rest' hsimilar htolerates => ?_⟩
  have hview := head?_eq_of_view (htolerates.view_eq hmem hcolon htrivia)
  exact ⟨ctx'.wordKind (c :: u) rest', hsimilar.wordKind_alike hcode (by rw [hview]),
    codePiece_of_isName ctx' hname (hview ▸ hhead)⟩

/-- What begins no other lexeme does not depend on what is not looked at. -/
theorem IsSymbol.congr {t' : Text} (h : IsSymbol c t) (hview : Text.view t = Text.view t') :
    IsSymbol c t' := by
  have hhead := head?_eq_of_view hview
  constructor
  case closeTag => rw [← hhead]; exact h.closeTag
  case blank => exact h.blank
  case hash => exact h.hash
  case slash => rw [← hhead]; exact h.slash
  case dollar => rw [← hhead]; exact h.dollar
  case quote => exact h.quote
  case heredoc =>
    rw [← Option.not_isSome_iff_eq_none]
    intro hsome
    have := isSome_heredocLabel?_of_view (view_append_congr hview.symm [c]) hsome
    rw [List.singleton_append, h.heredoc] at this
    cases this
  case number => rw [← hhead]; exact h.number
  case word => exact h.word

theorem isSymbol_colon (t : Text) : IsSymbol ':' t := .of_char (by decide) rfl rfl rfl rfl t

/-- The kinds of operators: those of the table, and those of single characters. -/
theorem Lexeme.of_symbolAt {P : Kind → Prop} (htable : ∀ x ∈ Kind.operatorTable, P x.2)
    (hsymbol : ∀ c, P (Kind.ofSymbol c)) (c : Char) (t : Text) : P (symbolAt c t).1 := by
  unfold symbolAt
  split
  · next h => exact htable _ (List.mem_of_find?_eq_some h)
  · exact hsymbol c

theorem symbolAt_colon_iff : (symbolAt ':' t).1 = .colon ↔ t.head? ≠ some ':' := by
  cases t with
  | nil => decide
  | cons d t =>
    by_cases hd : d = ':'
    · subst hd
      exact ⟨fun h => absurd h (by show Kind.doubleColon ≠ .colon; decide), fun h => absurd rfl h⟩
    · -- only one operator begins with a colon
      have hall : ∀ x ∈ Kind.operatorTable, x.1.head? = some ':' → x.1 = [':', ':'] := by decide
      have hsingle : symbolAt ':' (d :: t) = (.colon, 1) := by
        refine symbolAt_eq_single fun x hx hhead e he heq => hd ?_
        rw [hall x hx hhead] at heq
        exact (Option.some.inj he).trans (Option.some.inj heq).symm
      exact iff_of_true (by rw [hsingle]) fun h => hd (Option.some.inj h)

theorem eq_colon_of_symbolAt (h : (symbolAt c t).1 = .colon) :
    c = ':' ∧ symbolAt c t = (.colon, 1) := by
  unfold symbolAt at h ⊢
  split
  · next x hx =>
    rw [hx] at h
    have hnone : ∀ x ∈ Kind.operatorTable, x.2 ≠ .colon := by decide
    exact absurd h (hnone _ (List.mem_of_find?_eq_some hx))
  · next hx =>
    rw [hx] at h
    have hc : Kind.ofSymbol c = .colon := h
    refine ⟨?_, by rw [hc]⟩
    unfold Kind.ofSymbol at hc
    split at hc <;> first | rfl | cases hc

theorem keeps_symbol (h : IsSymbol c t) :
    Keeps ctx c t (.cut (symbolAt c t).1 c t (symbolAt c t).2) := by
  obtain ⟨u, rest, rfl, hlen, hline, hstable⟩ := symbolAt_spec c t
  have hmem : '\n' ∉ c :: u := by
    intro hmem
    rcases List.mem_cons.1 hmem with rfl | hmem
    · cases h.blank
    · exact hline hmem
  obtain ⟨hword, hquoted, htrivia⟩ :=
    Lexeme.of_symbolAt (P := fun k => k ≠ .word ∧ k ≠ .quoted ∧ k.isTrivia = false)
      (by decide) (fun c => by unfold Kind.ofSymbol; split <;> decide) c (u ++ rest)
  by_cases hcolon : (symbolAt c (u ++ rest)).1 = .colon
  · obtain ⟨rfl, hsymbol⟩ := eq_colon_of_symbolAt hcolon
    obtain rfl : u = [] := by
      rw [hsymbol] at hlen
      exact List.eq_nil_of_length_eq_zero (Nat.succ.inj hlen).symm
    rw [hsymbol]
    refine keeps_of_cut rfl rfl ⟨⟨fun _ => ⟨':', List.mem_cons_self, rfl⟩, nofun, nofun⟩,
      unescaped_of_not_mem hmem nofun, nofun⟩ fun ctx' rest' _ htolerates => ?_
    have hhead : rest'.head? ≠ some ':' := by
      rcases htolerates.head?_cases with h | ⟨h, -⟩ | h
      · rw [h]
        exact symbolAt_colon_iff.1 hcolon
      · exact absurd h hmem
      · rw [h]
        decide
    have hsymbol' := (eq_colon_of_symbolAt (symbolAt_colon_iff.2 hhead)).2
    have hpiece : CodePiece ctx' ':' rest' _ := .symbol (isSymbol_colon rest')
    rw [hsymbol'] at hpiece
    exact ⟨.colon, 1, rfl, .refl _, hpiece⟩
  · refine keeps_of_cut rfl hlen
      ⟨⟨fun h => absurd h hcolon, fun h => absurd h hword, fun h => absurd h hquoted⟩,
        unescaped_of_not_mem hmem hquoted, fun h => absurd h hword⟩ fun ctx' rest' _ htolerates => ?_
    have hview := htolerates.view_eq hmem hcolon htrivia
    have hpiece : CodePiece ctx' c (u ++ rest') _ :=
      .symbol (h.congr (view_append_congr hview u))
    rw [hstable rest' hview] at hpiece
    exact ⟨_, _, hlen, .refl _, hpiece⟩

end Rules

/-- Each lexeme of code stays when it tolerates a change of the text after it. -/
theorem codePiece_keeps {ctx : Context} {c : Char} {t : Text} {p : Piece} (hcode : ctx.inCode = true)
    (h : CodePiece ctx c t p) : Keeps ctx c t p ∨
      ∃ body rest, p = .docComment (docLexemes false body) ∧ opensDocComment (c :: t) = true ∧
        breakOn "*/".toList (t.drop 2) = some (body, rest) := by
  cases h with
  | closeTag hc ht => exact .inl (keeps_closeTag hc ht)
  | blank hc => exact .inl (keeps_blank hc)
  | attributeOpen hc ht => exact .inl (keeps_attributeOpen hc ht)
  | lineComment h => exact .inl (keeps_lineComment h)
  | docComment body rest hdoc h => exact .inr ⟨body, rest, rfl, hdoc, h⟩
  | blockComment n hc ht hdoc h => exact .inl (keeps_blockComment hc ht hdoc h)
  | variableName hc ht => exact .inl (keeps_variableName hc ht)
  | quoted n hc h => exact .inl (keeps_quoted hc h)
  | heredoc label n hlabel h => exact .inl (keeps_heredoc hlabel h)
  | number h => exact .inl (keeps_number h)
  | word hc => exact .inl (keeps_word hcode hc)
  | symbol h => exact .inl (keeps_symbol h)

end EntityLint
