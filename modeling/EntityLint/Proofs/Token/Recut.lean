import EntityLint.Proofs.Token.Mending

/-!
# Cutting a mended text

A mended text is cut where the old one is, apart from line breaks that are added: in code they are
blanks of their own, and outside of code they are plain text. So the mended text has the same
brackets.

* `Recut`: the pieces of the mended text next to those of the old one;
* `plainTextLength_append`: line breaks around plain text are plain text;
* `exists_codePiece_of_mends`: a mended lexeme of code is a single lexeme again;
* `Context.Recuts`, `recuts_of_cutAll`: the pieces of the mended text, by induction on the old ones.

The main statement is `tokenize_of_mendsAll`.
-/

namespace EntityLint

open Lexeme Text

/-! ### Pieces of the mended text -/

/-- The pieces of a mended text, next to those of the old one: their kinds are alike, and some are
added that do not count. -/
inductive Recut : List Piece → List Piece → Prop
  | nil : Recut [] []
  | single {l l' ps ps'} (hk : l.kind.Alike l'.kind) (h : Recut ps ps') :
    Recut (.single l :: ps) (.single l' :: ps')
  | docComment {ps ps'} (body body' : Text) (h : Recut ps ps') :
    Recut (.docComment (docLexemes false body) :: ps) (.docComment (docLexemes false body') :: ps')
  | added {l ps ps'} (hk : l.kind = .blank ∨ l.kind = .plainText) (h : Recut ps ps') :
    Recut ps (.single l :: ps')

theorem cutAll_cons {ctx : Context} {c : Char} {t following : Text} {p : Piece} {rest : List Piece}
    (hp : nextPiece ctx c t = .ok p) (htext : p.text ++ following = c :: t)
    (hrest : Piece.cutAll (p.lexemes.foldl Context.after ctx) following = .ok rest) :
    Piece.cutAll ctx (c :: t) = .ok (p :: rest) := by
  have hdrop : t.drop (p.text.length - 1) = following := by
    have hlen := List.length_pos_iff.2 (text_nextPiece hp).1
    rw [← List.drop_succ_cons (a := c), Nat.sub_add_cancel hlen, ← htext, List.drop_left]
  rw [Piece.cutAll, hp]
  simp only [bind, Except.bind]
  rw [hdrop, hrest]
  rfl

theorem cutAll_single {ctx : Context} {c : Char} {u following : Text} {l : Lexeme}
    {rest : List Piece} (htext : l.text = c :: u)
    (hp : nextPiece ctx c (u ++ following) = .ok (.single l))
    (hrest : Piece.cutAll (ctx.after l) following = .ok rest) :
    Piece.cutAll ctx (l.text ++ following) = .ok (.single l :: rest) := by
  rw [htext]
  exact cutAll_cons hp (by rw [Piece.text_single, htext]; rfl) hrest

theorem nextPiece_of_inCode {ctx : Context} {c : Char} {t : Text} (h : ctx.inCode = true) :
    nextPiece ctx c t = codePiece ctx c t := by
  rw [nextPiece, if_pos h]

theorem nextPiece_of_outside {ctx : Context} {c : Char} {t : Text} (h : ctx.inCode = false) :
    nextPiece ctx c t = match openTagLength? (c :: t) with
      | some n => .ok (.cut .openTag c t n)
      | none => .ok (.cut .plainText c t (plainTextLength (c :: t))) := by
  unfold nextPiece
  exact (if_neg (Bool.eq_false_iff.1 h)).trans rfl

/-- In code, a line break is a blank of its own. -/
theorem cutAll_lineBreak {ctx : Context} {lineBreak t : Text} {rest : List Piece}
    (hcode : ctx.inCode = true) (h : IsLineBreak lineBreak)
    (hrest : Piece.cutAll (ctx.after ⟨.blank, lineBreak⟩) t = .ok rest) :
    Piece.cutAll ctx (lineBreak ++ t) = .ok (.single ⟨.blank, lineBreak⟩ :: rest) := by
  have hpiece : ∀ {c : Char} {u : Text}, lineBreak = c :: u →
      nextPiece ctx c (u ++ t) = .ok (.single ⟨.blank, lineBreak⟩) := by
    intro c u htext
    have hblank : isCodeBlank c = true := by
      rcases h with rfl | rfl <;> cases htext <;> rfl
    rw [nextPiece_of_inCode hcode, codePiece_eq_ok (.blank hblank)]
    rcases h with rfl | rfl <;> cases htext <;> rfl
  rcases h with rfl | rfl
  · exact cutAll_single (l := ⟨.blank, _⟩) rfl (hpiece rfl) hrest
  · exact cutAll_single (l := ⟨.blank, _⟩) rfl (hpiece rfl) hrest

/-! ### Outside of code -/

/-- A text with which no tag begun before goes on. -/
def BeginsApart (t : Text) : Prop := t.head?.all (fun c => c == '<' || isLineEnd c) = true

theorem IsLineBreak.beginsApart {t : Text} (h : IsLineBreak t) : BeginsApart t := by
  rcases h with rfl | rfl <;> rfl

theorem startsWith_append {a : Char} {lead u t : Text} (hu : u ≠ [])
    (ht : ∀ c ∈ t.head?, c ∉ lead) : startsWith (u ++ t) (a :: lead) = startsWith u (a :: lead) := by
  cases t with
  | nil => rw [List.append_nil]
  | cons c t =>
    cases u with
    | nil => exact absurd rfl hu
    | cons d u =>
      unfold startsWith
      rw [List.cons_append, stripLeading?, stripLeading?, stripLeading?_append_cons (ht c rfl)]
      split
      · exact Option.isSome_map
      · rfl

theorem openTagLength?_append {u t : Text} (hu : u ≠ []) (ht : BeginsApart t) :
    openTagLength? (u ++ t) = openTagLength? u := by
  have hhead : ∀ c ∈ t.head?, c ∉ "?php=".toList := by
    rintro c hc hmem
    rw [BeginsApart, Option.mem_def.1 hc] at ht
    have hall : ∀ c ∈ "?php=".toList, (!(c == '<' || isLineEnd c)) = true :=
      List.all_eq_true.1 rfl
    have hnot := hall c hmem
    rw [show (c == '<' || isLineEnd c) = true from ht] at hnot
    cases hnot
  unfold openTagLength?
  rw [show "<?=".toList = '<' :: ['?', '='] from rfl,
    show "<?php".toList = '<' :: ['?', 'p', 'h', 'p'] from rfl, startsWith_append hu, startsWith_append hu]
  · exact fun c hc hmem => hhead c hc ((by decide : ['?', 'p', 'h', 'p'] ⊆ "?php=".toList) hmem)
  · exact fun c hc hmem => hhead c hc ((by decide : ['?', '='] ⊆ "?php=".toList) hmem)

/-- Whether a text is plain does not depend on what follows, unless that goes on with a tag. -/
theorem plainTextLength_append {u t : Text} (ht : BeginsApart t) :
    plainTextLength (u ++ t) = u.length + plainTextLength t ↔ plainTextLength u = u.length := by
  induction u with
  | nil => simp [plainTextLength]
  | cons c u ih =>
    have htag := openTagLength?_append (List.cons_ne_nil c u) ht
    rw [List.cons_append] at htag ⊢
    rw [plainTextLength, plainTextLength, htag, List.length_cons]
    split
    · omega
    · omega

theorem plainTextLength_lineBreak {u : Text} (h : IsLineBreak u) (t : Text) :
    plainTextLength (u ++ t) = u.length + plainTextLength t := by
  have hcons : ∀ {c : Char} (t : Text), isLineEnd c = true →
      plainTextLength (c :: t) = 1 + plainTextLength t := by
    intro c t hc
    rcases (by simpa [isLineEnd] using hc : c = '\r' ∨ c = '\n') with rfl | rfl <;> rfl
  rcases h with rfl | rfl
  · exact hcons t rfl
  · rw [List.cons_append, hcons _ rfl, List.singleton_append, hcons _ rfl, ← Nat.add_assoc]
    rfl

theorem plainTextLength_of_isLineBreak {t : Text} (h : IsLineBreak t) :
    plainTextLength t = t.length := by
  rcases h with rfl | rfl <;> rfl

theorem plainTextLength_spec (t : Text) :
    ∃ u rest, t = u ++ rest ∧ plainTextLength t = u.length ∧
      (rest = [] ∨ (openTagLength? rest).isSome = true) := by
  induction t with
  | nil => exact ⟨[], [], rfl, rfl, .inl rfl⟩
  | cons c t ih =>
    rw [plainTextLength]
    split
    · next h => exact ⟨[], _, rfl, rfl, .inr h⟩
    · obtain ⟨u, rest, rfl, hlen, hrest⟩ := ih
      exact ⟨c :: u, rest, rfl, by rw [hlen, List.length_cons, Nat.add_comm], hrest⟩

/-- The marks that begin code. -/
def IsOpenTag (t : Text) : Prop := t = "<?=".toList ∨ t = "<?php".toList

theorem IsOpenTag.ne_nil {t : Text} (h : IsOpenTag t) : t ≠ [] := by
  rcases h with rfl | rfl <;> exact List.cons_ne_nil _ _

theorem openTagLength?_eq_some_iff {t : Text} {n : ℕ} :
    openTagLength? t = some n ↔ ∃ u rest, IsOpenTag u ∧ t = u ++ rest ∧ n = u.length := by
  constructor
  · intro h
    unfold openTagLength? at h
    split_ifs at h with hshort hlong
    · obtain ⟨rest, hrest⟩ := Option.isSome_iff_exists.1 hshort
      exact ⟨_, rest, .inl rfl, (append_of_stripLeading? hrest).symm, (Option.some.inj h).symm⟩
    · obtain ⟨rest, hrest⟩ := Option.isSome_iff_exists.1 hlong
      exact ⟨_, rest, .inr rfl, (append_of_stripLeading? hrest).symm, (Option.some.inj h).symm⟩
  · rintro ⟨u, rest, rfl | rfl, rfl, rfl⟩ <;> rfl

theorem beginsApart_of_isSome {t : Text} (h : (openTagLength? t).isSome = true) :
    BeginsApart t ∧ plainTextLength t = 0 := by
  obtain ⟨n, hn⟩ := Option.isSome_iff_exists.1 h
  obtain ⟨u, rest, rfl | rfl, rfl, rfl⟩ := openTagLength?_eq_some_iff.1 hn <;> exact ⟨rfl, rfl⟩

theorem beginsApart_of_follows {t : Text} (h : t = [] ∨ (openTagLength? t).isSome = true) :
    BeginsApart t ∧ plainTextLength t = 0 := by
  rcases h with rfl | h
  · exact ⟨rfl, rfl⟩
  · exact beginsApart_of_isSome h

/-- What the next piece can be outside of code: an open tag, or plain text. -/
theorem nextPiece_outside_cases {ctx : Context} {c : Char} {t : Text} {p : Piece}
    (hcode : ctx.inCode = false) (h : nextPiece ctx c t = .ok p) :
    ∃ u rest, c :: t = u ++ rest ∧
      ((p = .single ⟨.openTag, u⟩ ∧ IsOpenTag u) ∨
        p = .single ⟨.plainText, u⟩ ∧ u ≠ [] ∧ plainTextLength u = u.length ∧
          openTagLength? (c :: t) = none ∧ (rest = [] ∨ (openTagLength? rest).isSome = true)) := by
  have hcut : ∀ {kind : Kind} {u rest : Text}, u ≠ [] → c :: t = u ++ rest →
      Piece.cut kind c t u.length = .single ⟨kind, u⟩ := by
    intro kind u rest hu htext
    obtain ⟨d, v, rfl⟩ := List.exists_cons_of_ne_nil hu
    obtain ⟨rfl, rfl⟩ := List.cons.inj htext
    exact Piece.cut_append List.length_cons
  rw [nextPiece_of_outside hcode] at h
  split at h
  · next n hn =>
    cases h
    obtain ⟨u, rest, hu, htext, rfl⟩ := openTagLength?_eq_some_iff.1 hn
    exact ⟨u, rest, htext, .inl ⟨hcut hu.ne_nil htext, hu⟩⟩
  · next hnone =>
    cases h
    obtain ⟨u, rest, htext, hlen, hrest⟩ := plainTextLength_spec (c :: t)
    obtain ⟨hapart, hzero⟩ := beginsApart_of_follows hrest
    have hne : u ≠ [] := by
      rintro rfl
      rw [plainTextLength, hnone] at hlen
      cases Nat.add_comm .. ▸ hlen
    refine ⟨u, rest, htext, .inr ⟨?_, hne, ?_, hnone, hrest⟩⟩
    · rw [hlen, hcut hne htext]
    · rw [← plainTextLength_append hapart, ← htext, hlen, hzero]
      rfl

/-! ### In code -/

theorem ofKeyword?_append_suffix {t : Text} (ht : t ≠ []) :
    Kind.ofKeyword? (t ++ InterfaceSuffix.suffix) = none := by
  cases hk : Kind.ofKeyword? (t ++ InterfaceSuffix.suffix) with
  | none => rfl
  | some k =>
    obtain ⟨before, after, htable, -⟩ := List.lookup_eq_some_iff.1 hk
    -- only one keyword ends so, and nothing stands in front there
    have hall : ∀ x ∈ Kind.keywordTable, "interface".toList <:+ x.1 → x.1.length = 9 := by decide
    have hsplit : asciiLower (t ++ InterfaceSuffix.suffix) = asciiLower t ++ "interface".toList := by
      rw [asciiLower, List.map_append]
      rfl
    have hlen := hall (asciiLower (t ++ InterfaceSuffix.suffix), k) (by rw [htable]; simp)
      ⟨asciiLower t, hsplit.symm⟩
    rw [hsplit, List.length_append, asciiLower, List.length_map] at hlen
    exact absurd (List.eq_nil_of_length_eq_zero (Nat.add_right_cancel (m := 9) hlen)) ht

theorem Context.wordKind_append_suffix (ctx : Context) {t : Text} (ht : t ≠ []) (following : Text) :
    ctx.wordKind (t ++ InterfaceSuffix.suffix) following = .word := by
  unfold Context.wordKind
  rw [ofKeyword?_append_suffix ht]
  split <;> rfl

theorem quotedTailLength?_of_isWordChar {name : Text} (hname : ∀ c ∈ name, isWordChar c = true)
    (rest : Text) : quotedTailLength? '\'' (name ++ '\'' :: rest) = some (name.length + 1) := by
  induction name with
  | nil => rw [List.nil_append, quotedTailLength?] <;> simp
  | cons c name ih =>
    obtain ⟨hc, hname⟩ := List.forall_mem_cons.1 hname
    have hescape : c ≠ '\\' := by rintro rfl; cases hc
    have hquote : c ≠ '\'' := by rintro rfl; cases hc
    rw [List.cons_append, quotedTailLength?, if_neg hquote, ih hname, Option.map_some,
      List.length_cons, Nat.add_comm 1]
    · exact fun h => absurd h hescape
    · exact fun _ _ h => absurd h hescape

/-- A mended lexeme of code is a single lexeme again. -/
theorem exists_codePiece_of_mends {ctx ctx' : Context} {l : Lexeme} {c : Char} {u t rest rest' : Text}
    (hcut : l.kind.isCut = true) (htext : l.text = c :: u) (hstands : l.Stands rest)
    (hkeep : ∃ k', l.kind.Alike k' ∧ CodePiece ctx' c (u ++ rest') (.single ⟨k', l.text⟩))
    (hmends : l.Mends ctx.last false t) (htolerates : l.Tolerates rest rest') :
    ∃ (k' : Kind) (d : Char) (v : Text), l.kind.Alike k' ∧ t = d :: v ∧
      CodePiece ctx' d (v ++ rest') (.single ⟨k', t⟩) ∧
      (l.text.getLast? = some '\\' ↔ t.getLast? = some '\\') := by
  cases hmends with
  | same =>
    obtain ⟨k', halike, hpiece⟩ := hkeep
    exact ⟨k', c, u, halike, htext, hpiece, Iff.rfl⟩
  | suffix hk =>
    obtain ⟨hstart, hchars⟩ := hstands.word hk
    rw [htext] at hstart hchars ⊢
    have hline : '\n' ∉ l.text := by
      rw [htext]
      exact fun hmem => by cases hchars _ hmem
    have hview := htolerates.view_eq hline (by rw [hk]; decide) (by rw [hk]; rfl)
    have hname : IsName (c :: (u ++ InterfaceSuffix.suffix)) := by
      have hsuffix : ∀ d ∈ InterfaceSuffix.suffix, isWordChar d = true := List.all_eq_true.1 rfl
      refine ⟨hstart, fun d hd => ?_⟩
      rw [← List.cons_append] at hd
      exact (List.mem_append.1 hd).elim (hchars d) (hsuffix d)
    have hpiece := codePiece_of_isName ctx' hname (head?_eq_of_view hview ▸ hstands.boundary hk)
    rw [← List.cons_append, ctx'.wordKind_append_suffix (List.cons_ne_nil c u)] at hpiece
    refine ⟨.word, c, u ++ InterfaceSuffix.suffix, hk ▸ .refl _, rfl, hpiece, ?_⟩
    refine iff_of_false (fun hlast => ?_) ?_
    · cases hchars _ (List.mem_of_getLast? hlast)
    · rw [List.getLast?_append, show InterfaceSuffix.suffix.getLast? = some 'e' from rfl]
      exact fun hlast => by cases hlast
  | literal hk hlast name hname =>
    refine ⟨.quoted, '\'', name ++ ['\''], hk ▸ .refl _, rfl, ?_, ?_⟩
    · have hlen : quotedLength? ('\'' :: (name ++ ['\''] ++ rest')) = some (name.length + 2) := by
        rw [quotedLength?, List.append_assoc, List.singleton_append,
          quotedTailLength?_of_isWordChar hname, Option.map_some, Nat.add_comm 1]
      have hpiece : CodePiece ctx' '\'' (name ++ ['\''] ++ rest') _ := .quoted _ rfl hlen
      rwa [Piece.cut_append (by simp)] at hpiece
    · refine iff_of_false (hstands.unescaped (.inr hk)) ?_
      rw [← List.cons_append, List.getLast?_append]
      exact fun hlast => by cases hlast
  | docLiteral hk => rw [hk] at hcut; cases hcut
  | line hbroken => cases hbroken

/-! ### All lexemes -/

namespace Lexeme

theorem Regular.of_kind {l : Lexeme} (h : l.kind ∉ [.colon, .word, .quoted]) : l.Regular := by
  simp only [List.mem_cons, List.not_mem_nil, or_false, not_or] at h
  exact ⟨fun hk => absurd hk h.1, fun hk => absurd hk h.2.1, fun hk => absurd hk h.2.2⟩

/-- The lexemes of each piece are regular. -/
theorem regular_of_nextPiece {ctx : Context} {c : Char} {t : Text} {p : Piece}
    (h : nextPiece ctx c t = .ok p) : ∀ l ∈ p.lexemes, l.Regular := by
  cases hcode : ctx.inCode with
  | true =>
    rw [nextPiece_of_inCode hcode] at h
    rcases codePiece_keeps hcode (codePiece_of_ok h) with
      ⟨l, _, _, rfl, -, -, hstands, -⟩ | ⟨body, _, rfl, -⟩
    · exact fun l' hl' => List.mem_singleton.1 hl' ▸ hstands.toRegular
    · have hkinds : ∀ k : Kind, k ∈ [.docOpen, .docBlank, .docStar, .docTag, .docText, .docClose] →
        k ∉ [.colon, .word, .quoted] := by decide
      exact fun l hl => .of_kind (hkinds _ (mem_lexemes_docComment hl).2)
  | false =>
    rw [nextPiece_of_outside hcode] at h
    intro l hl
    split at h
    · cases h
      rw [List.mem_singleton.1 hl]
      exact .of_kind (by simp)
    · cases h
      rw [List.mem_singleton.1 hl]
      exact .of_kind (by simp)

theorem regular_of_cutAll {ctx : Context} {t : Text} {pieces : List Piece}
    (h : Piece.cutAll ctx t = .ok pieces) : ∀ l ∈ pieces.flatMap Piece.lexemes, l.Regular := by
  intro l hl
  obtain ⟨p, hp, hl⟩ := List.mem_flatMap.1 hl
  exact forall_cutAll (fun _ _ _ _ hp => regular_of_nextPiece hp) h p hp l hl

end Lexeme

namespace MendsAll

/-- A line that is put in front can be set apart. -/
theorem exists_lead {last : Option Kind} {broken : Bool} {ls : List Lexeme} {ts : List Text}
    (h : MendsAll last broken ls ts) :
    ∃ lead ts', ts.flatten = lead ++ ts'.flatten ∧ MendsAll last false ls ts' ∧
      (lead = [] ∨ broken = true ∧ IsLineBreak lead) := by
  cases h with
  | nil => exact ⟨[], [], rfl, .nil, .inl rfl⟩
  | @cons _ _ l t ls ts hl hs =>
    cases hl with
    | same => exact ⟨[], _, rfl, .cons .same hs, .inl rfl⟩
    | suffix hk => exact ⟨[], _, rfl, .cons (.suffix hk) hs, .inl rfl⟩
    | literal hk hlast name hname =>
      exact ⟨[], _, rfl, .cons (.literal hk hlast name hname) hs, .inl rfl⟩
    | docLiteral hk before old name after htext hbefore hname =>
      exact ⟨[], _, rfl, .cons (.docLiteral hk before old name after htext hbefore hname) hs, .inl rfl⟩
    | line hbroken lineBreak h =>
      refine ⟨lineBreak, l.text :: ts, ?_, .cons .same hs, .inr ⟨hbroken, h⟩⟩
      rw [List.flatten_cons, List.flatten_cons, List.append_assoc]

end MendsAll

/-! ### The pieces of the mended text -/

namespace Context

/-- A text that may be put in front in a context: none, or a line break that is not escaped. -/
def Admits (ctx : Context) (lead : Text) : Prop :=
  lead = [] ∨ IsLineBreak lead ∧ (ctx.inCode = true → ctx.afterBackslash = false)

/-- The pieces that are cut in a context are cut again when they are mended, in similar contexts and
with a line break in front. -/
def Recuts (ctx : Context) (pieces : List Piece) : Prop :=
  ∀ (ctx' : Context) (lead : Text) (ts : List Text), ctx.Similar ctx' → ctx.Admits lead →
    MendsAll ctx.last false (pieces.flatMap Piece.lexemes) ts →
    ∃ pieces', Piece.cutAll ctx' (lead ++ ts.flatten) = .ok pieces' ∧ Recut pieces pieces'

variable {ctx : Context} {l : Lexeme} {pieces : List Piece}

/-- After a lexeme, a line that is put in front of the next one may stand there. -/
theorem admits_after {broken : Bool} {lead : Text}
    (hlead : lead = [] ∨ broken = true ∧ IsLineBreak lead)
    (hend : broken = true → (ctx.after l).inCode = true → l.text.getLast? ≠ some '\\') :
    (ctx.after l).Admits lead := by
  rcases hlead with hlead | ⟨hbroken, hlead⟩
  · exact .inl hlead
  · exact .inr ⟨hlead, fun hcode => beq_eq_false_iff_ne.2 (hend hbroken hcode)⟩

/-- In code, a line break in front is a blank of its own. -/
theorem recuts_of_inCode (hcode : ctx.inCode = true)
    (h : ∀ (ctx' : Context) (ts : List Text), ctx.Similar ctx' →
      MendsAll ctx.last false (pieces.flatMap Piece.lexemes) ts →
      ∃ pieces', Piece.cutAll ctx' ts.flatten = .ok pieces' ∧ Recut pieces pieces') :
    ctx.Recuts pieces := by
  intro ctx' lead ts hsimilar hlead hmends
  rcases hlead with rfl | ⟨hlead, hback⟩
  · exact h ctx' ts hsimilar hmends
  · have hlast : lead.getLast? ≠ some '\\' := by
      rcases hlead with rfl | rfl <;> decide
    have hsimilar' : ctx.Similar (ctx'.after ⟨.blank, lead⟩) :=
      ⟨hsimilar.inCode, hsimilar.last, hsimilar.earlier,
        fun hcode => (hback hcode).trans (beq_eq_false_iff_ne.2 hlast).symm, hsimilar.outside⟩
    obtain ⟨pieces', hcut, hrecut⟩ := h _ ts hsimilar' hmends
    exact ⟨_, cutAll_lineBreak (hsimilar.inCode ▸ hcode) hlead hcut, .added (.inl rfl) hrecut⟩

/-- Single lexemes of code. -/
theorem recuts_single (hcode : ctx.inCode = true) {c : Char} {t following : Text}
    (hkeeps : Keeps ctx c t (.single l)) (hcut : l.kind.isCut = true)
    (htext : l.text ++ following = c :: t)
    (hfollowing : (pieces.flatMap Piece.lexemes).flatMap text = following)
    (hregular : ∀ l ∈ pieces.flatMap Piece.lexemes, l.Regular)
    (hrest : (ctx.after l).Recuts pieces) : ctx.Recuts (.single l :: pieces) := by
  obtain ⟨_, u, rest, heq, hl, rfl, hstands, hkeep⟩ := hkeeps
  cases heq
  obtain rfl : following = rest := by
    rw [hl, List.cons_append] at htext
    exact List.append_cancel_left (List.cons.inj htext).2
  refine recuts_of_inCode hcode fun ctx' ts hsimilar hmends => ?_
  rw [List.flatMap_cons, Piece.lexemes, List.singleton_append] at hmends
  cases hmends with
  | @cons _ _ _ t _ ts hmend hs =>
    have htolerates := hs.tolerates hregular
    rw [hfollowing] at htolerates
    obtain ⟨k', d, v, halike, rfl, hpiece, hend⟩ := exists_codePiece_of_mends hcut hl hstands
      (hkeep ctx' _ hsimilar htolerates) hmend htolerates
    obtain ⟨lead, ts', hflatten, hs', hlead⟩ := hs.exists_lead
    have hsimilar' : (ctx.after l).Similar (ctx'.after ⟨k', d :: v⟩) := by
      refine hsimilar.after halike (fun _ => hend) fun hout => ?_
      -- only a closing mark ends code
      rw [Context.after, hcode] at hout
      cases hk : l.kind <;> rw [hk] at hout <;> first | rfl | cases hout
    obtain ⟨pieces', hcut', hrecut⟩ := hrest _ lead ts' hsimilar'
      (admits_after hlead fun hbroken _ => hstands.unescaped (.inl (breaksLine_iff.1 hbroken))) hs'
    rw [← hflatten] at hcut'
    refine ⟨.single ⟨k', d :: v⟩ :: pieces', ?_, .single halike hrecut⟩
    rw [List.flatten_cons]
    refine cutAll_single (l := ⟨k', d :: v⟩) rfl ?_ hcut'
    rw [nextPiece_of_inCode (hsimilar.inCode ▸ hcode)]
    exact codePiece_eq_ok hpiece

theorem foldl_after_of_isTrivia {ls : List Lexeme} (h : ∀ l ∈ ls, l.kind.isTrivia = true)
    (ctx : Context) :
    (ls.foldl after ctx).inCode = ctx.inCode ∧ (ls.foldl after ctx).last = ctx.last ∧
      (ls.foldl after ctx).earlier = ctx.earlier := by
  induction ls generalizing ctx with
  | nil => exact ⟨rfl, rfl, rfl⟩
  | cons l ls ih =>
    obtain ⟨hl, hls⟩ := List.forall_mem_cons.1 h
    obtain ⟨hcode, hlast, hearlier⟩ := ih hls (ctx.after l)
    rw [List.foldl_cons, hcode, hlast, hearlier, inCode_after_of_isTrivia hl]
    exact ⟨rfl, if_pos hl, if_pos hl⟩

/-- A doc comment only ends what a backslash in front does. -/
theorem foldl_after_docComment (body : Text) (ctx : Context) :
    let after' := (Piece.docComment (docLexemes false body)).lexemes.foldl after ctx
    after'.inCode = ctx.inCode ∧ after'.last = ctx.last ∧ after'.earlier = ctx.earlier ∧
      after'.afterBackslash = false := by
  have hkinds : ∀ k : Kind, k ∈ [.docOpen, .docBlank, .docStar, .docTag, .docText, .docClose] →
    k.isTrivia = true := by decide
  obtain ⟨hcode, hlast, hearlier⟩ :=
    foldl_after_of_isTrivia (fun l hl => hkinds _ (mem_lexemes_docComment hl).2) ctx
  refine ⟨hcode, hlast, hearlier, ?_⟩
  rw [Piece.lexemes, ← List.cons_append, List.foldl_concat]
  rfl

/-- Doc comments. -/
theorem recuts_docComment (hcode : ctx.inCode = true) {c : Char} {t body rest : Text}
    (hdoc : opensDocComment (c :: t) = true)
    (hbreak : breakOn "*/".toList (t.drop 2) = some (body, rest))
    (hrest : ((Piece.docComment (docLexemes false body)).lexemes.foldl after ctx).Recuts pieces) :
    ctx.Recuts (.docComment (docLexemes false body) :: pieces) := by
  obtain ⟨d, u, rfl, rfl, hd⟩ := eq_cons_of_opensDocComment hdoc
  have hchain := isChain_of_breakOn hbreak
  obtain ⟨b, rfl⟩ : ∃ b, body = d :: b := by
    have htext := append_of_breakOn hbreak
    cases body with
    | nil =>
      obtain rfl := (List.cons.inj htext).1
      cases hd
    | cons e b => exact ⟨b, by rw [(List.cons.inj htext).1]⟩
  refine recuts_of_inCode hcode fun ctx' ts hsimilar hmends => ?_
  rw [List.flatMap_cons] at hmends
  obtain ⟨body', ts', hflatten, hhead, hchain', hmends'⟩ := hmends.exists_of_docComment hchain
  obtain ⟨b', rfl⟩ : ∃ b', body' = d :: b' := by
    cases body' with
    | nil => cases hhead
    | cons e b' => exact ⟨b', by rw [Option.some.inj hhead]⟩
  obtain ⟨hcode₁, hlast₁, hearlier₁, hback₁⟩ := foldl_after_docComment (d :: b) ctx
  obtain ⟨hcode₂, hlast₂, hearlier₂, hback₂⟩ := foldl_after_docComment (d :: b') ctx'
  have hsimilar' : ((Piece.docComment (docLexemes false (d :: b))).lexemes.foldl after ctx).Similar
      ((Piece.docComment (docLexemes false (d :: b'))).lexemes.foldl after ctx') := by
    constructor
    · rw [hcode₁, hcode₂, hsimilar.inCode]
    · rw [hlast₁, hlast₂, hsimilar.last]
    · rw [hcode₁, hearlier₁, hearlier₂]
      exact hsimilar.earlier
    · rw [hback₁, hback₂]
      exact fun _ => rfl
    · rw [hcode₁, hlast₁]
      exact hsimilar.outside
  obtain ⟨pieces', hcut', hrecut⟩ := hrest _ [] ts' hsimilar' (.inl rfl) (hlast₁ ▸ hmends')
  refine ⟨.docComment (docLexemes false (d :: b')) :: pieces', ?_, .docComment _ _ hrecut⟩
  have hpiece : codePiece ctx' '/' ('*' :: '*' :: d :: b' ++ "*/".toList ++ ts'.flatten) =
      .ok (.docComment (docLexemes false (d :: b'))) :=
    codePiece_eq_ok (.docComment _ ts'.flatten hd (breakOn_of_isChain hchain' _))
  have htext : (Piece.docComment (docLexemes false (d :: b'))).text ++ ts'.flatten =
      '/' :: ('*' :: '*' :: d :: b' ++ "*/".toList ++ ts'.flatten) := by
    rw [Piece.text_docComment]
    rfl
  rw [hflatten]
  refine cutAll_cons ?_ htext hcut'
  rw [nextPiece_of_inCode (hsimilar.inCode ▸ hcode)]
  exact hpiece

/-- Plain text in front of an open tag, or of nothing, is a piece. -/
theorem cutAll_plainText {ctx : Context} {u following : Text} {rest : List Piece}
    (hcode : ctx.inCode = false) (hu : u ≠ []) (hplain : plainTextLength u = u.length)
    (hfollowing : following = [] ∨ (openTagLength? following).isSome = true)
    (hrest : Piece.cutAll (ctx.after ⟨.plainText, u⟩) following = .ok rest) :
    Piece.cutAll ctx (u ++ following) = .ok (.single ⟨.plainText, u⟩ :: rest) := by
  obtain ⟨hapart, hzero⟩ := beginsApart_of_follows hfollowing
  have hlen := (plainTextLength_append hapart).2 hplain
  cases u with
  | nil => exact absurd rfl hu
  | cons c u =>
    refine cutAll_single (l := ⟨.plainText, c :: u⟩) rfl ?_ hrest
    rw [List.cons_append, hzero] at hlen
    rw [nextPiece_of_outside hcode]
    split
    · next n hn =>
      rw [plainTextLength, hn] at hlen
      cases hlen
    · rw [hlen, Piece.cut_append (by simp)]

/-- Open tags. -/
theorem recuts_openTag (hcode : ctx.inCode = false) {u : Text} (hu : IsOpenTag u)
    (hrest : (ctx.after ⟨.openTag, u⟩).Recuts pieces) :
    ctx.Recuts (.single ⟨.openTag, u⟩ :: pieces) := by
  intro ctx' lead ts hsimilar hlead hmends
  rw [List.flatMap_cons, Piece.lexemes, List.singleton_append] at hmends
  cases hmends with
  | @cons _ _ _ t _ ts hmend hs =>
    obtain ⟨_, rfl, rfl | ⟨hbroken, -⟩⟩ := hmend.eq_or_line (by simp)
    · obtain ⟨lead', ts', hflatten, hs', hlead'⟩ := hs.exists_lead
      have htag : ∀ rest, openTagLength? (u ++ rest) = some u.length :=
        fun rest => openTagLength?_eq_some_iff.2 ⟨u, rest, hu, rfl, rfl⟩
      -- the tag itself, after the line break if there is one
      have hsingle : ∀ ctx₁, ctx.Similar ctx₁ →
          ∃ pieces', Piece.cutAll ctx₁ (u ++ ts.flatten) = .ok (.single ⟨.openTag, u⟩ :: pieces') ∧
            Recut pieces pieces' := by
        intro ctx₁ hsimilar
        have hlast : u.getLast? ≠ some '\\' := by rcases hu with rfl | rfl <;> decide
        obtain ⟨pieces', hcut, hrecut⟩ := hrest _ lead' ts'
          (hsimilar.after (.refl _) (fun _ => Iff.rfl) fun _ => rfl)
          (admits_after hlead' fun _ _ => hlast) hs'
        rw [← hflatten] at hcut
        refine ⟨pieces', ?_, hrecut⟩
        obtain ⟨c, v, rfl⟩ := List.exists_cons_of_ne_nil hu.ne_nil
        refine cutAll_single (l := ⟨.openTag, c :: v⟩) rfl ?_ hcut
        rw [nextPiece_of_outside (hsimilar.inCode ▸ hcode), ← List.cons_append, htag]
        exact congrArg Except.ok (Piece.cut_append List.length_cons)
      rw [List.flatten_cons, List.nil_append]
      rcases hlead with rfl | ⟨hlead, -⟩
      · obtain ⟨pieces', hcut, hrecut⟩ := hsingle ctx' hsimilar
        exact ⟨_, hcut, .single (.refl _) hrecut⟩
      · have hsimilar' : ctx.Similar (ctx'.after ⟨.plainText, lead⟩) :=
          ⟨hsimilar.inCode, hsimilar.outside hcode, fun h => absurd h (Bool.eq_false_iff.1 hcode),
            fun h => absurd h (Bool.eq_false_iff.1 hcode), hsimilar.outside⟩
        obtain ⟨pieces', hcut, hrecut⟩ := hsingle _ hsimilar'
        refine ⟨_, cutAll_plainText (hsimilar.inCode ▸ hcode) hlead.ne_nil
          (plainTextLength_of_isLineBreak hlead) (.inr ?_) hcut,
          .added (.inr rfl) (.single (.refl _) hrecut)⟩
        rw [htag]
        rfl
    · cases hbroken

/-- What follows plain text does so when it is mended. -/
theorem openTag_of_mendsAll {following : Text} {last : Option Kind} {ts : List Text}
    (hcode : ctx.inCode = false) (h : Piece.cutAll ctx following = .ok pieces)
    (hfollowing : following = [] ∨ (openTagLength? following).isSome = true)
    (hmends : MendsAll last false (pieces.flatMap Piece.lexemes) ts) :
    ts.flatten = [] ∨ (openTagLength? ts.flatten).isSome = true := by
  cases following with
  | nil =>
    rw [Piece.cutAll] at h
    cases h
    cases hmends
    exact .inl rfl
  | cons c t =>
    have hsome := hfollowing.resolve_left (List.cons_ne_nil c t)
    obtain ⟨p, rest, _, hp, -, -, rfl⟩ := cutAll_cons_eq_ok h
    obtain ⟨u, rest', -, ⟨rfl, hu⟩ | ⟨-, -, -, hnone, -⟩⟩ := nextPiece_outside_cases hcode hp
    · rw [List.flatMap_cons, Piece.lexemes, List.singleton_append] at hmends
      cases hmends with
      | @cons _ _ _ t' _ ts hmend hs =>
        obtain ⟨_, rfl, rfl | ⟨hbroken, -⟩⟩ := hmend.eq_or_line (by simp)
        · have htag : openTagLength? (u ++ ts.flatten) = some u.length :=
            openTagLength?_eq_some_iff.2 ⟨u, ts.flatten, hu, rfl, rfl⟩
          exact .inr (Option.isSome_iff_exists.2 ⟨_, htag⟩)
        · cases hbroken
    · rw [hnone] at hsome
      cases hsome

/-- Plain text. -/
theorem recuts_plainText (hcode : ctx.inCode = false) {u following : Text} (hu : u ≠ [])
    (hplain : plainTextLength u = u.length)
    (hfollowing : following = [] ∨ (openTagLength? following).isSome = true)
    (hcut : Piece.cutAll (ctx.after ⟨.plainText, u⟩) following = .ok pieces)
    (hrest : (ctx.after ⟨.plainText, u⟩).Recuts pieces) :
    ctx.Recuts (.single ⟨.plainText, u⟩ :: pieces) := by
  intro ctx' lead ts hsimilar hlead hmends
  rw [List.flatMap_cons, Piece.lexemes, List.singleton_append] at hmends
  cases hmends with
  | @cons _ _ _ t _ ts hmend hs =>
    obtain ⟨_, rfl, rfl | ⟨hbroken, -⟩⟩ := hmend.eq_or_line (by simp)
    · -- the line break of what follows belongs to the plain text, as the one in front does
      obtain ⟨lead', ts', hflatten, hs', hlead'⟩ := hs.exists_lead
      have hleadLength : ∀ t, plainTextLength (lead ++ t) = lead.length + plainTextLength t := by
        intro t
        rcases hlead with rfl | ⟨hlead, -⟩
        · rw [List.nil_append, List.length_nil, Nat.zero_add]
        · exact plainTextLength_lineBreak hlead t
      have hlead'Length : BeginsApart lead' ∧ plainTextLength lead' = lead'.length := by
        rcases hlead' with rfl | ⟨-, hlead'⟩
        · exact ⟨rfl, rfl⟩
        · exact ⟨hlead'.beginsApart, plainTextLength_of_isLineBreak hlead'⟩
      have hplain' : plainTextLength (lead ++ (u ++ lead')) = (lead ++ (u ++ lead')).length := by
        rw [hleadLength, (plainTextLength_append hlead'Length.1).2 hplain, hlead'Length.2,
          List.length_append, List.length_append]
      have hsimilar' : (ctx.after ⟨.plainText, u⟩).Similar
          (ctx'.after ⟨.plainText, lead ++ (u ++ lead')⟩) :=
        hsimilar.after (.refl _) (fun h => absurd (hcode.symm.trans h) Bool.false_ne_true)
          fun _ => rfl
      obtain ⟨pieces', hcut', hrecut⟩ := hrest _ [] ts' hsimilar' (.inl rfl) hs'
      refine ⟨.single ⟨.plainText, lead ++ (u ++ lead')⟩ :: pieces', ?_, .single (.refl _) hrecut⟩
      have hne : lead ++ (u ++ lead') ≠ [] := by simp [hu]
      have hcode' : (ctx.after ⟨.plainText, u⟩).inCode = false := hcode
      have hfollowing' := openTag_of_mendsAll hcode' hcut hfollowing hs'
      rw [List.flatten_cons, hflatten, List.nil_append, ← List.append_assoc u, ← List.append_assoc lead]
      exact cutAll_plainText (hsimilar.inCode ▸ hcode) hne hplain' hfollowing' hcut'
    · cases hbroken

/-- Nothing at all. -/
theorem recuts_nil (ctx : Context) : ctx.Recuts [] := by
  intro ctx' lead ts hsimilar hlead hmends
  cases hmends
  have hnil : ∀ ctx₁, Piece.cutAll ctx₁ [] = .ok [] := fun ctx₁ => by rw [Piece.cutAll]
  rw [List.flatten_nil]
  rcases hlead with rfl | ⟨hlead, -⟩
  · exact ⟨[], hnil _, .nil⟩
  · cases hcode : ctx'.inCode with
    | true => exact ⟨_, cutAll_lineBreak hcode hlead (hnil _), .added (.inl rfl) .nil⟩
    | false =>
      exact ⟨_, cutAll_plainText hcode hlead.ne_nil (plainTextLength_of_isLineBreak hlead) (.inl rfl)
        (hnil _), .added (.inr rfl) .nil⟩

/-- The pieces of a text are cut again when they are mended. -/
theorem recuts_of_cutAll {t : Text} (h : Piece.cutAll ctx t = .ok pieces) : ctx.Recuts pieces := by
  induction pieces generalizing ctx t with
  | nil => exact recuts_nil ctx
  | cons p pieces ih =>
    cases t with
    | nil =>
      rw [Piece.cutAll] at h
      cases h
    | cons c t =>
      obtain ⟨_, _, following, hp, htext, hcut, heq⟩ := cutAll_cons_eq_ok h
      cases heq
      have hrest := ih hcut
      cases hcode : ctx.inCode with
      | true =>
        have hpiece := codePiece_of_ok (nextPiece_of_inCode hcode ▸ hp)
        rcases codePiece_keeps hcode hpiece with hkeeps | ⟨body, rest, rfl, hdoc, hbreak⟩
        · obtain ⟨l, _, _, rfl, -⟩ := id hkeeps
          have hkind : l.kind.isCut = true := by
            rcases nextPiece_cases hp with ⟨kind, n, heq, hkind⟩ | ⟨body, heq, -⟩
            · cases heq
              exact hkind
            · cases heq
          refine recuts_single hcode hkeeps hkind (Piece.text_single l ▸ htext) ?_
            (regular_of_cutAll hcut) hrest
          rw [List.flatMap_assoc]
          exact text_cutAll hcut
        · exact recuts_docComment hcode hdoc hbreak hrest
      | false =>
        obtain ⟨u, rest, htext', ⟨rfl, hu⟩ | ⟨rfl, hu, hplain, -, hfollowing⟩⟩ :=
          nextPiece_outside_cases hcode hp
        · exact recuts_openTag hcode hu hrest
        · obtain rfl : following = rest := by
            rw [htext', Piece.text_single] at htext
            exact List.append_cancel_left htext
          exact recuts_plainText hcode hu hplain hfollowing hcut hrest

end Context

/-! ### Brackets -/

namespace Pairing

variable (family : Family)

/-- The brackets of some pieces, piece by piece. -/
theorem word_flatMap_cons (p : Piece) (ps : List Piece) :
    family.word (((p :: ps).flatMap Piece.lexemes).map kind) =
      family.word (p.lexemes.map kind) ++ family.word ((ps.flatMap Piece.lexemes).map kind) := by
  rw [List.flatMap_cons, List.map_append]
  exact List.filterMap_append

/-- What a question mark belongs to has no say in pairing. -/
theorem word_resolveNullable (before : Option Kind) (ls : List Lexeme) :
    family.word ((resolveNullable before ls).map kind) = family.word (ls.map kind) := by
  induction ls generalizing before with
  | nil => rfl
  | cons l ls ih =>
    have hstep : ∀ q : Prop, [Decidable q] →
        family.step? (if l.kind = .ternary ∧ q then .nullable else l.kind) = family.step? l.kind := by
      intro q _
      split
      · next h => rw [h.1]; cases family <;> rfl
      · rfl
    rw [resolveNullable, List.map_cons, List.map_cons, Family.word, Family.word, List.filterMap_cons,
      List.filterMap_cons, hstep]
    cases family.step? l.kind with
    | none => exact ih _
    | some d => exact congrArg (d :: ·) (ih _)

theorem word_docComment (body : Text) :
    family.word ((Piece.docComment (docLexemes false body)).lexemes.map kind) = [] := by
  have hkinds : ∀ k : Kind, k ∈ [.docOpen, .docBlank, .docStar, .docTag, .docText, .docClose] →
      family.step? k = none := by
    cases family <;> decide
  rw [Family.word, List.filterMap_eq_nil_iff]
  intro k hk
  obtain ⟨l, hl, rfl⟩ := List.mem_map.1 hk
  exact hkinds _ (mem_lexemes_docComment hl).2

/-- Mended texts have the same brackets. -/
theorem word_of_recut {ps ps' : List Piece} (h : Recut ps ps') :
    family.word ((ps.flatMap Piece.lexemes).map kind) =
      family.word ((ps'.flatMap Piece.lexemes).map kind) := by
  induction h with
  | nil => rfl
  | @single l l' ps ps' hk h ih =>
    rw [word_flatMap_cons, word_flatMap_cons, ih]
    have hstep := hk.map_eq family.step? (by cases family <;> rfl)
    simp only [Family.word, Piece.lexemes, List.map_cons, List.map_nil, List.filterMap_cons, hstep]
  | docComment body body' h ih =>
    rw [word_flatMap_cons, word_flatMap_cons, ih, word_docComment, word_docComment]
  | @added l ps ps' hk h ih =>
    have hstep : family.step? l.kind = none := by
      rcases hk with hk | hk <;> rw [hk] <;> cases family <;> rfl
    rw [ih, word_flatMap_cons]
    simp only [Family.word, Piece.lexemes, List.map_cons, List.map_nil, List.filterMap_cons, hstep,
      List.filterMap_nil, List.nil_append]

end Pairing

/-- A text that has a token stream has one when its lexemes are mended. -/
theorem tokenize_of_mendsAll {source : Text} {tokens : List Token} {pieces : List Piece}
    {ts : List Text} (h : tokenize source = .ok tokens)
    (hpieces : Piece.cutAll Context.start source = .ok pieces)
    (hmends : MendsAll none false (pieces.flatMap Piece.lexemes) ts) :
    ∃ tokens', tokenize ts.flatten = .ok tokens' := by
  obtain ⟨ls, _, pairs, hls, hpairs, -⟩ := exists_lexemes_of_tokenize h
  obtain ⟨_, hpieces', rfl⟩ := exists_pieces_of_ofSource hls
  cases hpieces.symm.trans hpieces'
  obtain ⟨pieces', hcut, hrecut⟩ := Context.recuts_of_cutAll hpieces _ [] ts
    Context.similar_start (.inl rfl) hmends
  rw [List.nil_append] at hcut
  have hls' : Lexeme.ofSource ts.flatten =
      .ok (resolveNullable none (pieces'.flatMap Piece.lexemes)) := by
    rw [Lexeme.ofSource, hcut]
    rfl
  have hbalanced : ∀ family : Pairing.Family, family.Balanced
      ((resolveNullable none (pieces'.flatMap Piece.lexemes)).map kind) := by
    intro family
    obtain ⟨w, hw⟩ := Pairing.exists_pairAll_iff.1 ⟨pairs, hpairs⟩ family
    refine ⟨w, ?_⟩
    rw [hw, Pairing.word_resolveNullable, Pairing.word_resolveNullable, Pairing.word_of_recut _ hrecut]
  obtain ⟨pairs', hpairs'⟩ := Pairing.exists_pairAll_iff.2 hbalanced
  obtain ⟨docs, htokens⟩ := tokenize_of_lexemes hls'
  rw [hpairs'] at htokens
  exact ⟨_, htokens⟩

end EntityLint
