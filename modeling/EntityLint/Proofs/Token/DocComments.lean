import EntityLint.Proofs.Token.Pairing
import EntityLint.Proofs.Token.Recast

/-!
# Doc comments of a token stream

A doc comment is cut as one piece, so that its tokens stand between its ends and nowhere else. The tokens
refer to it by index; here the indices are tied to the pieces, and the parts to the rules that cut them.

* `DocComment.exists_piece`, `DocComment.exists_mem_all`: doc comments are the pieces of their kind;
* `DocComment.kind_cases`, `DocComment.exists_around`, `DocComment.mem_tags_iff`: what stands in them;
* `exists_docPart_of_cutAll`: each part comes from a rule;
* `Token.exists_docLexeme_of_tokenize`, `Token.docs_of_tokenize`: what the tokens say of doc comments;
* `Token.kind_cases_of_tokenize`: the tokens from the opening of a doc comment to its closing;
* `Token.IsDocComment`, `Token.DocContents`, `Token.DocWritten`: doc comments by their tokens.

The main statement is `tokenize_docComments`.
-/

namespace EntityLint

open Lexeme Text

/-! ### Ranges and indices -/

/-- Of ranges one after the other no two have an index in common. -/
theorem eq_of_overlap {α : Type} {g : α → Range} {as : List α} {a b : α}
    (h : as.Pairwise fun a b => (g a).closer < (g b).opener) (ha : a ∈ as) (hb : b ∈ as)
    (hab : (g a).opener ≤ (g b).closer) (hba : (g b).opener ≤ (g a).closer) : a = b := by
  have hpair : as.Pairwise fun a b => (g a).closer < (g b).opener ∨ (g b).closer < (g a).opener :=
    h.imp .inl
  have hsymm : Std.Symm fun a b => (g a).closer < (g b).opener ∨ (g b).closer < (g a).opener :=
    ⟨fun _ _ => Or.symm⟩
  by_contra hne
  rcases hpair.forall ha hb hne with hlt | hlt <;> omega

/-- An element of appended lists stands in one of them. -/
theorem exists_part_of_getElem? {α β : Type} {f : α → List β} {as : List α} {i : ℕ} {b : β}
    (h : (as.flatMap f)[i]? = some b) : ∃ before a after m, as = before ++ a :: after ∧
      i = (before.flatMap f).length + m ∧ (f a)[m]? = some b := by
  induction as generalizing i with
  | nil => cases h
  | cons a as ih =>
    rw [List.flatMap_cons] at h
    rcases Nat.lt_or_ge i (f a).length with hlt | hge
    · rw [List.getElem?_append_left hlt] at h
      exact ⟨[], a, as, i, rfl, (Nat.zero_add i).symm, h⟩
    · rw [List.getElem?_append_right hge] at h
      obtain ⟨before, a', after, m, rfl, hm, hb⟩ := ih h
      refine ⟨a :: before, a', after, m, rfl, ?_, hb⟩
      rw [List.flatMap_cons, List.length_append]
      omega

/-- The lexemes of a doc comment among those of all pieces. -/
theorem getElem?_flatMap_docComment {before after : List Piece} {body : List Lexeme} {m : ℕ}
    (hm : m < body.length + 2) :
    ((before ++ Piece.docComment body :: after).flatMap Piece.lexemes)[
      (before.flatMap Piece.lexemes).length + m]? = (Piece.docComment body).lexemes[m]? := by
  have hlen : (Piece.docComment body).lexemes.length = body.length + 2 := by simp [Piece.lexemes]
  rw [List.flatMap_append, List.getElem?_append_right (Nat.le_add_right _ _), Nat.add_sub_cancel_left,
    List.flatMap_cons, List.getElem?_append_left (hlen ▸ hm)]

theorem getElem?_flatMap_body {before after : List Piece} {body : List Lexeme} {m : ℕ}
    (hm : m < body.length) : ((before ++ Piece.docComment body :: after).flatMap Piece.lexemes)[
      (before.flatMap Piece.lexemes).length + (m + 1)]? = some body[m] := by
  rw [getElem?_flatMap_docComment (by omega), Piece.lexemes, List.getElem?_cons_succ,
    List.getElem?_append_left hm, List.getElem?_eq_getElem hm]

/-! ### Doc comments among pieces -/

namespace DocComment

variable {i k : ℕ} {pieces : List Piece} {d e : DocComment} {l : Lexeme}

/-- A doc comment is one of the pieces, and its tags are the lexemes of their kind in it. -/
theorem exists_piece (hd : d ∈ all i pieces) : ∃ before body after,
    pieces = before ++ Piece.docComment body :: after ∧
    d.range.opener = i + (before.flatMap Piece.lexemes).length ∧
    d.range.closer = d.range.opener + 1 + body.length ∧
    d.tags = (body.zipIdx (d.range.opener + 1)).filterMap fun (l, j) =>
      if l.kind = .docTag then some j else none := by
  induction pieces generalizing i with
  | nil => cases hd
  | cons p pieces ih =>
    cases p with
    | single l =>
      obtain ⟨before, body, after, rfl, hopener, hcloser, htags⟩ := ih hd
      refine ⟨.single l :: before, body, after, rfl, ?_, hcloser, htags⟩
      simp only [hopener, List.flatMap_cons, Piece.lexemes, List.length_append, List.length_singleton]
      omega
    | docComment body =>
      rcases List.mem_cons.1 hd with rfl | hd
      · exact ⟨[], body, pieces, rfl, rfl, rfl, rfl⟩
      · obtain ⟨before, body', after, rfl, hopener, hcloser, htags⟩ := ih hd
        refine ⟨.docComment body :: before, body', after, rfl, ?_, hcloser, htags⟩
        simp only [hopener, List.flatMap_cons, Piece.lexemes, List.length_append, List.length_cons,
          List.length_nil]
        omega

theorem all_append (i : ℕ) (ps qs : List Piece) :
    all i (ps ++ qs) = all i ps ++ all (i + (ps.flatMap Piece.lexemes).length) qs := by
  induction ps generalizing i with
  | nil => rfl
  | cons p ps ih =>
    have hlen : i + ((p :: ps).flatMap Piece.lexemes).length =
        i + p.lexemes.length + (ps.flatMap Piece.lexemes).length := by
      rw [List.flatMap_cons, List.length_append, Nat.add_assoc]
    cases p with
    | single l =>
      rw [hlen]
      exact ih (i + 1)
    | docComment body =>
      have hpiece : i + (Piece.docComment body).lexemes.length = i + 2 + body.length := by
        simp only [Piece.lexemes, List.length_cons, List.length_append, List.length_nil]
        omega
      rw [hlen, hpiece, List.cons_append, all, ih, all, List.cons_append]

/-- Each piece of the kind is a doc comment. -/
theorem exists_mem_all (i : ℕ) (before : List Piece) (body : List Lexeme) (after : List Piece) :
    ∃ d ∈ all i (before ++ .docComment body :: after),
      d.range.opener = i + (before.flatMap Piece.lexemes).length ∧
      d.range.closer = d.range.opener + 1 + body.length := by
  rw [all_append]
  exact ⟨_, List.mem_append_right _ List.mem_cons_self, rfl, rfl⟩

theorem opener_lt_closer (hd : d ∈ all i pieces) : d.range.opener < d.range.closer := by
  obtain ⟨_, body, _, -, -, hcloser, -⟩ := exists_piece hd
  omega

theorem closer_lt_length (hd : d ∈ all 0 pieces) :
    d.range.closer < (pieces.flatMap Piece.lexemes).length := by
  obtain ⟨before, body, after, rfl, hopener, hcloser, -⟩ := exists_piece hd
  simp only [List.flatMap_append, List.flatMap_cons, Piece.lexemes, List.length_append,
    List.length_cons, List.length_nil]
  omega

/-- Doc comments follow one another. -/
theorem pairwise_all (i : ℕ) (pieces : List Piece) :
    (all i pieces).Pairwise fun d e => d.range.closer < e.range.opener := by
  have hfirst : ∀ i pieces, ∀ d ∈ all i pieces, i ≤ d.range.opener := by
    intro i pieces d hd
    obtain ⟨before, _, _, -, hopener, -⟩ := exists_piece hd
    omega
  induction pieces generalizing i with
  | nil => exact List.Pairwise.nil
  | cons p pieces ih =>
    cases p with
    | single l => exact ih (i + 1)
    | docComment body =>
      refine List.pairwise_cons.2 ⟨fun e he => ?_, ih _⟩
      have := hfirst _ pieces e he
      show i + 1 + body.length < e.range.opener
      omega

/-- An index lies in one doc comment at most. -/
theorem eq_of_around (hd : d ∈ all i pieces) (he : e ∈ all i pieces)
    (hdk : d.range.opener ≤ k ∧ k ≤ d.range.closer) (hek : e.range.opener ≤ k ∧ k ≤ e.range.closer) :
    d = e :=
  eq_of_overlap (pairwise_all i pieces) hd he (hdk.1.trans hek.2) (hek.1.trans hdk.2)

theorem eq_of_end (hd : d ∈ all i pieces) (he : e ∈ all i pieces)
    (hdk : d.range.opener = k ∨ d.range.closer = k) (hek : e.range.opener = k ∨ e.range.closer = k) :
    d = e := by
  have hdlt := opener_lt_closer hd
  have helt := opener_lt_closer he
  exact eq_of_around (k := k) hd he (by omega) (by omega)

theorem sorted_tags (hd : d ∈ all i pieces) : d.tags.Pairwise (· < ·) := by
  obtain ⟨-, body, -, -, -, -, htags⟩ := exists_piece hd
  have hsorted : (body.zipIdx (d.range.opener + 1)).Pairwise fun x y => x.2 < y.2 := by
    rw [← List.pairwise_map, List.zipIdx_map_snd]
    exact List.pairwise_lt_range'
  rw [htags]
  refine hsorted.filterMap _ fun x y hxy a ha b hb => ?_
  obtain ⟨_, j⟩ := x
  obtain ⟨_, k⟩ := y
  simp only [Option.ite_none_right_eq_some, Option.some.injEq] at ha hb
  obtain ⟨-, rfl⟩ := ha
  obtain ⟨-, rfl⟩ := hb
  exact hxy

/-- The tags of a doc comment are the lexemes of their kind in it. -/
theorem mem_tags_iff (hd : d ∈ all 0 pieces) : k ∈ d.tags ↔
    d.range.opener < k ∧ k < d.range.closer ∧
      ∃ l, (pieces.flatMap Piece.lexemes)[k]? = some l ∧ l.kind = .docTag := by
  obtain ⟨before, body, after, rfl, hopener, hcloser, htags⟩ := exists_piece hd
  have hget : ∀ (m : ℕ) (hm : m < body.length),
      ((before ++ Piece.docComment body :: after).flatMap Piece.lexemes)[
        d.range.opener + 1 + m]? = some body[m] := by
    intro m hm
    rw [hopener, Nat.zero_add, Nat.add_assoc, Nat.add_comm 1, getElem?_flatMap_body hm]
  simp only [htags, List.mem_filterMap, Prod.exists, Option.ite_none_right_eq_some,
    List.mk_mem_zipIdx_iff_le_and_getElem?_sub]
  constructor
  · rintro ⟨l, j, ⟨hle, hl⟩, hkind, heq⟩
    obtain rfl : j = k := Option.some.inj heq
    obtain ⟨m, rfl⟩ := Nat.exists_eq_add_of_le hle
    rw [Nat.add_sub_cancel_left] at hl
    obtain ⟨hm, rfl⟩ := List.getElem?_eq_some_iff.1 hl
    exact ⟨by omega, by omega, _, hget m hm, hkind⟩
  · rintro ⟨hlt, hlt', l, hl, hkind⟩
    obtain ⟨m, rfl⟩ := Nat.exists_eq_add_of_le (Nat.succ_le_of_lt hlt)
    have hm : m < body.length := by omega
    cases hl.symm.trans (hget m hm)
    refine ⟨body[m], _, ⟨Nat.le_add_right _ m, ?_⟩, hkind, rfl⟩
    rw [Nat.add_sub_cancel_left, List.getElem?_eq_getElem hm]

section OfCutAll

variable {ctx : Context} {t : Text} (hpieces : Piece.cutAll ctx t = .ok pieces)

include hpieces

/-- From its opening to its closing a doc comment consists of its parts. -/
theorem kind_cases (hd : d ∈ all 0 pieces) (hk : d.range.opener ≤ k) (hk' : k ≤ d.range.closer) :
    ∃ l, (pieces.flatMap Piece.lexemes)[k]? = some l ∧
      (k = d.range.opener ∧ l.kind = .docOpen ∨ k = d.range.closer ∧ l.kind = .docClose ∨
        (d.range.opener < k ∧ k < d.range.closer) ∧
          l.kind ∈ [.docBlank, .docStar, .docTag, .docText]) := by
  have hbody : ∀ p ∈ pieces, ∀ body, p = .docComment body →
      ∀ l ∈ body, l.kind ∈ [.docBlank, .docStar, .docTag, .docText] := by
    refine forall_cutAll (fun ctx c t p hp body heq l hl => ?_) hpieces
    rcases nextPiece_cases hp with ⟨kind, n, rfl, -⟩ | ⟨body, rfl, -⟩
    · cases heq
    · cases heq
      exact (mem_docLexemes hl).2
  obtain ⟨before, body, after, rfl, hopener, hcloser, -⟩ := exists_piece hd
  obtain ⟨m, rfl⟩ := Nat.exists_eq_add_of_le hk
  cases m with
  | zero =>
    refine ⟨Piece.docOpening, ?_, .inl ⟨Nat.add_zero _, rfl⟩⟩
    rw [hopener, Nat.zero_add, getElem?_flatMap_docComment (by omega)]
    rfl
  | succ m =>
    rcases Nat.lt_or_ge m body.length with hlt | hge
    · refine ⟨body[m], ?_, .inr (.inr ⟨by omega, ?_⟩)⟩
      · rw [hopener, Nat.zero_add, getElem?_flatMap_body hlt]
      · exact hbody _ (by simp) body rfl _ (List.getElem_mem hlt)
    · obtain rfl : m = body.length := by omega
      refine ⟨Piece.docClosing, ?_, .inr (.inl ⟨by omega, rfl⟩)⟩
      rw [hopener, Nat.zero_add, getElem?_flatMap_docComment (by omega), Piece.lexemes,
        List.getElem?_cons_succ, List.getElem?_concat_length]

/-- A part of a doc comment stands in one. -/
theorem exists_around (hl : (pieces.flatMap Piece.lexemes)[k]? = some l)
    (hk : l.kind.isDocPart = true) :
    ∃ d ∈ all 0 pieces, d.range.opener ≤ k ∧ k ≤ d.range.closer := by
  have hsingle : ∀ p ∈ pieces, ∀ l, p = .single l → l.kind.isDocPart = false := by
    refine forall_cutAll (fun ctx c t p hp l heq => ?_) hpieces
    rcases nextPiece_cases hp with ⟨kind, n, rfl, hkind⟩ | ⟨body, rfl, -⟩
    · cases heq
      simpa [Kind.isCut] using (Bool.and_eq_true_iff.1 hkind).1
    · cases heq
  obtain ⟨before, p, after, m, rfl, rfl, hm⟩ := exists_part_of_getElem? hl
  have hlt := (List.getElem?_eq_some_iff.1 hm).1
  cases p with
  | single l' =>
    obtain rfl : l = l' := List.mem_singleton.1 (List.mem_of_getElem? hm)
    rw [hsingle _ (by simp) l rfl] at hk
    cases hk
  | docComment body =>
    obtain ⟨d, hd, hopener, hcloser⟩ := exists_mem_all 0 before body after
    simp only [Piece.lexemes, List.length_cons, List.length_append, List.length_nil] at hlt
    exact ⟨d, hd, by omega, by omega⟩

end OfCutAll

end DocComment

/-! ### The rules of the parts -/

namespace DocPart

variable {lineStart flag : Bool} {l : Lexeme} {rest : Text}

theorem text_of_kind_docTag (h : DocPart lineStart l flag rest) (hk : l.kind = .docTag) :
    ∃ u, l.text = '@' :: u ∧ u ≠ [] ∧ ∀ c ∈ u, endsTag c = false := by
  cases h with
  | tag u rest hne hu => exact ⟨u, rfl, hne, hu⟩
  | _ => cases hk

theorem text_of_kind_docText (h : DocPart lineStart l flag rest) (hk : l.kind = .docText) :
    (∀ c ∈ l.text, isLineEnd c = false) ∧ l.text.getLast?.any isSpaceOrTab = false := by
  cases h with
  | text c u rest hspace hstar htag hline hlast => exact ⟨hline, hlast⟩
  | _ => cases hk

end DocPart

theorem exists_docPart_of_mem {lineStart : Bool} {t : Text} {l : Lexeme}
    (h : l ∈ docLexemes lineStart t) : ∃ lineStart flag rest, DocPart lineStart l flag rest := by
  induction lineStart, t using docLexemes.induct with
  | case1 => simp [docLexemes] at h
  | case2 lineStart c t part ih =>
    rw [docLexemes] at h
    rcases List.mem_cons.1 h with rfl | h
    · exact ⟨_, _, _, docPart_docLexeme lineStart c t⟩
    · exact ih h

/-- Each part of a doc comment comes from the rule of its kind. -/
theorem exists_docPart_of_cutAll {ctx : Context} {t : Text} {pieces : List Piece}
    (hpieces : Piece.cutAll ctx t = .ok pieces) {l : Lexeme} (hl : l ∈ pieces.flatMap Piece.lexemes)
    (hk : l.kind ∈ [.docBlank, .docStar, .docTag, .docText]) :
    ∃ lineStart flag rest, DocPart lineStart l flag rest := by
  have hcut : ∀ k : Kind, k ∈ [.docBlank, .docStar, .docTag, .docText] → k.isCut = false := by decide
  have hpiece : ∀ p ∈ pieces, ∀ l ∈ p.lexemes, l.kind ∈ [.docBlank, .docStar, .docTag, .docText] →
      ∃ lineStart flag rest, DocPart lineStart l flag rest := by
    refine forall_cutAll (fun ctx c t p hp l hl hk => ?_) hpieces
    rcases nextPiece_cases hp with ⟨kind, n, rfl, hkind⟩ | ⟨body, rfl, -⟩
    · cases List.mem_singleton.1 hl
      rw [hcut kind hk] at hkind
      cases hkind
    · rcases List.mem_cons.1 hl with rfl | hl
      · exact absurd hk (by decide)
      · rcases List.mem_append.1 hl with hl | hl
        · exact exists_docPart_of_mem hl
        · cases List.mem_singleton.1 hl
          exact absurd hk (by decide)
  obtain ⟨p, hp, hl⟩ := List.mem_flatMap.1 hl
  exact hpiece p hp l hl hk

/-! ### Tokens -/

namespace Token

variable {source : Text} {tokens : List Token} {pieces : List Piece} {d : DocComment} {i k : ℕ}
  {t : Token} {r : Range}

section OfTokenize

variable (h : tokenize source = .ok tokens) (hpieces : Piece.cutAll Context.start source = .ok pieces)

include h hpieces

/-- Where doc comments are concerned, tokens have the kinds of the lexemes as they were cut. -/
theorem exists_docLexeme_of_tokenize (ht : tokens[i]? = some t) :
    ∃ l, (pieces.flatMap Piece.lexemes)[i]? = some l ∧ t.text = l.text ∧
      ∀ k : Kind, k.isDocPart = true → (t.kind = k ↔ l.kind = k) := by
  obtain ⟨l, hl, htext, hkind, hkind'⟩ := exists_lexeme_of_tokenize h hpieces ht
  refine ⟨l, hl, htext, fun k hk => ?_⟩
  have hother : k ∉ [.attributeClose, .nullable] ∧ k ∉ [.ternary, .attributeClose, .closeSquare] := by
    cases k <;> simp [Kind.isDocPart] at hk ⊢
  constructor
  · rintro rfl
    exact hkind hother.1
  · rintro rfl
    exact hkind' hother.2

/-- A token that ends a doc comment carries it, and one that opens it its tags, too. Others carry
nothing. -/
theorem docs_of_tokenize (ht : tokens[i]? = some t) :
    ((∀ d ∈ DocComment.all 0 pieces, d.range.opener ≠ i ∧ d.range.closer ≠ i) ∧
      t.comment = none ∧ t.docTags = []) ∨
    ∃ d ∈ DocComment.all 0 pieces, t.comment = some d.range ∧
      (d.range.opener = i ∧ t.docTags = d.tags ∨ d.range.closer = i ∧ t.docTags = []) := by
  obtain ⟨_, pairs, hpieces', -, rfl⟩ := exists_pieces_of_tokenize h
  cases hpieces.symm.trans hpieces'
  simp only [ofLexemes, List.getElem?_mapIdx, Option.map_eq_some_iff] at ht
  obtain ⟨l, -, rfl⟩ := ht
  dsimp only
  cases hfind : (DocComment.all 0 pieces).find? fun d => d.range.opener == i || d.range.closer == i with
  | none =>
    refine .inl ⟨fun d hd => ?_, rfl, rfl⟩
    simpa using List.find?_eq_none.1 hfind d hd
  | some d =>
    refine .inr ⟨d, List.mem_of_find?_eq_some hfind, rfl, ?_⟩
    by_cases hopener : d.range.opener = i
    · exact .inl ⟨hopener, by simp [Option.filter, hopener]⟩
    · have hend : d.range.opener = i ∨ d.range.closer = i := by simpa using List.find?_some hfind
      exact .inr ⟨hend.resolve_left hopener, by simp [Option.filter, hopener]⟩

/-- Both ends of a doc comment carry it. -/
theorem comment_of_end (hd : d ∈ DocComment.all 0 pieces) (ht : tokens[i]? = some t)
    (hi : d.range.opener = i ∨ d.range.closer = i) : t.comment = some d.range := by
  rcases docs_of_tokenize h hpieces ht with ⟨hnone, -⟩ | ⟨e, he, hcomment, hend⟩
  · exact absurd hi (not_or.2 (hnone d hd))
  · rwa [DocComment.eq_of_end hd he hi (hend.imp And.left And.left)]

/-- The opening of a doc comment carries its tags. -/
theorem docTags_of_opener (hd : d ∈ DocComment.all 0 pieces)
    (ht : tokens[d.range.opener]? = some t) : t.docTags = d.tags := by
  rcases docs_of_tokenize h hpieces ht with ⟨hnone, -⟩ | ⟨e, he, -, hend⟩
  · exact absurd rfl (hnone d hd).1
  · obtain rfl := DocComment.eq_of_end hd he (.inl rfl) (hend.imp And.left And.left)
    rcases hend with ⟨-, htags⟩ | ⟨hcloser, -⟩
    · exact htags
    · exact absurd hcloser (DocComment.opener_lt_closer hd).ne'

end OfTokenize

/-! ### Doc comments by their tokens -/

/-- A range is a doc comment: both of its ends carry it. -/
structure IsDocComment (tokens : List Token) (r : Range) : Prop where
  opener : ∃ t, tokens[r.opener]? = some t ∧ t.kind = .docOpen ∧ t.comment = some r
  closer : ∃ t, tokens[r.closer]? = some t ∧ t.kind = .docClose ∧ t.comment = some r

/-- Between the ends of a doc comment there are its parts, and its tags are those of their kind. -/
structure DocContents (tokens : List Token) (r : Range) : Prop where
  lt : r.opener < r.closer
  between : ∀ k t, r.opener < k → k < r.closer → tokens[k]? = some t →
    t.kind ∈ [.docBlank, .docStar, .docTag, .docText]
  sorted : ∀ t, tokens[r.opener]? = some t → t.docTags.Pairwise (· < ·)
  tags : ∀ t, tokens[r.opener]? = some t → ∀ k, k ∈ t.docTags ↔
    r.opener < k ∧ k < r.closer ∧ ∃ u, tokens[k]? = some u ∧ u.kind = .docTag

/-- How a tag and a text of a doc comment are written. -/
structure DocWritten (t : Token) : Prop where
  tag : t.kind = .docTag → t.text.head? = some '@' ∧ 2 ≤ t.text.length ∧
    ∀ c ∈ t.text, isBlank c = false ∧ c ≠ '('
  text : t.kind = .docText → (∀ c ∈ t.text, c ≠ '\n' ∧ c ≠ '\r') ∧
    ∀ c ∈ t.text.getLast?, c ≠ ' ' ∧ c ≠ '\t'

section OfTokenize

variable (h : tokenize source = .ok tokens) (hpieces : Piece.cutAll Context.start source = .ok pieces)

include h hpieces

/-- From its opening to its closing the tokens of a doc comment are its parts. -/
theorem kind_cases_of_tokenize (hd : d ∈ DocComment.all 0 pieces) (ht : tokens[k]? = some t)
    (hk : d.range.opener ≤ k) (hk' : k ≤ d.range.closer) :
    k = d.range.opener ∧ t.kind = .docOpen ∨ k = d.range.closer ∧ t.kind = .docClose ∨
      (d.range.opener < k ∧ k < d.range.closer) ∧
        t.kind ∈ [.docBlank, .docStar, .docTag, .docText] := by
  have hparts : ∀ k : Kind, k ∈ [.docBlank, .docStar, .docTag, .docText] → k.isDocPart = true := by
    decide
  obtain ⟨l, hl, -, hkind⟩ := exists_docLexeme_of_tokenize h hpieces ht
  obtain ⟨l', hl', hcases⟩ := DocComment.kind_cases hpieces hd hk hk'
  cases hl.symm.trans hl'
  rcases hcases with ⟨heq, hopen⟩ | ⟨heq, hclose⟩ | ⟨hlt, hpart⟩
  · exact .inl ⟨heq, (hkind _ rfl).2 hopen⟩
  · exact .inr (.inl ⟨heq, (hkind _ rfl).2 hclose⟩)
  · refine .inr (.inr ⟨hlt, ?_⟩)
    rwa [(hkind _ (hparts _ hpart)).2 rfl]

theorem isDocComment_iff : IsDocComment tokens r ↔ ∃ d ∈ DocComment.all 0 pieces, d.range = r := by
  constructor
  · rintro ⟨⟨t, ht, -, hcomment⟩, -⟩
    rcases docs_of_tokenize h hpieces ht with ⟨-, hnone, -⟩ | ⟨d, hd, hcomment', -⟩
    · rw [hnone] at hcomment
      cases hcomment
    · exact ⟨d, hd, Option.some.inj (hcomment'.symm.trans hcomment)⟩
  · rintro ⟨d, hd, rfl⟩
    have hlt := DocComment.opener_lt_closer hd
    have hget : ∀ k, k ≤ d.range.closer → ∃ t, tokens[k]? = some t := by
      intro k hk
      have hlength := DocComment.closer_lt_length hd
      rw [← length_of_tokenize h hpieces] at hlength
      exact ⟨_, List.getElem?_eq_getElem (hk.trans_lt hlength)⟩
    obtain ⟨o, ho⟩ := hget _ hlt.le
    obtain ⟨c, hc⟩ := hget _ le_rfl
    refine ⟨⟨o, ho, ?_, comment_of_end h hpieces hd ho (.inl rfl)⟩,
      ⟨c, hc, ?_, comment_of_end h hpieces hd hc (.inr rfl)⟩⟩
    · rcases kind_cases_of_tokenize h hpieces hd ho le_rfl hlt.le with h | h | h
      · exact h.2
      · exact absurd h.1 hlt.ne
      · exact absurd h.1.1 (lt_irrefl _)
    · rcases kind_cases_of_tokenize h hpieces hd hc hlt.le le_rfl with h | h | h
      · exact absurd h.1 hlt.ne'
      · exact h.2
      · exact absurd h.1.2 (lt_irrefl _)

theorem docContents_of_mem (hd : d ∈ DocComment.all 0 pieces) : DocContents tokens d.range := by
  have htag : ∀ k : ℕ, (∃ l, (pieces.flatMap Piece.lexemes)[k]? = some l ∧ l.kind = .docTag) ↔
      ∃ u, tokens[k]? = some u ∧ u.kind = .docTag := by
    intro k
    constructor
    · rintro ⟨l, hl, hkind⟩
      have hlt := (List.getElem?_eq_some_iff.1 hl).1
      rw [← length_of_tokenize h hpieces] at hlt
      obtain ⟨l', hl', -, hsame⟩ :=
        exists_docLexeme_of_tokenize h hpieces (List.getElem?_eq_getElem hlt)
      cases hl.symm.trans hl'
      exact ⟨_, List.getElem?_eq_getElem hlt, (hsame _ rfl).2 hkind⟩
    · rintro ⟨u, hu, hkind⟩
      obtain ⟨l, hl, -, hsame⟩ := exists_docLexeme_of_tokenize h hpieces hu
      exact ⟨l, hl, (hsame _ rfl).1 hkind⟩
  refine ⟨DocComment.opener_lt_closer hd, fun k t hlt hlt' ht => ?_, fun t ht => ?_,
    fun t ht k => ?_⟩
  · rcases kind_cases_of_tokenize h hpieces hd ht hlt.le hlt'.le with h | h | h
    · exact absurd h.1 hlt.ne'
    · exact absurd h.1 hlt'.ne
    · exact h.2
  · rw [docTags_of_opener h hpieces hd ht]
    exact DocComment.sorted_tags hd
  · rw [docTags_of_opener h hpieces hd ht, DocComment.mem_tags_iff hd, htag]

theorem docWritten_of_getElem? (ht : tokens[i]? = some t) : t.DocWritten := by
  obtain ⟨l, hl, htext, hkind⟩ := exists_docLexeme_of_tokenize h hpieces ht
  have hmem := List.mem_of_getElem? hl
  constructor
  · intro hk
    rw [hkind _ rfl] at hk
    obtain ⟨_, _, _, hpart⟩ := exists_docPart_of_cutAll hpieces hmem (by rw [hk]; decide)
    obtain ⟨u, hu, hne, hends⟩ := hpart.text_of_kind_docTag hk
    have hpos := List.length_pos_iff.2 hne
    rw [htext, hu, List.length_cons]
    refine ⟨rfl, by omega, List.forall_mem_cons.2 ⟨⟨rfl, by simp⟩, fun c hc => ?_⟩⟩
    simpa [endsTag] using hends c hc
  · intro hk
    rw [hkind _ rfl] at hk
    obtain ⟨_, _, _, hpart⟩ := exists_docPart_of_cutAll hpieces hmem (by rw [hk]; decide)
    obtain ⟨hline, hlast⟩ := hpart.text_of_kind_docText hk
    rw [htext]
    refine ⟨fun c hc => ?_, fun c hc => ?_⟩
    · have hend := hline c hc
      simp only [isLineEnd, Bool.or_eq_false_iff, beq_eq_false_iff_ne] at hend
      exact hend.symm
    · rw [Option.mem_def.1 hc, Option.any_some] at hlast
      simpa [isSpaceOrTab] using hlast

end OfTokenize

end Token

open Token in
/-- **The tokens of doc comments stand in doc comments.** Each token of such a kind lies in exactly one
doc comment, both ends of which carry it, and between the ends there are only its parts. The opening
carries the tags, in order. A tag is an at sign with at least one character behind it, none of them blank
or an opening parenthesis; a text stays on its line and does not end with a space or tab. -/
theorem tokenize_docComments {source : Text} {tokens : List Token}
    (h : tokenize source = .ok tokens) :
    (∀ i t, tokens[i]? = some t → t.kind.isDocPart = true →
      ∃! r, IsDocComment tokens r ∧ r.opener ≤ i ∧ i ≤ r.closer) ∧
    (∀ r, IsDocComment tokens r → DocContents tokens r) ∧
    ∀ t ∈ tokens, t.DocWritten := by
  obtain ⟨pieces, _, hpieces, -⟩ := exists_pieces_of_tokenize h
  refine ⟨fun i t ht hk => ?_, fun r hr => ?_, fun t ht => ?_⟩
  · obtain ⟨l, hl, -, hkind⟩ := exists_docLexeme_of_tokenize h hpieces ht
    have hpart : l.kind.isDocPart = true := by rwa [(hkind _ hk).1 rfl]
    obtain ⟨d, hd, hle, hle'⟩ := DocComment.exists_around hpieces hl hpart
    refine ⟨d.range, ⟨(isDocComment_iff h hpieces).2 ⟨d, hd, rfl⟩, hle, hle'⟩, ?_⟩
    rintro r ⟨hr, hre, hre'⟩
    obtain ⟨e, he, rfl⟩ := (isDocComment_iff h hpieces).1 hr
    rw [DocComment.eq_of_around hd he ⟨hle, hle'⟩ ⟨hre, hre'⟩]
  · obtain ⟨d, hd, rfl⟩ := (isDocComment_iff h hpieces).1 hr
    exact docContents_of_mem h hpieces hd
  · obtain ⟨i, ht⟩ := List.mem_iff_getElem?.1 ht
    exact docWritten_of_getElem? h hpieces ht

open Token in
/-- A tag in front of a parenthesis, on the second line of a doc comment. -/
theorem tokenize_docComments_tag : ∃ tokens t,
    tokenize "<?php\n/** A\r\n * @var(int) \n */".toList = .ok tokens ∧ tokens[9]? = some t ∧
      t.kind = .docTag ∧ t.text = "@var".toList ∧ t.DocWritten ∧
      IsDocComment tokens ⟨2, 14⟩ ∧ DocContents tokens ⟨2, 14⟩ ∧
      ∃! r, IsDocComment tokens r ∧ r.opener ≤ 9 ∧ 9 ≤ r.closer := by
  have heval : (tokenize "<?php\n/** A\r\n * @var(int) \n */".toList).toOption.any
      (fun tokens : List Token =>
        tokens[9]?.any (fun t : Token => t.kind = .docTag ∧ t.text = "@var".toList) = true ∧
          tokens[2]?.any (fun t : Token => t.kind = .docOpen ∧ t.comment = some ⟨2, 14⟩) = true ∧
          tokens[14]?.any (fun t : Token => t.kind = .docClose ∧ t.comment = some ⟨2, 14⟩) = true)
        = true := by
    decide +kernel
  obtain ⟨tokens, hsome, hp⟩ := (Option.any_eq_true _ _).1 heval
  have htokens : tokenize "<?php\n/** A\r\n * @var(int) \n */".toList = .ok tokens := by
    cases hr : tokenize _ <;> rw [hr] at hsome <;> cases hsome
    rfl
  obtain ⟨htag, hopen, hclose⟩ := of_decide_eq_true hp
  obtain ⟨t, ht, htag⟩ := (Option.any_eq_true _ _).1 htag
  obtain ⟨o, ho, hopen⟩ := (Option.any_eq_true _ _).1 hopen
  obtain ⟨c, hc, hclose⟩ := (Option.any_eq_true _ _).1 hclose
  obtain ⟨hk, htext⟩ := of_decide_eq_true htag
  have hcomment : IsDocComment tokens ⟨2, 14⟩ :=
    ⟨⟨o, ho, of_decide_eq_true hopen⟩, ⟨c, hc, of_decide_eq_true hclose⟩⟩
  obtain ⟨hunique, hcontents, hwritten⟩ := tokenize_docComments htokens
  exact ⟨tokens, t, htokens, ht, hk, htext, hwritten t (List.mem_of_getElem? ht), hcomment,
    hcontents _ hcomment, hunique 9 t ht (by rw [hk]; rfl)⟩

end EntityLint
