import EntityLint.Proofs.Mapping.ArgumentList
import EntityLint.Proofs.Mapping.DocSpans
import EntityLint.Proofs.Source.Spelled
import EntityLint.Proofs.Token.CodeText

/-!
# A tag on a line of its own

A line of a doc comment is cut apart whatever stands on the lines above it. So a tag that begins a line,
with arguments that end it, is read by itself, if no list of arguments is open where the line begins.

* `docLexemes_line`, `docLexemes_tagLine`: the parts of a doc comment, line by line;
* `NoneCounts`, `ListsEnd`, `TagComment`: a doc comment with a tag on a line of its own;
* `SourceFile.exists_body_of_docCommentOf?`: the body of the doc comment of a property;
* `SourceFile.docEntries_append`, `Passage.docArguments_snd_le`: the tags above a line;
* `SourceFile.docTags_eq_singleton`: the one tag that counts.

The main statement is `TagComment.docTags_eq`.
-/

namespace EntityLint

open Lexeme Text

/-! ### Lines -/

/-- A part with a line feed ends a line, whatever follows. -/
theorem DocPart.of_lineFeed {lineStart flag : Bool} {l : Lexeme} {rest : Text}
    (h : DocPart lineStart l flag rest) (hmem : '\n' ∈ l.text) :
    flag = true ∧ ∀ t, DocPart lineStart l true t := by
  cases h with
  | crlf => exact ⟨rfl, fun t => .crlf t⟩
  | lf => exact ⟨rfl, fun t => .lf t⟩
  | cr rest h => simp at hmem
  | blanks u rest hne hu h => cases hu _ hmem
  | star rest h => simp at hmem
  | tag u rest hne hu h => cases hu _ ((List.mem_cons.1 hmem).resolve_left (by decide))
  | text c u rest hspace hstar htag hline hlast h => cases hline _ hmem

/-- The parts of a doc comment do not go on behind a line feed. -/
theorem docLexemes_line (lineStart : Bool) {s : Text} (hs : s.getLast? = some '\n') (t : Text) :
    docLexemes lineStart (s ++ t) = docLexemes lineStart s ++ docLexemes true t := by
  induction lineStart, s using docLexemes_induction with
  | hnil lineStart => cases hs
  | @happend lineStart flag l rest hpart ih =>
    by_cases hrest : rest = []
    · -- the last part ends the line
      subst hrest
      rw [List.append_nil] at hs
      obtain ⟨rfl, hcut⟩ := hpart.of_lineFeed (List.mem_of_getLast? hs)
      rw [docLexemes_append hpart, List.append_nil, docLexemes_append (hcut t)]
      simp [docLexemes]
    · rw [List.getLast?_append_of_ne_nil _ hrest] at hs
      have hline : SameLine rest (rest ++ t) := by
        refine ⟨List.head?_append_of_ne_nil _ hrest, fun _ => ?_⟩
        obtain ⟨u, v, rfl, hu, hv⟩ := exists_run (!isLineEnd ·) rest
        have hne : v ≠ [] := by
          rintro rfl
          rw [List.append_nil] at hs
          cases hu _ (List.mem_of_getLast? hs)
        have hv' : (v ++ t).head?.any (!isLineEnd ·) = false := by
          rwa [List.head?_append_of_ne_nil _ hne]
        rw [List.append_assoc, takeWhile_append_of_head hu hv', takeWhile_append_of_head hu hv]
      rw [docLexemes_append hpart, List.append_assoc, docLexemes_append (hpart.congr hline), ih hs,
        List.cons_append]

/-- A line that begins with a star, a space and a tag with arguments. -/
theorem docLexemes_tagLine {lead u v rest : Text} (hlead : ∀ c ∈ lead, isSpaceOrTab c = true)
    (hne : u ≠ []) (hu : ∀ c ∈ u, endsTag c = false) (hv : ∀ c ∈ v, isLineEnd c = false)
    (hlast : ('(' :: v).getLast?.any isSpaceOrTab = false)
    (hrest : ∀ c ∈ rest.takeWhile (!isLineEnd ·), isSpaceOrTab c = true) :
    ∃ ls, (∀ l ∈ ls, l.kind = .docBlank ∨ l.kind = .docStar) ∧
      docLexemes true (lead ++ ('*' :: ' ' :: '@' :: (u ++ '(' :: (v ++ rest)))) =
        ls ++ ⟨.docTag, '@' :: u⟩ :: ⟨.docText, '(' :: v⟩ :: docLexemes false rest := by
  have htext : DocPart false ⟨.docText, '(' :: v⟩ false rest :=
    .text '(' v rest rfl (by simp) (by simp) (List.forall_mem_cons.2 ⟨rfl, hv⟩) hlast hrest
  have htag : DocPart false ⟨.docTag, '@' :: u⟩ false ('(' :: (v ++ rest)) := .tag u _ hne hu rfl
  have hspace : DocPart false ⟨.docBlank, [' ']⟩ false ('@' :: (u ++ '(' :: (v ++ rest))) :=
    .blanks [' '] _ (by simp) (List.forall_mem_singleton.2 rfl) rfl
  have hstar : DocPart true ⟨.docStar, ['*']⟩ false (' ' :: '@' :: (u ++ '(' :: (v ++ rest))) :=
    .star _ rfl
  have hline : docLexemes true ('*' :: ' ' :: '@' :: (u ++ '(' :: (v ++ rest))) =
      ⟨.docStar, ['*']⟩ :: ⟨.docBlank, [' ']⟩ :: ⟨.docTag, '@' :: u⟩ :: ⟨.docText, '(' :: v⟩ ::
        docLexemes false rest := by
    have htag' := docLexemes_append htag
    have htext' := docLexemes_append htext
    rw [List.cons_append] at htag' htext'
    rw [← htext', ← htag', ← List.singleton_append (x := ' '), ← docLexemes_append hspace]
    exact docLexemes_append hstar
  by_cases hnil : lead = []
  · subst hnil
    exact ⟨[⟨.docStar, ['*']⟩, ⟨.docBlank, [' ']⟩], by simp, hline⟩
  · have hblanks : DocPart true ⟨.docBlank, lead⟩ true ('*' :: ' ' :: '@' :: (u ++ '(' :: (v ++ rest))) :=
      .blanks lead _ hnil hlead rfl
    refine ⟨⟨.docBlank, lead⟩ :: [⟨.docStar, ['*']⟩, ⟨.docBlank, [' ']⟩], by simp, ?_⟩
    rw [docLexemes_append hblanks, hline]
    rfl

/-! ### Doc comments with a tag on a line -/

/-- None of the tags among the parts of a doc comment is an annotation that counts. -/
def NoneCounts (ls : List Lexeme) : Prop :=
  ∀ l ∈ ls, l.kind = .docTag → MappingTag.isMapping (l.text.dropWhile (· == '@')) = false

instance (ls : List Lexeme) : Decidable (NoneCounts ls) :=
  inferInstanceAs (Decidable (∀ l ∈ ls, _ → _))

/-- Whether a list of arguments begins behind a tag among the parts of a doc comment. -/
def opensListAt (ls : List Lexeme) (m : ℕ) : Bool :=
  (ls[m]?.any fun l => l.kind == .docTag) &&
    ls[m + 1]?.any fun l => l.kind == .docText && l.text.head? == some '('

/-- Each list of arguments of a tag among the parts of a doc comment ends there. -/
def ListsEnd (ls : List Lexeme) : Prop :=
  ∀ m < ls.length, opensListAt ls m = true →
    ∃ l ∈ ls.drop (m + 1), (l.kind = .docText ∨ l.kind = .docTag) ∧ ')' ∈ l.text

instance (ls : List Lexeme) : Decidable (ListsEnd ls) :=
  inferInstanceAs (Decidable (∀ m < ls.length, _ → _))

/-- Blanks and stars do not open a list. -/
theorem ListsEnd.append {xs ls : List Lexeme} (h : ListsEnd xs)
    (hls : ∀ l ∈ ls, l.kind = .docBlank ∨ l.kind = .docStar) : ListsEnd (xs ++ ls) := by
  intro m hm hopens
  obtain ⟨htag, htext⟩ := Bool.and_eq_true_iff.1 hopens
  have habove : ∀ n, n < (xs ++ ls).length → (∃ l, (xs ++ ls)[n]? = some l ∧
      l.kind ≠ .docBlank ∧ l.kind ≠ .docStar) → n < xs.length := by
    rintro n hn ⟨l, hl, hblank, hstar⟩
    by_contra hge
    rw [List.getElem?_append_right (Nat.le_of_not_lt hge)] at hl
    exact (hls l (List.mem_of_getElem? hl)).elim hblank hstar
  obtain ⟨l, hl, hk⟩ := (Option.any_eq_true _ _).1 htag
  obtain ⟨l', hl', hk'⟩ := (Option.any_eq_true _ _).1 htext
  have hk : l.kind = .docTag := by simpa using hk
  have hk'' : l'.kind = .docText := by simpa using (Bool.and_eq_true_iff.1 hk').1
  have hm' := habove (m + 1) (List.getElem?_eq_some_iff.1 hl').1
    ⟨l', hl', by simp [hk''], by simp [hk'']⟩
  rw [List.getElem?_append_left (by omega)] at hl
  rw [List.getElem?_append_left hm'] at hl'
  obtain ⟨c, hc, hclose⟩ := h m (by omega) (by
    rw [opensListAt, hl, hl', Option.any_some, Option.any_some, hk]
    exact hk')
  refine ⟨c, ?_, hclose⟩
  rw [List.drop_append_of_le_length (by omega)]
  exact List.mem_append_left ls hc

/-- A doc comment around a line that begins with a tag. No other tag counts, and no list of arguments
is open where the line begins. -/
structure TagComment where
  /-- What stands above the line, without the line feed in front of it. -/
  above : Text
  /-- The blanks in front of the star that begins the line. -/
  lead : Text
  /-- What follows the arguments. -/
  below : Text
  lead_blank : ∀ c ∈ lead, isSpaceOrTab c = true
  below_blank : ∀ c ∈ below.takeWhile (!isLineEnd ·), isSpaceOrTab c = true
  above_none : NoneCounts (docLexemes false (above ++ ['\n']))
  above_end : ListsEnd (docLexemes false (above ++ ['\n']))
  below_none : NoneCounts (docLexemes false below)

/-- The text of a doc comment around a tag with its arguments. -/
def TagComment.text (c : TagComment) (tag : Text) : Text :=
  "/**".toList ++ (c.above ++ '\n' :: (c.lead ++ ('*' :: ' ' :: (tag ++ c.below)))) ++ "*/".toList

namespace SourceFile

variable {path : String} {source : Text} {f : SourceFile} {p : ℕ} {r : Range}

/-! ### Bodies of doc comments -/

/-- The doc comment of a property is cut from its text. -/
theorem exists_body_of_docCommentOf? (h : parse path source = .ok f)
    (hr : f.docCommentOf? p = some r) : ∃ body,
      f.Passage r.opener (Piece.docComment (docLexemes false body)).lexemes ∧
      f.textBetween r.opener (r.closer + 1) = "/**".toList ++ body ++ "*/".toList ∧
      r.closer = r.opener + 1 + (docLexemes false body).length ∧
      (f.tokens[r.opener]?.map Token.docTags).getD [] =
        DocComment.tagsOf (r.opener + 1) (docLexemes false body) := by
  obtain ⟨t, ht, hcomment, -⟩ := closer_of_docCommentOf? h hr
  obtain ⟨pieces, hpieces, -, hcomments, -⟩ := exists_docComment_of_parse h ht
  obtain ⟨d, hd, rfl⟩ := hcomments r hcomment
  have hspells := Spells.of_parse h hpieces
  obtain ⟨before, parts, after, rfl, hopener, hcloser, htags⟩ := DocComment.exists_piece hd
  obtain ⟨body, rfl⟩ := exists_body_of_cutAll hpieces (List.mem_append_right _ List.mem_cons_self)
  rw [List.flatMap_append, List.flatMap_cons] at hspells
  have hcut := Spells.left (Spells.right hspells)
  rw [← hopener] at hcut
  have hsettled : ∀ l ∈ (Piece.docComment (docLexemes false body)).lexemes, l.kind.IsSettled := by
    intro l hl
    have hkinds : ∀ k : Kind, k ∈ [.docOpen, .docBlank, .docStar, .docTag, .docText, .docClose] →
        k.IsSettled := by decide
    exact hkinds _ (mem_lexemes_docComment hl).2
  refine ⟨body, hcut.passage hsettled, ?_, hcloser, ?_⟩
  · have htext := hcut.textBetween
    have hlength : d.range.opener + (Piece.docComment (docLexemes false body)).lexemes.length =
        d.range.closer + 1 := by
      rw [hcloser]
      simp only [Piece.lexemes, List.length_cons, List.length_append, List.length_nil]
      omega
    rw [hlength] at htext
    exact htext.trans (Piece.text_docComment body)
  · obtain ⟨tokens, htokens, rfl⟩ := exists_tokens_of_parse h
    obtain ⟨o, ho, -⟩ := hcut 0 _ rfl
    rw [Nat.add_zero] at ho
    have hdocs := Token.docTags_of_opener htokens hpieces hd (List.getElem?_toArray.symm.trans ho)
    rw [ho, Option.map_some, Option.getD_some, hdocs, htags]
    rfl

/-! ### The tags above a line -/

/-- The tags that are read above a line do not matter below it, if their arguments end above it. -/
theorem docEntries_append {close start stop : ℕ} {tags : List ℕ} (hstart : start ≤ stop)
    (hstop : ∀ tag ∈ tags, (f.docArguments close tag).2 ≤ stop) (tags' : List ℕ) : ∃ start' ≤ stop,
      f.docEntries close start (tags ++ tags') =
        f.docEntries close start tags ++ f.docEntries close start' tags' := by
  induction tags generalizing start with
  | nil => exact ⟨start, hstart, rfl⟩
  | cons tag tags ih =>
    obtain ⟨hend, hstop⟩ := List.forall_mem_cons.1 hstop
    rw [List.cons_append, docEntries, docEntries]
    split_ifs with hlt hvar
    · exact ih hstart hstop
    · obtain ⟨start', hle, heq⟩ := ih hstart hstop
      exact ⟨start', hle, by rw [heq, List.cons_append]⟩
    · obtain ⟨start', hle, heq⟩ := ih hend hstop
      exact ⟨start', hle, by dsimp only; rw [heq, List.cons_append]⟩

/-- The tags among some lexemes, by their places. -/
theorem mem_tagsOf {i j : ℕ} {ls : List Lexeme} : j ∈ DocComment.tagsOf i ls ↔
    ∃ m, ∃ hm : m < ls.length, j = i + m ∧ ls[m].kind = .docTag := by
  induction ls generalizing i with
  | nil => simp
  | cons l ls ih =>
    rw [DocComment.tagsOf_cons, List.mem_append, ih]
    constructor
    · rintro (hl | ⟨m, hm, rfl, hk⟩)
      · split at hl
        · next hk => exact ⟨0, Nat.succ_pos _, List.mem_singleton.1 hl, hk⟩
        · cases hl
      · exact ⟨m + 1, Nat.succ_lt_succ hm, by omega, hk⟩
    · rintro ⟨m, hm, rfl, hk⟩
      cases m with
      | zero =>
        left
        rw [if_pos (show l.kind = .docTag from hk)]
        exact List.mem_singleton_self _
      | succ m => exact .inr ⟨m, Nat.lt_of_succ_lt_succ hm, by omega, hk⟩

theorem tagsOf_append (i : ℕ) (ls ms : List Lexeme) : DocComment.tagsOf i (ls ++ ms) =
    DocComment.tagsOf i ls ++ DocComment.tagsOf (i + ls.length) ms := by
  rw [DocComment.tagsOf, List.zipIdx_append, List.filterMap_append]
  rfl

/-- None of the tags in a passage is an annotation that counts. -/
theorem Passage.filterMap_docTag?_eq_nil {i : ℕ} {ls : List Lexeme} (h : f.Passage i ls)
    (hls : NoneCounts ls) (close start : ℕ) :
    (f.docEntries close start (DocComment.tagsOf i ls)).filterMap f.docTag? = [] := by
  refine List.filterMap_eq_nil_iff.2 fun e he => ?_
  obtain ⟨m, hm, hindex, hkind⟩ := mem_tagsOf.1 (index_of_mem he).2
  cases e with
  | var tag => rfl
  | tag tag arguments stop =>
    obtain rfl : tag = i + m := hindex
    have htext := h.textAt (List.getElem?_eq_getElem hm)
    simp [docTag?, htext, hls _ (List.getElem_mem hm) hkind]

/-! ### The tag on a line -/

section Parts

variable {xs ys : List Lexeme} {tag args : Text} {close start : ℕ}

/-- A tag above a line has its arguments above it. -/
theorem Passage.docArguments_snd_le {l : Lexeme} (h : f.Passage start (xs ++ l :: ys))
    (hl : l.kind = .docTag) (hlists : ListsEnd xs) {m : ℕ} (hm : m < xs.length)
    (hkind : xs[m].kind = .docTag) (hclose : start + xs.length ≤ close) :
    (f.docArguments close (start + m)).2 ≤ start + xs.length := by
  rw [docArguments_snd]
  by_cases hopens : f.opensList (start + m) = true
  · obtain ⟨t, ht, hopen⟩ := (Option.any_eq_true _ _).1 hopens
    -- the token behind the tag is no tag, so that it stands above the line, too
    have hm' : m + 1 < xs.length := by
      by_contra hge
      have hlast : (xs ++ l :: ys)[m + 1]? = some l := by
        rw [show m + 1 = xs.length by omega]
        simp
      obtain ⟨u, hu, hk, -⟩ := h.exists_token hlast
      cases ht.symm.trans hu
      rw [hk, hl] at hopen
      cases hopen
    obtain ⟨u, hu, hk, htext⟩ := (Passage.left h).exists_token (List.getElem?_eq_getElem hm')
    cases ht.symm.trans hu
    obtain ⟨c, hc, hlisted, hclosing⟩ := hlists m hm (by
      rw [opensListAt, List.getElem?_eq_getElem hm, List.getElem?_eq_getElem hm', Option.any_some,
        Option.any_some, ← hk, ← htext, hkind]
      exact hopen)
    obtain ⟨e, he, rfl⟩ := List.mem_iff_getElem.1 hc
    rw [List.length_drop] at he
    rw [List.getElem_drop] at hlisted hclosing
    obtain ⟨v, hv, hvk, hvtext⟩ := (Passage.left h).exists_token
      (List.getElem?_eq_getElem (l := xs) (i := m + 1 + e) (by omega))
    have hends : endsList (v, start + (m + 1 + e)) = true := by
      rw [endsList, Bool.and_eq_true, isListed_iff, List.contains_iff_mem]
      dsimp only
      rw [hvk, hvtext]
      exact ⟨hlisted, hclosing⟩
    obtain ⟨x, hx⟩ : ∃ x, (f.indexedTokens (start + m + 1) (start + xs.length)).find? endsList =
        some x := by
      rw [← Option.isSome_iff_exists, List.find?_isSome]
      exact ⟨_, mem_listTokens.2 ⟨by dsimp only; omega, by dsimp only; omega, hv⟩, hends⟩
    obtain ⟨-, hlt, -⟩ := mem_listTokens.1 (List.mem_of_find?_eq_some hx)
    rw [if_pos hopens, indexedTokens_append (start + xs.length) (by omega) hclose, List.find?_append,
      hx]
    exact hlt
  · rw [if_neg hopens, Option.getD_none]
    omega

/-- A list of arguments on one line ends before its first closing parenthesis. -/
theorem Passage.docArguments_eq (h : f.Passage start (⟨.docTag, tag⟩ :: ⟨.docText, '(' :: args⟩ :: ys))
    (hargs : ')' ∈ args) (hclose : start + 1 < close) :
    f.docArguments close start = (args.takeWhile (· != ')'), start + 2) := by
  obtain ⟨t, ht, hk, htext⟩ := h.exists_token (a := 1) rfl
  obtain ⟨u, v, rfl, hu⟩ := List.eq_append_cons_of_mem hargs
  have hopens : f.opensList start = true := by
    rw [opensList, holdsAt, ht, Option.any_some, hk, htext]
    rfl
  have htake : (u ++ ')' :: v).takeWhile (· != ')') = u :=
    takeWhile_append_of_head (fun c hc => bne_iff_ne.2 fun h => hu (h ▸ hc)) rfl
  have hinner : ')' ∉ '(' :: u := by simp [hu]
  have hsplit : extended [] t.text = '(' :: u ++ ')' :: v := by
    rw [extended, List.isEmpty_nil, if_pos rfl]
    exact htext
  have hread := argumentsFrom_cons_of_close (x := (t, start + 1))
    (l := f.indexedTokens (start + 1 + 1) close) (isListed_iff.2 (.inl hk)) hsplit hinner
  rw [SourceFile.docArguments_eq, if_pos hopens, indexedTokens_cons ht hclose, hread, htake]
  rfl

/-- The only tag that counts, with a list of arguments directly behind it. -/
theorem docTags_eq_singleton {ls : List Lexeme}
    (hls : ls = xs ++ ⟨.docTag, '@' :: tag⟩ :: ⟨.docText, '(' :: args⟩ :: ys)
    (h : f.Passage (r.opener + 1) ls) (hcloser : r.closer = r.opener + 1 + ls.length)
    (htags : (f.tokens[r.opener]?.map Token.docTags).getD [] = DocComment.tagsOf (r.opener + 1) ls)
    (hxs : NoneCounts xs) (hlists : ListsEnd xs) (hys : NoneCounts ys)
    (hcounts : MappingTag.isMapping tag = true) (hargs : ')' ∈ args) :
    ∃ i, f.docTags r = [.ofArguments tag i i (i + 2) .doc (args.takeWhile (· != ')'))] := by
  subst hls
  rw [List.length_append, List.length_cons, List.length_cons] at hcloser
  generalize hi : r.opener + 1 + xs.length = i at hcloser
  have hline := Passage.right h
  rw [hi] at hline
  have hbelow : f.Passage (i + 2) ys := hline.tail.tail
  have htext : f.textAt i = '@' :: tag := hline.textAt (a := 0) rfl
  have hname : ('@' :: tag).dropWhile (· == '@') = tag := by
    cases tag with
    | nil => rfl
    | cons c tag =>
      rw [List.dropWhile_cons_of_pos rfl, List.dropWhile_cons_of_neg]
      rw [beq_iff_eq]
      rintro rfl
      cases hcounts
  have hvar : '@' :: tag ≠ "@var".toList := by
    intro heq
    obtain rfl : tag = "var".toList := (List.cons.inj heq).2
    cases hcounts
  have habove : ∀ j ∈ DocComment.tagsOf (r.opener + 1) xs, (f.docArguments r.closer j).2 ≤ i := by
    intro j hj
    obtain ⟨m, hm, rfl, hk⟩ := mem_tagsOf.1 hj
    exact hi ▸ h.docArguments_snd_le rfl hlists hm hk (by omega)
  obtain ⟨start', hle, hentries⟩ := docEntries_append (show r.opener ≤ i by omega) habove
    (DocComment.tagsOf i (⟨.docTag, '@' :: tag⟩ :: ⟨.docText, '(' :: args⟩ :: ys))
  have htag : DocComment.tagsOf i (⟨.docTag, '@' :: tag⟩ :: ⟨.docText, '(' :: args⟩ :: ys) =
      i :: DocComment.tagsOf (i + 2) ys := by
    rw [DocComment.tagsOf_cons, DocComment.tagsOf_cons, if_pos rfl, if_neg Kind.noConfusion]
    rfl
  refine ⟨i, ?_⟩
  rw [docTags, docEntriesOf, htags, tagsOf_append, hi, hentries, List.filterMap_append,
    (Passage.left h).filterMap_docTag?_eq_nil hxs, List.nil_append, htag, docEntries,
    if_neg hle.not_gt, if_neg (by rwa [htext]), hline.docArguments_eq hargs (by omega)]
  dsimp only
  rw [List.filterMap_cons, hbelow.filterMap_docTag?_eq_nil hys, docTag?, htext, hname, if_pos hcounts]

end Parts

end SourceFile

/-- **A tag on a line of its own is the only one that counts**, with the text before the first closing
parenthesis behind it as its arguments, if the list ends the line. -/
theorem TagComment.docTags_eq {path : String} {source : Text} {f : SourceFile} {p : ℕ} {r : Range}
    (h : SourceFile.parse path source = .ok f) (hr : f.docCommentOf? p = some r) (c : TagComment)
    {name args : Text}
    (htext : f.textBetween r.opener (r.closer + 1) = c.text ('@' :: (name ++ '(' :: (args ++ [')']))))
    (hname : ∀ c ∈ name, endsTag c = false) (hargs : ∀ c ∈ args, isLineEnd c = false)
    (hcounts : MappingTag.isMapping name = true) :
    ∃ i, f.docTags r = [.ofArguments name i i (i + 2) .doc (args.takeWhile (· != ')'))] := by
  obtain ⟨body, hpassage, hbody, hcloser, htags⟩ := SourceFile.exists_body_of_docCommentOf? h hr
  obtain ⟨ls, hls, hline⟩ := docLexemes_tagLine (u := name) (v := args ++ [')'])
    c.lead_blank (by rintro rfl; cases hcounts) hname
    (List.forall_mem_append.2 ⟨hargs, List.forall_mem_singleton.2 rfl⟩)
    (by rw [← List.cons_append, List.getLast?_concat]; rfl) c.below_blank
  have hparts : docLexemes false body = (docLexemes false (c.above ++ ['\n']) ++ ls) ++
      ⟨.docTag, '@' :: name⟩ :: ⟨.docText, '(' :: (args ++ [')'])⟩ :: docLexemes false c.below := by
    rw [htext, TagComment.text] at hbody
    have hcut := List.append_cancel_left (List.append_cancel_right hbody)
    rw [← hcut, List.append_assoc, ← hline, ← docLexemes_line false (by simp)]
    simp
  have hnone : NoneCounts (docLexemes false (c.above ++ ['\n']) ++ ls) := by
    refine List.forall_mem_append.2 ⟨c.above_none, fun l hl hk => ?_⟩
    rcases hls l hl with hblank | hstar
    · cases hk.symm.trans hblank
    · cases hk.symm.trans hstar
  have htake : (args ++ [')']).takeWhile (· != ')') = args.takeWhile (· != ')') := by
    obtain ⟨u, v, rfl, hu, hv⟩ := exists_run (· != ')') args
    have hv' : (v ++ [')']).head?.any (· != ')') = false := by
      cases v with
      | nil => rfl
      | cons c v => exact hv
    rw [List.append_assoc, takeWhile_append_of_head hu hv', takeWhile_append_of_head hu hv]
  obtain ⟨i, hi⟩ := SourceFile.docTags_eq_singleton hparts
    (SourceFile.Passage.left (SourceFile.Passage.tail hpassage)) hcloser htags hnone
    (c.above_end.append hls) c.below_none hcounts (by simp)
  exact ⟨i, by rw [hi, htake]⟩

end EntityLint
