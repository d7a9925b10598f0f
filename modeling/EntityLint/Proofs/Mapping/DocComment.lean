import EntityLint.Mapping.Tag
import EntityLint.Proofs.Source.Reading
import EntityLint.Proofs.Token.DocComments
import Mathlib.Tactic

/-!
# Lists of arguments in a doc comment

The arguments of a tag in a doc comment are the text of the tokens that follow it through the first
closing parenthesis. No tag before that one is an annotation. A tag behind it can be one although
the list that it stands in is still open, after another list inside of that one.

* `SourceFile.docListText`, `StaysOpen`, `SourceFile.InList`: lists that are matched by depth;
* `argumentsFrom_cases`: where the arguments of a tag end;
* `exists_docComment_of_parse`: the tokens of a doc comment;
* `pairwise_docEntries`: the tags of a doc comment that are read.

The main statement is `closes_before_docTag`.
-/

namespace EntityLint

/-! ### The tokens of a doc comment -/

section OfParse

variable {path : String} {source : Text} {f : SourceFile} {i : ℕ} {t : Token}

/-- What a token says of doc comments is said of those among the pieces. -/
theorem exists_docComment_of_parse (h : SourceFile.parse path source = .ok f)
    (ht : f.tokens[i]? = some t) : ∃ pieces, Piece.cutAll Context.start source = .ok pieces ∧
      f.Reads (pieces.flatMap Piece.lexemes) ∧
      (∀ r, t.comment = some r → ∃ d ∈ DocComment.all 0 pieces, d.range = r) ∧
      (t.docTags = [] ∨ ∃ d ∈ DocComment.all 0 pieces, t.docTags = d.tags) := by
  obtain ⟨pieces, hpieces, hreads⟩ := exists_reads_of_parse h
  obtain ⟨tokens, htokens, rfl⟩ := SourceFile.exists_tokens_of_parse h
  refine ⟨pieces, hpieces, hreads, ?_⟩
  rw [List.getElem?_toArray] at ht
  rcases Token.docs_of_tokenize htokens hpieces ht with
    ⟨-, hcomment, htags⟩ | ⟨d, hd, hcomment, ⟨-, htags⟩ | ⟨-, htags⟩⟩
  · exact ⟨fun _ hr => absurd (hcomment.symm.trans hr) (by simp), .inl htags⟩
  · exact ⟨fun _ hr => ⟨d, hd, Option.some.inj (hcomment.symm.trans hr)⟩, .inr ⟨d, hd, htags⟩⟩
  · exact ⟨fun _ hr => ⟨d, hd, Option.some.inj (hcomment.symm.trans hr)⟩, .inl htags⟩

theorem sorted_docTags_of_parse (h : SourceFile.parse path source = .ok f)
    (ht : f.tokens[i]? = some t) : t.docTags.Pairwise (· < ·) := by
  obtain ⟨pieces, -, -, -, htags | ⟨d, hd, htags⟩⟩ := exists_docComment_of_parse h ht
  · rw [htags]
    exact List.Pairwise.nil
  · rw [htags]
    exact DocComment.sorted_tags hd

/-- The tags of a doc comment are no texts. -/
theorem kindAt_of_mem_docTags (h : SourceFile.parse path source = .ok f) (ht : f.tokens[i]? = some t)
    {k : ℕ} (hk : k ∈ t.docTags) {kind : Kind} (hkind : f.kindAt k = some kind) :
    kind ∉ [.docText, .quoted] := by
  intro hmem
  obtain ⟨pieces, -, hreads, -, htags | ⟨d, hd, htags⟩⟩ := exists_docComment_of_parse h ht
  · rw [htags] at hk
    cases hk
  · obtain ⟨-, -, l, hl, htag⟩ := (DocComment.mem_tags_iff hd).1 (htags ▸ hk)
    have hplain : ∀ kind : Kind, kind ∈ [.docText, .quoted] →
        kind ∉ [.attributeClose, .nullable] ∧ kind ≠ .docTag := by decide
    obtain ⟨hplain, hne⟩ := hplain kind hmem
    obtain ⟨l', hl', hk'⟩ := hreads.kind k kind hkind hplain
    cases hl.symm.trans hl'
    exact hne (hk'.symm.trans htag)

/-- There are no strings in a doc comment. -/
theorem kindAt_ne_quoted_of_comment (h : SourceFile.parse path source = .ok f)
    (ht : f.tokens[i]? = some t) {r : Range} (hr : t.comment = some r) {k : ℕ} (hk : r.opener ≤ k)
    (hk' : k ≤ r.closer) : f.kindAt k ≠ some .quoted := by
  intro hkind
  obtain ⟨pieces, hpieces, hreads, hcomment, -⟩ := exists_docComment_of_parse h ht
  obtain ⟨d, hd, rfl⟩ := hcomment r hr
  obtain ⟨l, hl, hquoted⟩ := hreads.kind k .quoted hkind (by decide)
  obtain ⟨l', hl', hcases⟩ := DocComment.kind_cases hpieces hd hk hk'
  cases hl.symm.trans hl'
  rw [hquoted] at hcases
  simp at hcases

end OfParse

namespace SourceFile

/-! ### Lists of arguments -/

/-- Whether a token of a doc comment adds to the arguments of a tag before it. -/
def isListed (t : Token) : Bool := t.kind == .docText || t.kind == .docTag

/-- The text that the tokens from `start` on and before `stop` add to a list of arguments. -/
def docListText (f : SourceFile) (start stop : ℕ) : Text :=
  ((f.slice start stop).filter isListed).flatMap Token.text

/-- Whether the parenthesis that begins a text is closed nowhere in it. -/
def StaysOpen (t : Text) : Prop :=
  ∀ n < t.length, (t.take (n + 1)).count ')' < (t.take (n + 1)).count '('

instance (t : Text) : Decidable (StaysOpen t) :=
  inferInstanceAs (Decidable (∀ n < t.length, _))

/-- Whether a token stands inside of the list of arguments of a tag, in a doc comment that closes at
`close`. The list begins directly after the tag and reaches to the parenthesis that matches its first
one. -/
structure InList (f : SourceFile) (close tag inner : ℕ) : Prop where
  lt : tag < inner
  opens : f.holdsAt (fun t => t.kind == .docText && t.text.head? == some '(') (tag + 1) = true
  staysOpen : StaysOpen (f.docListText (tag + 1) inner)
  closed : ¬StaysOpen (f.docListText (tag + 1) close)

/-- The arguments of a tag end in the first token with a closing parenthesis, if there is one. -/
theorem argumentsFrom_cases {before : Text} (hbefore : ')' ∉ before) (tokens : List (Token × ℕ)) :
    (argumentsFrom before tokens = none ∧ ∀ x ∈ tokens, isListed x.1 = true → ')' ∉ x.1.text) ∨
      ∃ text x, argumentsFrom before tokens = some (text, x.2 + 1) ∧ x ∈ tokens ∧
        isListed x.1 = true ∧ ')' ∈ x.1.text := by
  induction tokens generalizing before with
  | nil => exact .inl ⟨rfl, by simp⟩
  | cons x tokens ih =>
    obtain ⟨token, i⟩ := x
    by_cases hkind : token.kind = .docText ∨ token.kind = .docTag
    · have hlisted : isListed token = true := by simpa [isListed] using hkind
      have hmem : ')' ∈ (if before.isEmpty then token.text else before ++ ' ' :: token.text) ↔
          ')' ∈ token.text := by
        split <;> simp [hbefore]
      rcases Text.breakOn_singleton_cases ')'
          (if before.isEmpty then token.text else before ++ ' ' :: token.text) with
        ⟨hnot, hbreak⟩ | ⟨inner, rest, -, htext, hbreak⟩
      · rw [argumentsFrom, if_pos hkind]
        simp only [hbreak]
        rcases ih hnot with ⟨hnone, htokens⟩ | ⟨text, x, hsome, hx, htoken⟩
        · refine .inl ⟨hnone, List.forall_mem_cons.2 ⟨fun _ => mt hmem.2 hnot, htokens⟩⟩
        · exact .inr ⟨text, x, hsome, List.mem_cons_of_mem _ hx, htoken⟩
      · refine .inr ⟨inner.drop 1, (token, i), ?_, List.mem_cons_self, hlisted, hmem.1 ?_⟩
        · rw [argumentsFrom, if_pos hkind]
          simp only [hbreak]
        · rw [htext]
          simp
    · have hlisted : isListed token = false := by simpa [isListed] using hkind
      rw [argumentsFrom, if_neg hkind]
      rcases ih hbefore with ⟨hnone, htokens⟩ | ⟨text, x, hsome, hx, htoken⟩
      · refine .inl ⟨hnone, List.forall_mem_cons.2 ⟨fun h => ?_, htokens⟩⟩
        simp [hlisted] at h
      · exact .inr ⟨text, x, hsome, List.mem_cons_of_mem _ hx, htoken⟩

theorem mem_docListText {f : SourceFile} {start stop : ℕ} {c : Char} :
    c ∈ f.docListText start stop ↔ ∃ i t, start ≤ i ∧ i < stop ∧ f.tokens[i]? = some t ∧
      isListed t = true ∧ c ∈ t.text := by
  have hslice : ∀ t, t ∈ f.slice start stop ↔ ∃ i, start ≤ i ∧ i < stop ∧ f.tokens[i]? = some t := by
    intro t
    rw [slice, List.mem_iff_getElem?]
    simp only [List.getElem?_take, List.getElem?_drop, Option.ite_none_right_eq_some,
      Array.getElem?_toList]
    constructor
    · rintro ⟨n, hn, ht⟩
      exact ⟨start + n, by omega, by omega, ht⟩
    · rintro ⟨i, hstart, hstop, ht⟩
      exact ⟨i - start, by omega, by rwa [Nat.add_sub_cancel' hstart]⟩
  simp only [docListText, List.mem_flatMap, List.mem_filter, hslice]
  constructor
  · rintro ⟨t, ⟨⟨i, hstart, hstop, ht⟩, hlisted⟩, hc⟩
    exact ⟨i, t, hstart, hstop, ht, hlisted, hc⟩
  · rintro ⟨i, t, hstart, hstop, ht, hlisted, hc⟩
    exact ⟨t, ⟨⟨i, hstart, hstop, ht⟩, hlisted⟩, hc⟩

theorem docListText_cons {f : SourceFile} {start stop : ℕ} {t : Token} (hlt : start < stop)
    (ht : f.tokens[start]? = some t) (hlisted : isListed t = true) :
    f.docListText start stop = t.text ++ f.docListText (start + 1) stop := by
  have hslice : f.slice start stop = t :: f.slice (start + 1) stop := by
    rw [← Array.getElem?_toList] at ht
    obtain ⟨hsize, rfl⟩ := List.getElem?_eq_some_iff.1 ht
    rw [slice, List.drop_eq_getElem_cons hsize, show stop - start = stop - (start + 1) + 1 by omega,
      List.take_succ_cons, slice]
  rw [docListText, hslice, List.filter_cons_of_pos hlisted, List.flatMap_cons, docListText]

/-- A list that is closed has a closing parenthesis. -/
theorem InList.exists_close {f : SourceFile} {close tag inner : ℕ} (h : f.InList close tag inner) :
    ')' ∈ f.docListText (tag + 1) close := by
  by_contra hnot
  refine h.closed fun n hn => ?_
  have hlt : tag + 1 < close := by
    by_contra hge
    simp [docListText, slice, Nat.sub_eq_zero_of_le (Nat.le_of_not_lt hge)] at hn
  obtain ⟨t, ht, hopens⟩ := (Option.any_eq_true _ _).1 h.opens
  simp only [Bool.and_eq_true, beq_iff_eq] at hopens
  obtain ⟨hkind, hhead⟩ := hopens
  obtain ⟨text, htext⟩ := List.head?_eq_some_iff.1 hhead
  have hlist := docListText_cons hlt ht (by simp [isListed, hkind])
  have hclose : ((f.docListText (tag + 1) close).take (n + 1)).count ')' = 0 :=
    List.count_eq_zero_of_not_mem fun hmem => hnot (List.mem_of_mem_take hmem)
  rw [hclose, hlist, htext]
  simp

/-- The tokens that a list of arguments may go through. -/
theorem mem_listTokens {f : SourceFile} {start stop : ℕ} {x : Token × ℕ} :
    x ∈ (f.tokens.toList.zipIdx.drop start).take (stop - start) ↔
      start ≤ x.2 ∧ x.2 < stop ∧ f.tokens[x.2]? = some x.1 := by
  rw [List.mem_iff_getElem?]
  simp only [List.getElem?_take, List.getElem?_drop, List.getElem?_zipIdx,
    Option.ite_none_right_eq_some, Option.map_eq_some_iff, Array.getElem?_toList]
  constructor
  · rintro ⟨n, hn, t, ht, rfl⟩
    exact ⟨by dsimp only; omega, by dsimp only; omega, by simpa using ht⟩
  · rintro ⟨hstart, hstop, ht⟩
    refine ⟨x.2 - start, by omega, x.1, ?_, ?_⟩
    · rwa [Nat.add_sub_cancel' hstart]
    · rw [Nat.zero_add, Nat.add_sub_cancel' hstart]

/-- The arguments of a tag end with a token between the tag and the end of the comment, or there are
none. -/
theorem docArguments_cases (f : SourceFile) (close tag : ℕ) :
    f.docArguments close tag = ([], tag + 1) ∨ ∃ text i,
      f.docArguments close tag = (text, i + 1) ∧ tag < i ∧ i < close ∧ i < f.tokens.size := by
  unfold docArguments
  extract_lets opens tokens
  split
  · next found hfound =>
    obtain ⟨-, hfound⟩ := Option.ite_none_right_eq_some.1 hfound
    rcases argumentsFrom_cases List.not_mem_nil tokens with
      ⟨hnone, -⟩ | ⟨text, x, hsome, hx, -⟩
    · rw [hnone] at hfound
      cases hfound
    · rw [hsome] at hfound
      cases hfound
      obtain ⟨hlt, hclose, ht⟩ := mem_listTokens.1 hx
      exact .inr ⟨text, x.2, rfl, hlt, hclose, (Array.getElem?_eq_some_iff.1 ht).1⟩
  · exact .inl rfl

theorem lt_docArguments (f : SourceFile) (close tag : ℕ) : tag < (f.docArguments close tag).2 := by
  rcases f.docArguments_cases close tag with h | ⟨text, i, h, hlt, -⟩ <;> rw [h]
  · exact Nat.lt_succ_self tag
  · exact Nat.lt_succ_of_lt hlt

theorem docArguments_le (f : SourceFile) {close tag : ℕ} (htag : tag < close) :
    (f.docArguments close tag).2 ≤ close := by
  rcases f.docArguments_cases close tag with h | ⟨text, i, h, -, hlt, -⟩ <;> rw [h]
  · exact htag
  · exact hlt

/-- The arguments of a tag whose list is closed end with the first closing parenthesis. -/
theorem InList.mem_docListText {f : SourceFile} {close tag inner : ℕ}
    (h : f.InList close tag inner) (hstop : (f.docArguments close tag).2 ≤ inner) :
    ')' ∈ f.docListText (tag + 1) inner := by
  rcases argumentsFrom_cases List.not_mem_nil
      ((f.tokens.toList.zipIdx.drop (tag + 1)).take (close - (tag + 1))) with
    ⟨-, hnone⟩ | ⟨text, x, hsome, hx, hlisted, hclose⟩
  · obtain ⟨i, t, hstart, hlt, ht, hlisted, hclose⟩ := SourceFile.mem_docListText.1 h.exists_close
    exact absurd hclose (hnone (t, i) (mem_listTokens.2 ⟨hstart, hlt, ht⟩) hlisted)
  · have hdoc : f.docArguments close tag = (text, x.2 + 1) := by
      simp only [docArguments, h.opens, if_true, hsome]
    rw [hdoc] at hstop
    obtain ⟨hstart, -, ht⟩ := mem_listTokens.1 hx
    exact SourceFile.mem_docListText.2 ⟨x.2, x.1, hstart, hstop, ht, hlisted, hclose⟩

end SourceFile

/-! ### The tags that are read -/

namespace DocEntry

/-- The tag of an entry. -/
def index : DocEntry → ℕ
  | var i => i
  | tag i _ _ => i

/-- The token from which on other tags are read. -/
def resume : DocEntry → ℕ
  | var i => i
  | tag _ _ stop => stop

/-- Whether the tag of an entry stands behind that of another one and its arguments. -/
def Precedes (x y : DocEntry) : Prop := x.index < y.index ∧ x.resume ≤ y.index

end DocEntry

namespace SourceFile

variable {f : SourceFile} {close start : ℕ} {tags : List ℕ}

theorem docArguments_of_mem {tag stop : ℕ} {arguments : Text}
    (h : .tag tag arguments stop ∈ f.docEntries close start tags) :
    f.docArguments close tag = (arguments, stop) := by
  induction tags generalizing start with
  | nil => cases h
  | cons tag' tags ih =>
    rw [docEntries] at h
    split at h
    · exact ih h
    · split at h
      · rcases List.mem_cons.1 h with heq | h
        · cases heq
        · exact ih h
      · rcases List.mem_cons.1 h with heq | h
        · cases heq
          rfl
        · exact ih h

theorem index_of_mem {e : DocEntry} (h : e ∈ f.docEntries close start tags) :
    start ≤ e.index ∧ e.index ∈ tags := by
  induction tags generalizing start with
  | nil => cases h
  | cons tag tags ih =>
    rw [docEntries] at h
    split at h
    · exact ⟨(ih h).1, List.mem_cons_of_mem _ (ih h).2⟩
    · next hle =>
      have hstart : start ≤ tag := Nat.le_of_not_lt hle
      split at h
      · rcases List.mem_cons.1 h with rfl | h
        · exact ⟨hstart, List.mem_cons_self⟩
        · exact ⟨(ih h).1, List.mem_cons_of_mem _ (ih h).2⟩
      · rcases List.mem_cons.1 h with rfl | h
        · exact ⟨hstart, List.mem_cons_self⟩
        · have hstop : (f.docArguments close tag).2 ≤ e.index := (ih h).1
          have hlt := f.lt_docArguments close tag
          exact ⟨hstart.trans (hlt.le.trans hstop), List.mem_cons_of_mem _ (ih h).2⟩

/-- Each tag that is read stands behind the tags before it and their arguments. -/
theorem pairwise_docEntries (htags : tags.Pairwise (· < ·)) :
    (f.docEntries close start tags).Pairwise DocEntry.Precedes := by
  induction tags generalizing start with
  | nil => exact List.Pairwise.nil
  | cons tag tags ih =>
    obtain ⟨hlt, htags⟩ := List.pairwise_cons.1 htags
    rw [docEntries]
    split
    · exact ih htags
    · split
      · refine List.pairwise_cons.2 ⟨fun e he => ?_, ih htags⟩
        have htag := hlt _ (index_of_mem he).2
        exact ⟨htag, htag.le⟩
      · refine List.pairwise_cons.2 ⟨fun e he => ?_, ih htags⟩
        exact ⟨hlt _ (index_of_mem he).2, (index_of_mem he).1⟩

/-- An annotation of a doc comment is written from its tag through its arguments. -/
theorem docTag?_eq_some {e : DocEntry} {t : MappingTag} (h : f.docTag? e = some t) :
    (∃ arguments, e = .tag t.position arguments t.stop) ∧ t.start = t.position ∧
      t.dialect = .doc := by
  cases e with
  | var tag => cases h
  | tag tag arguments stop =>
    obtain ⟨-, h⟩ := Option.ite_none_right_eq_some.1 h
    cases h
    exact ⟨⟨arguments, rfl⟩, rfl, rfl⟩

/-- **A list of arguments is passed over through its first closing parenthesis.** A tag in the list
of another tag of the same doc comment is an annotation only if a parenthesis has been closed between
them. -/
theorem closes_before_docTag {path : String} {source : Text} {f : SourceFile}
    (h : SourceFile.parse path source = .ok f) {comment : Range} {tag stop : ℕ} {arguments : Text}
    (hread : .tag tag arguments stop ∈ f.docEntriesOf comment) {t : MappingTag}
    (ht : t ∈ f.docTags comment) (hin : f.InList comment.closer tag t.position) :
    ')' ∈ f.docListText (tag + 1) t.position := by
  have hsorted : ((f.tokens[comment.opener]?.map Token.docTags).getD []).Pairwise (· < ·) := by
    cases htoken : f.tokens[comment.opener]? with
    | none => exact List.Pairwise.nil
    | some t => exact sorted_docTags_of_parse h htoken
  obtain ⟨e, he, htag⟩ := List.mem_filterMap.1 ht
  have hindex : t.position = e.index := by
    cases e with
    | var i => cases htag
    | tag i text stop =>
      obtain ⟨-, htag⟩ := Option.ite_none_right_eq_some.1 htag
      cases htag
      rfl
  have hlt : tag < e.index := hindex ▸ hin.lt
  have hstop : (f.docArguments comment.closer tag).2 = stop := by rw [docArguments_of_mem hread]
  have hpair : (f.docEntriesOf comment).Pairwise fun x y => x.Precedes y ∨ y.Precedes x :=
    (pairwise_docEntries hsorted).imp .inl
  have hsymm : Std.Symm fun x y : DocEntry => x.Precedes y ∨ y.Precedes x := ⟨fun _ _ => Or.symm⟩
  have hne : DocEntry.tag tag arguments stop ≠ e := by
    rintro rfl
    exact lt_irrefl tag hlt
  refine hin.mem_docListText ?_
  rw [hindex, hstop]
  rcases hpair.forall hread he hne with ⟨-, hle⟩ | ⟨hgt, -⟩
  · exact hle
  · exact absurd hgt (Nat.lt_asymm hlt)

/-- A tag that stands in the arguments of another one and is an annotation, behind a list without
arguments. -/
theorem closes_before_docTag_nested : ∃ f comment t,
    parse "a.php" "<?php class A \x7b /** @ORM\\JoinTable(@B(),\n@ORM\\Id\n) */ private $x; \x7d".toList
      = .ok f ∧
    f.docCommentOf? 21 = some comment ∧ t ∈ f.docTags comment ∧ t.name = "ORM\\Id".toList ∧
    f.textAt 10 = "@ORM\\JoinTable".toList ∧ f.InList comment.closer 10 t.position ∧
    ')' ∈ f.docListText 11 t.position := by
  have heval : (parse "a.php"
      "<?php class A \x7b /** @ORM\\JoinTable(@B(),\n@ORM\\Id\n) */ private $x; \x7d".toList).toOption.any
        (fun f => f.docCommentOf? 21 = some ⟨8, 17⟩ ∧
          .tag 10 "@B(".toList 12 ∈ f.docEntriesOf ⟨8, 17⟩ ∧
          f.docTags ⟨8, 17⟩ = [⟨"ORM\\Id".toList, .id, 13, 13, 14, .doc, .empty, []⟩] ∧
          f.textAt 10 = "@ORM\\JoinTable".toList ∧
          f.holdsAt (fun t => t.kind == .docText && t.text.head? == some '(') 11 = true ∧
          StaysOpen (f.docListText 11 13) ∧ ¬StaysOpen (f.docListText 11 17)) = true := by
    decide +kernel
  obtain ⟨f, hf, hp⟩ := (Option.any_eq_true _ _).1 heval
  obtain ⟨hcomment, hread, htags, hname, hopens, hopen, hclosed⟩ := of_decide_eq_true hp
  have hparse : parse "a.php"
      "<?php class A \x7b /** @ORM\\JoinTable(@B(),\n@ORM\\Id\n) */ private $x; \x7d".toList = .ok f := by
    cases hr : parse "a.php" _ <;> rw [hr] at hf <;> cases hf
    rfl
  have ht : ⟨"ORM\\Id".toList, .id, 13, 13, 14, .doc, .empty, []⟩ ∈ f.docTags ⟨8, 17⟩ := by
    rw [htags]
    exact List.mem_singleton_self _
  have hin : f.InList 17 10 13 := ⟨by decide, hopens, hopen, hclosed⟩
  exact ⟨f, ⟨8, 17⟩, _, hparse, hcomment, ht, rfl, hname, hin,
    closes_before_docTag hparse hread ht hin⟩

end SourceFile

end EntityLint
