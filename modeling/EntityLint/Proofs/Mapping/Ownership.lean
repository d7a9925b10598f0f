import EntityLint.Proofs.Mapping.DocComment

/-!
# What is read for a declaration

A doc comment or attribute group is read for the first declaration behind it. Only variables,
classes, interfaces and functions count as declarations there, so that a constant, an enum case or
the use of a trait is passed over and what stands in front of it is read for the member after it.

* `SourceFile.Leads`: the declaration that something in front of it leads to;
* `SourceFile.annotationsOf`: the doc comment and the attribute groups that are read;
* `closer_of_docCommentOf?`, `closer_of_mem_attributeGroupsBefore`: where they end.

The main statement is `annotations_lead`.
-/

namespace EntityLint

/-! ### The ends of doc comments and groups -/

namespace SourceFile

section OfParse

variable {path : String} {source : Text} {f : SourceFile} {i : ℕ} {t : Token} {r : Range}

/-- The end of a doc comment carries the doc comment that it ends. -/
theorem comment_of_docClose (h : parse path source = .ok f) (ht : f.tokens[i]? = some t)
    (hk : t.kind = .docClose) (hr : t.comment = some r) : r.opener < i ∧ r.closer = i := by
  obtain ⟨pieces, hpieces, hreads⟩ := exists_reads_of_parse h
  have hclose : f.kindAt i = some .docClose := by rw [kindAt, ht, Option.map_some, hk]
  obtain ⟨l, hl, hlk⟩ := hreads.kind i .docClose hclose (by decide)
  obtain ⟨tokens, htokens, rfl⟩ := exists_tokens_of_parse h
  rw [List.getElem?_toArray] at ht
  rcases Token.docs_of_tokenize htokens hpieces ht with
    ⟨-, hnone, -⟩ | ⟨d, hd, hcomment, hend⟩
  · rw [hnone] at hr
    cases hr
  · cases hcomment.symm.trans hr
    have hlt := DocComment.opener_lt_closer hd
    rcases hend with ⟨rfl, -⟩ | ⟨rfl, -⟩
    · obtain ⟨l', hl', hcases⟩ := DocComment.kind_cases hpieces hd le_rfl hlt.le
      cases hl.symm.trans hl'
      rw [hlk] at hcases
      simp [hlt.ne] at hcases
    · exact ⟨hlt, rfl⟩

/-- The tags of a doc comment stand inside of it. -/
theorem docTags_between (h : parse path source = .ok f) {close opener : ℕ} {t u : Token}
    (ht : f.tokens[close]? = some t) (hr : t.comment = some ⟨opener, close⟩)
    (hu : f.tokens[opener]? = some u) {tag : ℕ} (htag : tag ∈ u.docTags) :
    opener < tag ∧ tag < close := by
  obtain ⟨pieces, hpieces, -, hcomment, -⟩ := exists_docComment_of_parse h ht
  obtain ⟨d, hd, hrange⟩ := hcomment _ hr
  obtain ⟨tokens, htokens, rfl⟩ := exists_tokens_of_parse h
  rw [List.getElem?_toArray] at hu
  rcases Token.docs_of_tokenize htokens hpieces hu with
    ⟨-, -, hnone⟩ | ⟨e, he, -, ⟨hopener, htags⟩ | ⟨-, hnone⟩⟩
  · rw [hnone] at htag
    cases htag
  · have hlt := DocComment.opener_lt_closer hd
    have helt := DocComment.opener_lt_closer he
    obtain rfl : d = e := by
      rw [hrange] at hlt
      refine DocComment.eq_of_around (k := opener) hd he ?_ ?_
      · rw [hrange]
        exact ⟨le_rfl, hlt.le⟩
      · omega
    obtain ⟨hle, hlt', -⟩ := (DocComment.mem_tags_iff hd).1 (htags ▸ htag)
    rw [hrange] at hle hlt'
    exact ⟨hle, hlt'⟩
  · rw [hnone] at htag
    cases htag

/-- The end of an attribute group carries a group that begins before it. -/
theorem attrGroup_of_attributeClose (h : parse path source = .ok f) (ht : f.tokens[i]? = some t)
    (hk : t.kind = .attributeClose) (hr : t.attrGroup = some r) : r.opener < i := by
  obtain ⟨tokens, htokens, rfl⟩ := exists_tokens_of_parse h
  obtain ⟨ls, docs, pairs, hls, hpairs, rfl⟩ := exists_lexemes_of_tokenize htokens
  rw [List.getElem?_toArray] at ht
  have hplain := fun l hl => (Lexeme.mem_ofSource hls l hl).2
  have hpaired := Token.wellPaired_ofLexemes hpairs docs hplain
  obtain ⟨l, hl, hdesc⟩ := Token.describes_of_getElem? ht
  have hgroup := hdesc.kind
  rw [hk] at hgroup
  split at hgroup
  · next hany =>
    obtain ⟨g, hg, hgi⟩ := List.any_eq_true.1 hany
    obtain rfl : g.closer = i := by simpa using hgi
    rw [Token.mem_groups_iff hpairs, ← Token.kinds_ofLexemes hpairs docs hplain] at hg
    obtain ⟨g', -, -, hle, -, hcarry⟩ := hpaired.group g hg.1 hg.2
    have hlt := hg.1.lt
    cases hr.symm.trans (hcarry g.closer t (.inr rfl) ht)
    omega
  · exact absurd hgroup.symm (hplain l (List.mem_of_getElem? hl))

end OfParse

/-! ### The declaration behind -/

/-- Whether the declaration at `p` is the first one behind `stop`. -/
structure Leads (f : SourceFile) (stop p : ℕ) : Prop where
  lt : stop < p
  declares : ∃ k ∈ declarationKinds, f.kindAt p = some k
  between : ∀ i, stop < i → i < p → ∀ k ∈ declarationKinds, f.kindAt i ≠ some k

/-- What is written in front of a declaration leads to no other one. -/
theorem Leads.unique {f : SourceFile} {stop p q : ℕ} (hp : f.Leads stop p) (hq : f.Leads stop q) :
    p = q := by
  obtain ⟨k, hk, hkp⟩ := hp.declares
  obtain ⟨l, hl, hlq⟩ := hq.declares
  rcases Nat.lt_trichotomy p q with h | h | h
  · exact absurd hkp (hq.between p hp.lt h k hk)
  · exact h
  · exact absurd hlq (hp.between q hq.lt h l hl)

theorem ownerOf?_eq_some_iff {f : SourceFile} {stop p : ℕ} :
    f.ownerOf? stop = some p ↔ f.Leads stop p := by
  rw [ownerOf?, nextOfKind?_eq_some_iff]
  exact ⟨fun ⟨hlt, hdeclares, hbetween⟩ => ⟨hlt, hdeclares, hbetween⟩,
    fun ⟨hlt, hdeclares, hbetween⟩ => ⟨hlt, hdeclares, hbetween⟩⟩

/-- The doc comment and the attribute groups that are read for a declaration. -/
def annotationsOf (f : SourceFile) (p : ℕ) : List Range :=
  (f.docCommentOf? p).toList ++ f.attributeGroups p

section OfParse

variable {path : String} {source : Text} {f : SourceFile} {p : ℕ} {r : Range}

theorem closer_of_docCommentOf? (h : parse path source = .ok f) (hr : f.docCommentOf? p = some r) :
    ∃ t, f.tokens[r.closer]? = some t ∧ t.comment = some r ∧ r.opener < r.closer ∧
      f.ownerOf? r.closer = some p := by
  unfold docCommentOf? at hr
  simp only [Option.bind_eq_bind, Option.bind_eq_some_iff] at hr
  obtain ⟨_, _, close, hclose, _, howner, t, ht, hcomment⟩ := hr
  have howner : f.ownerOf? close = some p := by simpa using howner
  obtain ⟨-, -, hk⟩ := previous?_eq_some hclose
  have hk : t.kind = .docClose := by simpa [holdsAt, ht] using hk
  obtain ⟨hlt, rfl⟩ := comment_of_docClose h ht hk hcomment
  exact ⟨t, ht, hcomment, hlt, howner⟩

theorem closer_of_mem_attributeGroupsBefore (h : parse path source = .ok f) {start : ℕ}
    (hr : r ∈ f.attributeGroupsBefore p start) :
    r.opener < r.closer ∧ f.ownerOf? r.closer = some p := by
  fun_induction f.attributeGroupsBefore p start with
  | case1 => cases hr
  | case2 => cases hr
  | case3 => cases hr
  | case4 start hstart close hclose group hgroup howner ih =>
    rcases List.mem_cons.1 hr with rfl | hr
    · obtain ⟨t, ht, hgroup⟩ := Option.bind_eq_some_iff.1 hgroup
      obtain ⟨-, -, hk⟩ := previous?_eq_some hclose
      have hk : t.kind = .attributeClose := by simpa [holdsAt, ht] using hk
      have hlt := attrGroup_of_attributeClose h ht hk hgroup
      exact ⟨hlt, howner⟩
    · exact ih hr
  | case5 => cases hr

theorem closer_of_mem_annotationsOf (h : parse path source = .ok f) (hr : r ∈ f.annotationsOf p) :
    r.opener < r.closer ∧ f.ownerOf? r.closer = some p := by
  rcases List.mem_append.1 hr with hr | hr
  · obtain ⟨_, _, _, hlt, howner⟩ := closer_of_docCommentOf? h (Option.mem_toList.1 hr)
    exact ⟨hlt, howner⟩
  · exact closer_of_mem_attributeGroupsBefore h (List.mem_reverse.1 hr)

/-- An annotation of a doc comment stands between its ends. -/
theorem position_of_mem_docTags (h : parse path source = .ok f) (hr : f.docCommentOf? p = some r)
    {tag : MappingTag} (htag : tag ∈ f.docTags r) :
    r.opener < tag.position ∧ tag.position < r.closer := by
  obtain ⟨t, ht, hcomment, -⟩ := closer_of_docCommentOf? h hr
  obtain ⟨e, he, htag⟩ := List.mem_filterMap.1 htag
  obtain ⟨⟨_, rfl⟩, -⟩ := docTag?_eq_some htag
  have hmem := (index_of_mem he).2
  cases hopener : f.tokens[r.opener]? with
  | none =>
    rw [hopener] at hmem
    cases hmem
  | some u =>
    rw [hopener] at hmem
    exact docTags_between h ht hcomment hopener hmem

/-- An annotation of an attribute group is found where the group opens. -/
theorem exists_ofArguments_of_mem_groupTags {tag : MappingTag} (htag : tag ∈ f.groupTags r) :
    ∃ name start stop text, tag = .ofArguments name r.opener start stop .native text := by
  obtain ⟨⟨start, stop⟩, -, htag⟩ := List.mem_filterMap.1 htag
  unfold nativeTag? at htag
  dsimp only at htag
  split at htag
  · split at htag <;> cases htag <;> exact ⟨_, _, _, _, rfl⟩
  · cases htag

/-- Each annotation of a property stands in one of those doc comments and groups that are read for it. -/
theorem exists_mem_annotationsOf (h : parse path source = .ok f) {ruleCode : Text} {tag : MappingTag}
    (htag : tag ∈ (f.propertyTags p ruleCode).tags) :
    ∃ r ∈ f.annotationsOf p, r.opener ≤ tag.position ∧ tag.position < r.closer := by
  have hnative : tag ∈ f.nativeTags p → ∃ r ∈ f.annotationsOf p,
      r.opener ≤ tag.position ∧ tag.position < r.closer := by
    intro htag
    obtain ⟨r, hr, htag⟩ := List.mem_flatMap.1 htag
    have hr : r ∈ f.annotationsOf p := List.mem_append_right _ hr
    obtain ⟨name, start, stop, text, rfl⟩ := exists_ofArguments_of_mem_groupTags htag
    exact ⟨r, hr, le_rfl, (closer_of_mem_annotationsOf h hr).1⟩
  unfold propertyTags at htag
  cases hcomment : f.docCommentOf? p with
  | none =>
    rw [hcomment] at htag
    exact hnative htag
  | some r =>
    rw [hcomment] at htag
    rcases List.mem_append.1 htag with htag | htag
    · obtain ⟨hlt, hlt'⟩ := position_of_mem_docTags h hcomment htag
      refine ⟨r, List.mem_append_left _ ?_, hlt.le, hlt'⟩
      rw [hcomment]
      exact List.mem_singleton_self r
    · exact hnative htag

/-- **What is read for a declaration stands in front of it, with no other declaration between
them.** No doc comment and no attribute group is read for two declarations, and each annotation of a
property stands in one that is read for this property. -/
theorem annotations_lead (h : parse path source = .ok f) (p : ℕ) :
    (∀ r ∈ f.annotationsOf p, r.opener < r.closer ∧ f.Leads r.closer p ∧
      ∀ q, r ∈ f.annotationsOf q → q = p) ∧
    ∀ ruleCode, ∀ tag ∈ (f.propertyTags p ruleCode).tags, ∃ r ∈ f.annotationsOf p,
      r.opener ≤ tag.position ∧ tag.position < r.closer := by
  constructor
  · intro r hr
    obtain ⟨hlt, howner⟩ := closer_of_mem_annotationsOf h hr
    refine ⟨hlt, ownerOf?_eq_some_iff.1 howner, fun q hq => ?_⟩
    obtain ⟨-, howner'⟩ := closer_of_mem_annotationsOf h hq
    exact (ownerOf?_eq_some_iff.1 howner').unique (ownerOf?_eq_some_iff.1 howner)
  · exact fun ruleCode tag htag => exists_mem_annotationsOf h htag

end OfParse

/-- The annotation of a constant is read for the property after it. -/
theorem annotations_lead_constant : ∃ f tag, parse "a.php"
      "<?php class A \x7b /** @ORM\\Id */ const X = 1; private $x; \x7d".toList = .ok f ∧
    tag ∈ (f.propertyTags 25 []).tags ∧ tag.name = "ORM\\Id".toList ∧
    f.kindAt 14 = some .kwConst ∧ f.kindAt 21 = some .semicolon ∧ f.textAt 25 = "$x".toList ∧
    ∃ r ∈ f.annotationsOf 25, r.opener ≤ tag.position ∧ tag.position < r.closer ∧
      r.closer < 14 ∧ f.Leads r.closer 25 := by
  have heval : (parse "a.php"
      "<?php class A \x7b /** @ORM\\Id */ const X = 1; private $x; \x7d".toList).toOption.any
        (fun f => (f.propertyTags 25 []).tags =
            [⟨"ORM\\Id".toList, .id, 10, 10, 11, .doc, .empty, []⟩] ∧
          f.annotationsOf 25 = [⟨8, 12⟩] ∧ f.kindAt 14 = some .kwConst ∧
          f.kindAt 21 = some .semicolon ∧ f.textAt 25 = "$x".toList) = true := by
    decide +kernel
  obtain ⟨f, hf, hp⟩ := (Option.any_eq_true _ _).1 heval
  obtain ⟨htags, hread, hconst, hend, hname⟩ := of_decide_eq_true hp
  have hparse : parse "a.php"
      "<?php class A \x7b /** @ORM\\Id */ const X = 1; private $x; \x7d".toList = .ok f := by
    cases hr : parse "a.php" _ <;> rw [hr] at hf <;> cases hf
    rfl
  have htag := htags ▸ List.mem_singleton_self
    (⟨"ORM\\Id".toList, .id, 10, 10, 11, .doc, .empty, []⟩ : MappingTag)
  obtain ⟨hleads, hinside⟩ := annotations_lead hparse 25
  obtain ⟨r, hr, hle, hlt⟩ := hinside [] _ htag
  obtain ⟨-, hleads, -⟩ := hleads r hr
  refine ⟨f, _, hparse, htag, rfl, hconst, hend, hname, r, hr, hle, hlt, ?_, hleads⟩
  rw [hread, List.mem_singleton] at hr
  subst hr
  decide

end SourceFile

end EntityLint
