import EntityLint.Proofs.Mapping.Ownership

/-!
# The tokens of annotations in a doc comment

A repair of an annotation changes the tokens from the beginning of its tag through the end of its
arguments. However far the arguments reach, no token is in two annotations of a doc comment, and
none is outside of the comment.

* `PropertyTags.ofDialect`: the annotations of a property in one way of writing;
* `MappingTag.StandsIn`, `MappingTag.Precedes`: where an annotation of a doc comment stands;
* `SourceFile.pairwise_docTags`, `SourceFile.standsIn_of_mem_docTags`: the annotations of one doc
  comment.

The main statement is `doc_annotations_stand_apart`.
-/

namespace EntityLint

/-- The annotations of a property in one way of writing. -/
def PropertyTags.ofDialect (p : PropertyTags) (dialect : Dialect) : List MappingTag :=
  p.tags.filter fun tag => tag.dialect = dialect

namespace MappingTag

/-- An annotation begins with a tag between the ends of a doc comment, and ends before the comment
does. -/
structure StandsIn (f : SourceFile) (r : Range) (tag : MappingTag) : Prop where
  start : tag.start = tag.position
  kind : f.kindAt tag.position = some .docTag
  opener : r.opener < tag.start
  nonempty : tag.start < tag.stop
  closer : tag.stop ≤ r.closer

/-- An annotation ends before another one begins. -/
def Precedes (s t : MappingTag) : Prop := s.start < t.start ∧ s.stop ≤ t.start

end MappingTag

namespace SourceFile

open Token MappingTag

/-! ### One doc comment -/

section OfParse

variable {path : String} {source : Text} {f : SourceFile} {p : ℕ} {r : Range}

/-- The doc comment that is read for a declaration, by its tokens. -/
theorem isDocComment_of_docCommentOf? (h : parse path source = .ok f)
    (hr : f.docCommentOf? p = some r) :
    IsDocComment f.tokens.toList r ∧ DocContents f.tokens.toList r := by
  obtain ⟨t, ht, hcomment, -⟩ := closer_of_docCommentOf? h hr
  obtain ⟨pieces, hpieces, -, hcomments, -⟩ := exists_docComment_of_parse h ht
  obtain ⟨d, hd, rfl⟩ := hcomments r hcomment
  obtain ⟨tokens, htokens, rfl⟩ := exists_tokens_of_parse h
  exact ⟨(isDocComment_iff htokens hpieces).2 ⟨d, hd, rfl⟩, docContents_of_mem htokens hpieces hd⟩

/-- An annotation of a doc comment is one of its entries. -/
theorem exists_mem_docEntriesOf {tag : MappingTag} (htag : tag ∈ f.docTags r) :
    (∃ arguments, .tag tag.position arguments tag.stop ∈ f.docEntriesOf r) ∧
      tag.start = tag.position ∧ tag.dialect = .doc := by
  obtain ⟨e, he, htag⟩ := List.mem_filterMap.1 htag
  obtain ⟨⟨arguments, rfl⟩, hstart, hdialect⟩ := docTag?_eq_some htag
  exact ⟨⟨arguments, he⟩, hstart, hdialect⟩

theorem standsIn_of_mem_docTags (h : parse path source = .ok f) (hr : f.docCommentOf? p = some r)
    {tag : MappingTag} (htag : tag ∈ f.docTags r) : tag.StandsIn f r := by
  obtain ⟨⟨t, ht, -⟩, -⟩ := (isDocComment_of_docCommentOf? h hr).1
  have hcontents := (isDocComment_of_docCommentOf? h hr).2
  obtain ⟨⟨arguments, hentry⟩, hstart, -⟩ := exists_mem_docEntriesOf htag
  have hmem : tag.position ∈ t.docTags := by
    have hmem := (index_of_mem hentry).2
    rw [← Array.getElem?_toList, ht] at hmem
    exact hmem
  obtain ⟨hopener, hcloser, u, hu, hkind⟩ := (hcontents.tags t ht tag.position).1 hmem
  have hstop : (f.docArguments r.closer tag.position).2 = tag.stop := by
    rw [docArguments_of_mem hentry]
  refine ⟨hstart, ?_, ?_, ?_, ?_⟩
  · rw [kindAt, ← Array.getElem?_toList, hu, Option.map_some, hkind]
  · rwa [hstart]
  · rw [hstart, ← hstop]
    exact f.lt_docArguments r.closer tag.position
  · rw [← hstop]
    exact f.docArguments_le hcloser

/-- The annotations of a doc comment stand one behind the other: each tag is behind the arguments of
the annotations before it. -/
theorem pairwise_docTags (h : parse path source = .ok f) (hr : f.docCommentOf? p = some r) :
    (f.docTags r).Pairwise MappingTag.Precedes := by
  have hsorted : ((f.tokens[r.opener]?.map Token.docTags).getD []).Pairwise (· < ·) := by
    obtain ⟨⟨t, ht, -⟩, -⟩ := (isDocComment_of_docCommentOf? h hr).1
    rw [← Array.getElem?_toList, ht]
    exact (isDocComment_of_docCommentOf? h hr).2.sorted t ht
  refine List.pairwise_filterMap.2 ((pairwise_docEntries hsorted).imp ?_)
  intro e e' hprecedes s hs t ht
  obtain ⟨⟨_, rfl⟩, hstart, -⟩ := docTag?_eq_some hs
  obtain ⟨⟨_, rfl⟩, hstart', -⟩ := docTag?_eq_some ht
  rw [MappingTag.Precedes, hstart, hstart']
  exact hprecedes

/-! ### The annotations of a property -/

theorem propertyTags_tags (f : SourceFile) (p : ℕ) (ruleCode : Text) :
    (f.propertyTags p ruleCode).tags =
      (f.docCommentOf? p).toList.flatMap f.docTags ++ f.nativeTags p := by
  unfold propertyTags
  cases f.docCommentOf? p <;> simp

/-- The annotations of a property that are written in its doc comment, and those in its attribute
groups. -/
theorem ofDialect_propertyTags (f : SourceFile) (p : ℕ) (ruleCode : Text) :
    (f.propertyTags p ruleCode).ofDialect .doc = (f.docCommentOf? p).toList.flatMap f.docTags ∧
      (f.propertyTags p ruleCode).ofDialect .native = f.nativeTags p := by
  have hdoc : ∀ tag ∈ (f.docCommentOf? p).toList.flatMap f.docTags, tag.dialect = .doc := by
    intro tag htag
    obtain ⟨r, -, htag⟩ := List.mem_flatMap.1 htag
    exact (exists_mem_docEntriesOf htag).2.2
  have hnative : ∀ tag ∈ f.nativeTags p, tag.dialect = .native := by
    intro tag htag
    obtain ⟨r, -, htag⟩ := List.mem_flatMap.1 htag
    obtain ⟨name, start, stop, text, rfl⟩ := exists_ofArguments_of_mem_groupTags htag
    rfl
  rw [PropertyTags.ofDialect, PropertyTags.ofDialect, propertyTags_tags]
  generalize (f.docCommentOf? p).toList.flatMap f.docTags = docs at hdoc
  constructor
  · rw [List.filter_append, List.filter_eq_self.2 fun tag htag => decide_eq_true (hdoc tag htag),
      List.filter_eq_nil_iff.2 fun tag htag => by simp [hnative tag htag], List.append_nil]
  · rw [List.filter_append, List.filter_eq_nil_iff.2 fun tag htag => by simp [hdoc tag htag],
      List.filter_eq_self.2 fun tag htag => decide_eq_true (hnative tag htag), List.nil_append]

/-- **No token is in two annotations of a doc comment.** The annotations of a property that are
written in its doc comment come before the others. They stand one behind the other, and all of them
between the ends of the same doc comment: each begins with its own tag, and ends behind it but not
behind the last token of the comment. -/
theorem doc_annotations_stand_apart (h : parse path source = .ok f) (p : ℕ) (ruleCode : Text) :
    (f.propertyTags p ruleCode).tags = (f.propertyTags p ruleCode).ofDialect .doc ++
        (f.propertyTags p ruleCode).ofDialect .native ∧
      ((f.propertyTags p ruleCode).ofDialect .doc).Pairwise MappingTag.Precedes ∧
      ((f.propertyTags p ruleCode).ofDialect .doc ≠ [] → ∃ r, f.docCommentOf? p = some r ∧
        IsDocComment f.tokens.toList r ∧
        ∀ tag ∈ (f.propertyTags p ruleCode).ofDialect .doc, tag.StandsIn f r) := by
  obtain ⟨hdoc, hnative⟩ := f.ofDialect_propertyTags p ruleCode
  rw [hdoc, hnative]
  refine ⟨f.propertyTags_tags p ruleCode, ?_⟩
  cases hr : f.docCommentOf? p with
  | none => exact ⟨List.Pairwise.nil, fun hne => absurd rfl hne⟩
  | some r =>
    rw [Option.toList_some, List.flatMap_singleton]
    exact ⟨pairwise_docTags h hr, fun _ => ⟨r, rfl, (isDocComment_of_docCommentOf? h hr).1,
      fun tag htag => standsIn_of_mem_docTags h hr htag⟩⟩

end OfParse

/-- Arguments that go over three lines and hold another tag. -/
theorem doc_annotations_stand_apart_lines : ∃ f s t, parse "a.php"
      ("<?php class A \x7b /** @ORM\\Id @ORM\\Column(name=\"a\",\n * @ORM\\B\n * ) */ " ++
        "#[ORM\\X] private $x; \x7d").toList = .ok f ∧
    (f.propertyTags 35 []).ofDialect .doc = [s, t] ∧
    ((f.propertyTags 35 []).ofDialect .native).length = 1 ∧
    f.textAt 18 = "@ORM\\B".toList ∧ t.start < 18 ∧ 18 < t.stop ∧ s.Precedes t ∧
    ∃ r, f.docCommentOf? 35 = some r ∧ s.StandsIn f r ∧ t.StandsIn f r := by
  have heval : (parse "a.php"
      ("<?php class A \x7b /** @ORM\\Id @ORM\\Column(name=\"a\",\n * @ORM\\B\n * ) */ " ++
        "#[ORM\\X] private $x; \x7d").toList).toOption.any (fun f =>
          ((f.propertyTags 35 []).ofDialect .doc).map
              (fun tag : MappingTag => (tag.start, tag.stop)) = [(10, 11), (12, 24)] ∧
            ((f.propertyTags 35 []).ofDialect .native).length = 1 ∧
            f.textAt 18 = "@ORM\\B".toList) = true := by
    decide +kernel
  obtain ⟨f, hparse, hspans, hnative, htext⟩ := exists_ok_of_any heval
  obtain ⟨-, happart, hinside⟩ := doc_annotations_stand_apart hparse 35 []
  obtain ⟨s, t, hdocs⟩ := List.length_eq_two.1
    ((List.length_map _).symm.trans (congrArg List.length hspans))
  rw [hdocs] at hspans happart hinside
  obtain ⟨r, hr, -, hstands⟩ := hinside (List.cons_ne_nil s [t])
  obtain ⟨hstart, hstop⟩ : t.start = 12 ∧ t.stop = 24 := by simpa using (List.cons.inj hspans).2
  refine ⟨f, s, t, hparse, hdocs, hnative, htext, by omega, by omega, ?_, r, hr, ?_, ?_⟩
  · exact List.rel_of_pairwise_cons happart (List.mem_singleton_self t)
  · exact hstands s List.mem_cons_self
  · exact hstands t (List.mem_cons_of_mem s (List.mem_singleton_self t))

end SourceFile

end EntityLint
