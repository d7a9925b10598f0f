import EntityLint.Proofs.Mapping.GroupText
import EntityLint.Proofs.Mapping.TagLine

/-!
# One annotation in both dialects

The same annotation is written in a doc comment and as an attribute group, each alone in front of its
property. From the group it is read as it is meant. From the doc comment it is read as it is meant if
and only if no text in it has a closing parenthesis, because its arguments end at the first one, also in
a text.

* `docCommentOf?_of_annotationsOf`, `attributeGroups_of_annotationsOf`: what stands alone in front of a
  property;
* `exists_tag_of_docText`, `tags_of_nativeText`: the two readings.

The main statement is `dialects_agree_iff`.
-/

namespace EntityLint

open Lexeme Text

namespace PlainAnnotation

variable (a : PlainAnnotation)

/-- The name of an annotation in a doc comment is not cut short. -/
theorem endsTag_of_mem_fullName : ∀ c ∈ a.fullName, endsTag c = false := by
  refine List.forall_mem_append.2 ⟨by simp [endsTag, isBlank], fun c hc => ?_⟩
  rw [endsTag, a.not_blank c hc, Bool.false_or, beq_eq_false_iff_ne]
  rintro rfl
  exact not_mem_of_isName a.isName rfl hc

end PlainAnnotation

namespace SourceFile

variable {path : String} {source : Text} {f : SourceFile} {p : ℕ} {r : Range}

/-! ### What stands alone in front of a property -/

/-- What begins as a doc comment is the doc comment that is read. -/
theorem docCommentOf?_of_annotationsOf (h : parse path source = .ok f) (hr : f.annotationsOf p = [r])
    {t : Text} (htext : f.textBetween r.opener (r.closer + 1) = '/' :: t) :
    f.docCommentOf? p = some r ∧ f.attributeGroups p = [] := by
  have hgroups : f.attributeGroups p = [] := by
    refine List.eq_nil_iff_forall_not_mem.2 fun g hg => ?_
    have hmem : g ∈ f.annotationsOf p := List.mem_append_right _ hg
    rw [hr, List.mem_singleton] at hmem
    subst hmem
    obtain ⟨-, hopen, hlt, -⟩ := opens_of_mem_attributeGroups h hg
    rw [textBetween_append (g.opener + 1) (Nat.le_succ _) (by omega), textBetween_singleton,
      hopen] at htext
    cases htext
  rw [annotationsOf, hgroups, List.append_nil] at hr
  exact ⟨Option.toList_eq_singleton_iff.1 hr, hgroups⟩

/-- What begins as an attribute group is the only group that is read. -/
theorem attributeGroups_of_annotationsOf (h : parse path source = .ok f) (hr : f.annotationsOf p = [r])
    {t : Text} (htext : f.textBetween r.opener (r.closer + 1) = '#' :: t) :
    f.docCommentOf? p = none ∧ f.attributeGroups p = [r] := by
  have hcomment : f.docCommentOf? p = none := by
    refine Option.eq_none_iff_forall_ne_some.2 fun d hd => ?_
    have hmem : d ∈ f.annotationsOf p := List.mem_append_left _ (Option.mem_toList.2 hd)
    rw [hr, List.mem_singleton] at hmem
    subst hmem
    obtain ⟨body, -, hbody, -⟩ := exists_body_of_docCommentOf? h hd
    cases htext.symm.trans hbody
  rw [annotationsOf, hcomment] at hr
  exact ⟨hcomment, hr⟩

/-! ### The two readings -/

/-- A plain annotation in a doc comment is read up to its first closing parenthesis. -/
theorem exists_tag_of_docText (h : parse path source = .ok f) (hr : f.annotationsOf p = [r])
    (a : PlainAnnotation) (c : TagComment)
    (htext : f.textBetween r.opener (r.closer + 1) = c.text a.docText) (ruleCode : Text) :
    ∃ i, (f.propertyTags p ruleCode).tags = [.ofArguments a.fullName i i (i + 2) .doc
      ((PlainAttribute.argumentText .doc a.attributes).takeWhile (· != ')'))] := by
  obtain ⟨hcomment, hgroups⟩ := docCommentOf?_of_annotationsOf h hr htext
  obtain ⟨i, htags⟩ := c.docTags_eq h hcomment htext a.endsTag_of_mem_fullName
    (PlainAttribute.isLineEnd_of_mem_argumentText a.attributes) a.isMapping_fullName
  refine ⟨i, ?_⟩
  rw [propertyTags_tags, hcomment, nativeTags, hgroups, Option.toList_some, List.flatMap_singleton,
    htags]
  rfl

/-- A plain annotation in an attribute group is read with all of its arguments. -/
theorem tags_of_nativeText (h : parse path source = .ok f) (hr : f.annotationsOf p = [r])
    (a : PlainAnnotation) (htext : f.textBetween r.opener (r.closer + 1) = a.nativeText)
    (ruleCode : Text) :
    (f.propertyTags p ruleCode).tags = [.ofArguments a.fullName r.opener (r.opener + 1) r.closer .native
      (PlainAttribute.argumentText .native a.attributes)] := by
  obtain ⟨hcomment, hgroups⟩ := attributeGroups_of_annotationsOf h hr htext
  have hmem : r ∈ f.attributeGroups p := by rw [hgroups]; exact List.mem_singleton_self r
  rw [propertyTags_tags, hcomment, nativeTags, hgroups, List.flatMap_singleton,
    groupTags_of_nativeText h hmem htext]
  rfl

/-- **The dialects agree exactly on texts without a closing parenthesis.** Each of them gives a single
annotation of the same kind. That of the attribute group has the attributes that are meant, and no
issue. That of the doc comment has the same attributes and no issue if and only if there is no closing
parenthesis in any text. -/
theorem dialects_agree_iff {path' : String} {source' : Text} {g : SourceFile} {q : ℕ} {s : Range}
    (hf : parse path source = .ok f) (hg : parse path' source' = .ok g)
    (hr : f.annotationsOf p = [r]) (hs : g.annotationsOf q = [s]) (a : PlainAnnotation) (c : TagComment)
    (hdoc : f.textBetween r.opener (r.closer + 1) = c.text a.docText)
    (hnative : g.textBetween s.opener (s.closer + 1) = a.nativeText) (ruleCode : Text) :
    ∃ t u, (f.propertyTags p ruleCode).tags = [t] ∧ (g.propertyTags q ruleCode).tags = [u] ∧
      t.kind = .ofName a.name ∧ u.kind = .ofName a.name ∧
      u.attributes = .ofList a.entries ∧ u.issues = [] ∧
      (t.attributes = u.attributes ∧ t.issues = [] ↔
        ∀ b ∈ a.attributes, ∀ text, b.value.value = .string text → ')' ∉ text) := by
  obtain ⟨i, ht⟩ := exists_tag_of_docText hf hr a c hdoc ruleCode
  have hu := tags_of_nativeText hg hs a hnative ruleCode
  have hkind := congrArg MappingKind.ofName a.bareName_fullName
  have hparsed := PlainAttribute.parseAttributes_argumentText .native a.attributes
  refine ⟨_, _, ht, hu, hkind, hkind,
    congrArg ParsedAttributes.attributes hparsed, congrArg ParsedAttributes.issues hparsed, ?_⟩
  have hentries : (MappingTag.ofArguments a.fullName s.opener (s.opener + 1) s.closer .native
      (PlainAttribute.argumentText .native a.attributes)).attributes = .ofList a.entries :=
    congrArg ParsedAttributes.attributes hparsed
  rw [hentries]
  exact PlainAttribute.doc_arguments_iff a.attributes

/-- The annotation of a column with a name in the database. -/
def columnNamed (text : Text) (h : IsQuotable text) : PlainAnnotation where
  name := "Column".toList
  attributes := [⟨"name".toList, .quoted text h, ⟨rfl, by simp [isWordChar]⟩, by simp [isNameChar]⟩]
  isName := ⟨rfl, by simp [isWordChar]⟩
  not_blank := by simp [isBlank]
  ne_joinTable := by simp

/-- A doc comment may have nothing but a tag in it. -/
theorem exists_tagOnly : ∃ c : TagComment,
    ∀ tag, c.text tag = "/**\n  * ".toList ++ (tag ++ "\n  */".toList) := by
  refine ⟨⟨[], "  ".toList, "\n  ".toList, ?_, ?_, ?_, ?_, ?_⟩, fun tag => ?_⟩
  case refine_1 => simp [isSpaceOrTab]
  case refine_2 => simp [isLineEnd]
  case refine_6 => simp [TagComment.text]
  all_goals decide +kernel

/-- A name with a parenthesis in it is not the same in both dialects. -/
theorem dialects_agree_iff_column : ∃ f g t u,
    parse "a.php"
      "<?php class A \x7b\n /**\n  * @ORM\\Column(name=\"a)b\")\n  */\n private $x; \x7d".toList = .ok f ∧
    parse "a.php" "<?php class A \x7b #[ORM\\Column(name: 'a)b')] private $x; \x7d".toList = .ok g ∧
    f.annotationsOf 23 = [⟨9, 18⟩] ∧ g.annotationsOf 22 = [⟨8, 18⟩] ∧
    (f.propertyTags 23 []).tags = [t] ∧ (g.propertyTags 22 []).tags = [u] ∧
    t.kind = .column ∧ u.kind = .column ∧
    u.attributes = .ofList [("name".toList, .string "a)b".toList)] ∧ u.issues = [] ∧
    ¬(t.attributes = u.attributes ∧ t.issues = []) := by
  have hquotable : IsQuotable "a)b".toList :=
    ⟨fun d => by cases d <;> simp [Dialect.quote], by simp [isLineEnd], by simp⟩
  obtain ⟨f, hf, hr, hdoc⟩ := exists_ok_of_any (x := parse "a.php"
      "<?php class A \x7b\n /**\n  * @ORM\\Column(name=\"a)b\")\n  */\n private $x; \x7d".toList)
    (p := fun f => f.annotationsOf 23 = [⟨9, 18⟩] ∧
      f.textBetween 9 19 = "/**\n  * @ORM\\Column(name=\"a)b\")\n  */".toList) (by decide +kernel)
  obtain ⟨g, hg, hs, hnative⟩ := exists_ok_of_any (x := parse "a.php"
      "<?php class A \x7b #[ORM\\Column(name: 'a)b')] private $x; \x7d".toList)
    (p := fun g => g.annotationsOf 22 = [⟨8, 18⟩] ∧
      g.textBetween 8 19 = "#[ORM\\Column(name: 'a)b')]".toList) (by decide +kernel)
  obtain ⟨c, hc⟩ := exists_tagOnly
  have hcomment : "/**\n  * @ORM\\Column(name=\"a)b\")\n  */".toList =
      c.text (columnNamed "a)b".toList hquotable).docText := by
    rw [hc]
    rfl
  obtain ⟨t, u, ht, hu, hkind, hkind', hattributes, hissues, hiff⟩ := dialects_agree_iff hf hg hr hs
    (columnNamed "a)b".toList hquotable) c (hdoc.trans hcomment) hnative []
  refine ⟨f, g, t, u, hf, hg, hr, hs, ht, hu, hkind, hkind', hattributes, hissues, fun hsame => ?_⟩
  exact hiff.1 hsame _ List.mem_cons_self _ rfl (by simp)

end SourceFile

end EntityLint
