import EntityLint.Proofs.Mapping.DeclaredTypes
import EntityLint.Proofs.Mapping.InferredColumn
import EntityLint.Proofs.Mapping.TypeUnion
import EntityLint.Proofs.Source.Reading

/-!
# Question marks in front of declared types

A question mark in front of a type says that `null` is a value, too. It is taken off the type of a
property, of a parameter and of what a method returns, in the code and in doc comments, before the type is
compared. It stays with the type of a variable in a doc comment, which is then that of no column, unless an
array is held or a member of the held type begins with the mark.

* `TypeName.isSame_mark_iff`: what a type with its mark satisfies;
* `Contract.marks_are_ignored`: types of accessors that fit without their marks;
* `PropertyCheck.reports_markedVariable_iff`, `reports_markedProperty_iff`: types of properties.

The main statement is `PropertyCheck.marks_count_in_variable_types`.
-/

namespace EntityLint

open Text

/-! ### Types with a mark -/

namespace TypeName

variable {type n : Text}

theorem longName_eq_mark_iff : longName n = '?' :: type ↔ n = '?' :: type := by
  unfold longName
  split_ifs with hbool hint
  · subst hbool
    exact iff_of_false (by simp) (by simp)
  · subst hint
    exact iff_of_false (by simp) (by simp)
  · exact Iff.rfl

/-- A type with its mark satisfies an array if it is one, and unions that have it as a member. -/
theorem isSame_mark_iff (hbar : '|' ∉ type) (expected : Text) :
    isSame expected ('?' :: type) = true ↔
      (withoutLead expected = "array".toList ∧ ['[', ']'] <:+ type) ∨
        '?' :: type ∈ pieces '|' (withoutLead expected) := by
  have hlead : withoutLead ('?' :: type) = '?' :: type := List.dropWhile_cons_of_neg (by decide)
  have hpieces : pieces '|' ('?' :: type) = ['?' :: type] :=
    pieces_of_not_mem fun hmem => by
      rcases List.mem_cons.1 hmem with h | h
      · exact absurd h (by decide)
      · exact hbar h
  have harray := pieces_eq_singleton_iff (t := withoutLead expected) (u := "array".toList) (by decide)
  have hsuffix : ['[', ']'] <:+ '?' :: type ↔ ['[', ']'] <:+ type := by
    rw [List.suffix_cons_iff]
    exact or_iff_right (by simp)
  rw [isSame_iff, Satisfies, hlead, hpieces, harray]
  simp only [List.mem_singleton, exists_eq_left, hsuffix, List.mem_map]
  refine or_congr_right ⟨?_, fun hmem => ⟨_, subset_widened _ hmem, rfl⟩⟩
  rintro ⟨n, hn, heq⟩
  rw [longName_eq_mark_iff.2 rfl, longName_eq_mark_iff] at heq
  subst heq
  unfold widened at hn
  split at hn
  · -- no date begins with a mark
    exact absurd hn (by simp)
  · exact hn

theorem dropWhile_of_not_mem (hmark : '?' ∉ type) : type.dropWhile (· == '?') = type := by
  cases type with
  | nil => rfl
  | cons c type =>
    refine List.dropWhile_cons_of_neg fun hc => hmark ?_
    rw [← beq_iff_eq.1 hc]
    exact List.mem_cons_self

theorem withoutMark_mark (hmark : '?' ∉ type) : withoutMark ('?' :: type) = type :=
  dropWhile_of_not_mem hmark

theorem bare_mark (hmark : '?' ∉ type) : bare ('?' :: type) = type := by
  have hfront : ('?' :: type).dropWhile (· == '?') = type := dropWhile_of_not_mem hmark
  have hend : type.reverse.dropWhile (· == '?') = type.reverse :=
    dropWhile_of_not_mem fun hmem => hmark (List.mem_reverse.1 hmem)
  rw [bare, hfront, dropEndWhile, hend, List.reverse_reverse]

end TypeName

/-! ### Types of accessors -/

namespace Contract

variable {f : SourceFile} {c : Contract} {bases : BaseTypes} {memo : FileMemo} {method tagToken : ℕ}
  {name : Text} {ending : String}

/-- What is reported of a return: it is missing, or its type is not the expected one. -/
theorem reports_returnFindings {expected : Text}
    (h : Reports (c.code ending) (c.returnFindings f method name expected)) :
    ending ∉ argumentEndings ∧
    (ending = "ReturnType" →
      TypeName.isSame expected (withoutMark (f.signature method).returnType) = false) ∧
    (ending = "ReturnDocType" → ∃ comment ∈ f.docCommentText? method, ∀ t ∈ docReturnType? comment,
      TypeName.isSame expected (withoutMark t) = false) := by
  obtain ⟨x, hx, hcode⟩ := h
  simp only [returnFindings, List.mem_append, List.mem_ite_nil_right, List.mem_singleton] at hx
  rcases hx with (⟨-, rfl⟩ | ⟨hundocumented, rfl⟩) | ⟨hmistyped, rfl⟩ <;> cases code_inj.1 hcode
  · exact ⟨by decide, by simp, by simp⟩
  · refine ⟨by decide, by simp, fun _ => ?_⟩
    simpa [Option.any_eq_true, Option.any_eq_false] using hundocumented
  · refine ⟨by decide, fun _ => ?_, by simp⟩
    simpa using (Bool.and_eq_true_iff.1 hmistyped).2

/-- What is reported of the type of a first argument. -/
theorem reports_argumentFindings {argument : ArgumentSpec} {q : Parameter} {rest : List Parameter}
    (hparameters : f.parameters method = q :: rest) {expected : Text}
    (htype : argument.type = some expected)
    (h : Reports (c.code ending) (c.argumentFindings bases f method name argument)) :
    (ending = "ArgumentType" → TypeName.isSame expected (withoutMark q.typeText) = false) ∧
    (ending = "ArgumentDocType" → ∃ comment ∈ f.docCommentText? method, ∀ t ∈ docParamType? comment,
      TypeName.isSame expected (withoutMark t) = false) := by
  obtain ⟨x, hx, hcode⟩ := h
  unfold argumentFindings at hx
  rw [hparameters] at hx
  simp only [parameterFindings, htype, List.mem_append, List.mem_ite_nil_right, List.mem_singleton,
    Option.mem_toList, Option.map_eq_some_iff, Option.filter_eq_some_iff] at hx
  rcases hx with (((⟨-, rfl⟩ | ⟨_, ⟨heq, hmistyped⟩, rfl⟩) | ⟨-, rfl⟩) | ⟨-, rfl⟩) |
    ⟨_, ⟨heq, hundocumented⟩, rfl⟩ <;> cases code_inj.1 hcode
  · exact ⟨by simp, by simp⟩
  · cases heq
    refine ⟨fun _ => ?_, by simp⟩
    simp only [Bool.and_eq_true, Bool.not_eq_true'] at hmistyped
    exact hmistyped.1.2
  · exact ⟨by simp, by simp⟩
  · exact ⟨by simp, by simp⟩
  · cases heq
    refine ⟨by simp, fun _ => ?_⟩
    obtain ⟨comment, hcomment, hnone⟩ := (Option.any_eq_true _ _).1 hundocumented
    refine ⟨comment, hcomment, fun t ht => ?_⟩
    rw [Bool.not_eq_true', Option.any_eq_false] at hnone
    exact (Bool.or_eq_false_iff.1 (hnone t ht)).1

/-- A report about what a method returns comes from the check of it. -/
theorem reports_return_of_reports (hfind : c.find? f = some (method, name)) {spec : ReturnSpec}
    (hreturns : c.returns = some spec) (hending : ending ∉ argumentEndings)
    (h : Reports (c.code ending) ((c.findings bases f tagToken).run memo).1) :
    Reports (c.code ending)
      (c.returnFindings f method name ((expectedReturn f method spec).run memo).1) := by
  rw [run_findings hfind, hreturns, reports_append] at h
  refine h.resolve_right ?_
  rintro ⟨x, hx, hcode⟩
  cases hargument : c.argument with
  | none =>
    rw [hargument] at hx
    cases hx
  | some argument =>
    rw [hargument] at hx
    obtain ⟨ending', hmem, message, rfl⟩ := exists_of_mem_argumentFindings hx
    exact hending (code_inj.1 hcode ▸ hmem)

/-- A report about the first argument of a method comes from the check of it. -/
theorem reports_argument_of_reports (hfind : c.find? f = some (method, name))
    {argument : ArgumentSpec} (hargument : c.argument = some argument)
    (hending : ending ∈ argumentEndings)
    (h : Reports (c.code ending) ((c.findings bases f tagToken).run memo).1) :
    Reports (c.code ending) (c.argumentFindings bases f method name argument) := by
  rw [run_findings hfind, hargument, reports_append] at h
  refine h.resolve_left fun hreturn => ?_
  cases hreturns : c.returns with
  | none =>
    rw [hreturns] at hreturn
    exact not_reports_nil hreturn
  | some spec =>
    rw [hreturns] at hreturn
    exact (reports_returnFindings hreturn).1 hending

/-- Types of an accessor that satisfy the expected one do so with a mark in front of them. -/
theorem marks_are_ignored (hfind : c.find? f = some (method, name)) {type expected : Text}
    (hmark : '?' ∉ type) (hsame : TypeName.isSame expected type = true) :
    (c.returns = some (.type expected) →
      ((f.signature method).returnType = '?' :: type →
        ¬Reports (c.code "ReturnType") ((c.findings bases f tagToken).run memo).1) ∧
      (∀ comment ∈ f.docCommentText? method, docReturnType? comment = some ('?' :: type) →
        ¬Reports (c.code "ReturnDocType") ((c.findings bases f tagToken).run memo).1)) ∧
    ∀ argument q rest, c.argument = some argument → argument.type = some expected →
      f.parameters method = q :: rest →
      (q.typeText = '?' :: type →
        ¬Reports (c.code "ArgumentType") ((c.findings bases f tagToken).run memo).1) ∧
      (∀ comment ∈ f.docCommentText? method, docParamType? comment = some ('?' :: type) →
        ¬Reports (c.code "ArgumentDocType") ((c.findings bases f tagToken).run memo).1) := by
  have hfits : TypeName.isSame expected (withoutMark ('?' :: type)) ≠ false := by
    rw [TypeName.withoutMark_mark hmark, hsame]
    nofun
  constructor
  · intro hreturns
    constructor
    · intro hdeclared h
      have hreport := reports_return_of_reports hfind hreturns (by decide) h
      have hwrong := (reports_returnFindings hreport).2.1 rfl
      rw [hdeclared] at hwrong
      exact hfits hwrong
    · intro comment hcomment hdeclared h
      have hreport := reports_return_of_reports hfind hreturns (by decide) h
      obtain ⟨comment', hcomment', hwrong⟩ := (reports_returnFindings hreport).2.2 rfl
      cases hcomment.symm.trans hcomment'
      exact hfits (hwrong _ hdeclared)
  · intro argument q rest hargument htype hparameters
    constructor
    · intro hdeclared h
      have hreport := reports_argument_of_reports hfind hargument (by decide) h
      have hwrong := (reports_argumentFindings hparameters htype hreport).1 rfl
      rw [hdeclared] at hwrong
      exact hfits hwrong
    · intro comment hcomment hdeclared h
      have hreport := reports_argument_of_reports hfind hargument (by decide) h
      obtain ⟨comment', hcomment', hwrong⟩ := (reports_argumentFindings hparameters htype hreport).2 rfl
      cases hcomment.symm.trans hcomment'
      exact hfits (hwrong _ hdeclared)

end Contract

/-! ### Types of properties -/

namespace PropertyCheck

variable {p : PropertyCheck} {tag : MappingTag} {type : Text} {memo : FileMemo}

/-- A type in the doc comment of a property is reported with its mark, unless an array is held or a member
of the held type begins with the mark. -/
theorem reports_markedVariable_iff (hkind : tag.kind = .column)
    (hheld : p.heldType (p.completed tag) memo ≠ []) (hbar : '|' ∉ type)
    (hvar : p.tags.varType = some ('?' :: type)) :
    Reports "VariableTypeMismatch" ((p.tagFindings tag).run memo).1 ↔
      ¬(TypeName.withoutLead (p.heldType (p.completed tag) memo) = "array".toList ∧
        ['[', ']'] <:+ type) ∧
      '?' :: type ∉ pieces '|' (TypeName.withoutLead (p.heldType (p.completed tag) memo)) := by
  rw [reports_tagFindings_iff hkind (by decide), and_iff_right hheld, reports_variableType_iff, hvar,
    ← not_or, ← TypeName.isSame_mark_iff hbar]
  simp

/-- The type of a property is compared without its mark. -/
theorem reports_markedProperty_iff (hkind : tag.kind = .column)
    (hheld : p.heldType (p.completed tag) memo ≠ []) (hmark : '?' ∉ type)
    (hproperty : p.type? = some ('?' :: type)) :
    Reports "PropertyTypeMismatch" ((p.tagFindings tag).run memo).1 ↔
      TypeName.isSame (p.heldType (p.completed tag) memo) type = false := by
  have hreports : Reports "PropertyTypeMismatch"
      (p.declaredTypeFindings tag (p.heldType (p.completed tag) memo)) ↔ _ :=
    reportsType_declaredTypeFindings
  rw [reports_tagFindings_iff hkind (by decide), and_iff_right hheld, hreports, hproperty]
  simp [TypeName.bare_mark hmark]

/-- **A question mark counts in the type of a variable in a doc comment, and nowhere else.** Take a column
that holds a type. If the doc comment of its property gives a type with a mark in front of it, a mismatch is
reported even where the type without its mark would fit. It is not reported only if arrays are held and the
type is one, or if a member of the held type begins with the mark. The type of the property itself, and the
types that accessors declare for what they return and for their argument, in the code and in their doc
comments, are compared without the mark. -/
theorem marks_count_in_variable_types (hkind : tag.kind = .column)
    (hheld : p.heldType (p.completed tag) memo ≠ []) (hbar : '|' ∉ type) :
    let held := p.heldType (p.completed tag) memo
    let f := p.file
    (p.tags.varType = some ('?' :: type) →
      (Reports "VariableTypeMismatch" ((p.tagFindings tag).run memo).1 ↔
        ¬(TypeName.withoutLead held = "array".toList ∧ ['[', ']'] <:+ type) ∧
        '?' :: type ∉ pieces '|' (TypeName.withoutLead held))) ∧
    ('?' ∉ type → p.type? = some ('?' :: type) →
      (Reports "PropertyTypeMismatch" ((p.tagFindings tag).run memo).1 ↔
        TypeName.isSame held type = false)) ∧
    ('?' ∉ type → TypeName.isSame held type = true →
      ∀ (c : Contract) (method : ℕ) (name : Text), c.find? f = some (method, name) →
      ∀ bases tagToken memo', let xs := ((c.findings bases f tagToken).run memo').1
        (c.returns = some (.type held) →
          ((f.signature method).returnType = '?' :: type → ¬Reports (c.code "ReturnType") xs) ∧
          ∀ comment ∈ f.docCommentText? method, docReturnType? comment = some ('?' :: type) →
            ¬Reports (c.code "ReturnDocType") xs) ∧
        ∀ argument q rest, c.argument = some argument → argument.type = some held →
          f.parameters method = q :: rest →
          (q.typeText = '?' :: type → ¬Reports (c.code "ArgumentType") xs) ∧
          ∀ comment ∈ f.docCommentText? method, docParamType? comment = some ('?' :: type) →
            ¬Reports (c.code "ArgumentDocType") xs) := by
  refine ⟨fun hvar => reports_markedVariable_iff hkind hheld hbar hvar,
    fun hmark hproperty => reports_markedProperty_iff hkind hheld hmark hproperty, ?_⟩
  intro hmark hsame c method name hfind bases tagToken memo'
  exact Contract.marks_are_ignored hfind hmark hsame

/-- Two integer columns: `?int` is reported in a doc comment, and not in front of a variable. -/
theorem marks_count_in_variable_types_integer : ∃ p q : PropertyCheck,
    SourceFile.parse "a.php"
      ("<?php class A\x7b/** @var ?int */#[ORM\\Column(type: 'integer')]private $x;".toList
      ++ "#[ORM\\Column(type: 'integer')]private ?int $y;\x7d".toList) = .ok p.file ∧ q.file = p.file ∧
    p.tags.varType = some "?int".toList ∧ q.type? = some "?int".toList ∧
    p.tags.tags.map MappingTag.kind = [.column] ∧ q.tags.tags.map MappingTag.kind = [.column] ∧
    (∀ tag ∈ p.tags.tags, Reports "VariableTypeMismatch" ((p.tagFindings tag).run .empty).1) ∧
    ∀ tag ∈ q.tags.tags, ¬Reports "PropertyTypeMismatch" ((q.tagFindings tag).run .empty).1 := by
  let check := EntityMapping.propertyCheck ⟨[], false⟩
  have heval : (SourceFile.parse "a.php"
      ("<?php class A\x7b/** @var ?int */#[ORM\\Column(type: 'integer')]private $x;".toList
      ++ "#[ORM\\Column(type: 'integer')]private ?int $y;\x7d".toList)).toOption.any (fun f =>
    (check f 26).tags.varType = some "?int".toList ∧ (check f 44).type? = some "?int".toList ∧
    (check f 26).tags.tags.map MappingTag.kind = [.column] ∧
    (check f 44).tags.tags.map MappingTag.kind = [.column] ∧
    (∀ tag ∈ (check f 26).tags.tags, (check f 26).heldType ((check f 26).completed tag) .empty =
      "integer".toList) ∧
    ∀ tag ∈ (check f 44).tags.tags, (check f 44).heldType ((check f 44).completed tag) .empty =
      "integer".toList) = true := by
    decide +kernel
  obtain ⟨f, hparse, hvar, hproperty, hkinds, hkinds', hheld, hheld'⟩ := exists_ok_of_any heval
  have hcolumn : ∀ {tags : List MappingTag}, tags.map MappingTag.kind = [.column] →
      ∀ tag ∈ tags, tag.kind = .column := by
    intro tags htags tag htag
    have hmem := List.mem_map_of_mem (f := MappingTag.kind) htag
    rw [htags] at hmem
    exact List.mem_singleton.1 hmem
  have hbar : '|' ∉ "int".toList := by decide
  have hne : "integer".toList ≠ [] := by decide
  refine ⟨check f 26, check f 44, hparse, rfl, hvar, hproperty, hkinds, hkinds', fun tag htag => ?_,
    fun tag htag => ?_⟩
  · have hnonempty := (hheld tag htag).trans_ne hne
    obtain ⟨hvariable, -⟩ := marks_count_in_variable_types (hcolumn hkinds tag htag) hnonempty hbar
    refine (hvariable hvar).2 ?_
    rw [hheld tag htag]
    decide +kernel
  · have hnonempty := (hheld' tag htag).trans_ne hne
    obtain ⟨-, hdeclared, -⟩ := marks_count_in_variable_types (hcolumn hkinds' tag htag) hnonempty hbar
    rw [hdeclared (by decide) hproperty, hheld' tag htag]
    decide +kernel

end PropertyCheck

end EntityLint
