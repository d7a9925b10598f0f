import EntityLint.Proofs.Rule.Faults

/-!
# Reports of declared types

The type that a column holds is compared with the types that its property declares. What else is found for
the column has other codes.

* `Reports`: findings with a code;
* `PropertyCheck.heldType`: the type that a column holds;
* `PropertyCheck.exists_run_columnFindings`: the parts of the findings for a column;
* `PropertyCheck.reports_tagFindings_iff`: reports of declared types come from the comparison;
* `PropertyCheck.reports_variableType_iff`: the type in the doc comment.
-/

namespace EntityLint

open Text

/-! ### Reports -/

/-- Some finding has a code. -/
def Reports (code : String) (xs : List Finding) : Prop := ∃ x ∈ xs, x.code = code

section Reports

variable {code : String} {xs ys : List Finding}

theorem reports_append : Reports code (xs ++ ys) ↔ Reports code xs ∨ Reports code ys := by
  simp only [Reports, List.mem_append, or_and_right, exists_or]

theorem not_reports_nil : ¬Reports code [] := fun ⟨_, hx, _⟩ => List.not_mem_nil hx

end Reports

/-- The codes of what is wrong with declared types. -/
def typeCodes : List String := ["VariableTypeRequired", "VariableTypeMismatch", "PropertyTypeMismatch"]

theorem Contract.code_not_mem_typeCodes (c : Contract) (ending : String) : c.code ending ∉ typeCodes := by
  have hother : ∀ code ∈ typeCodes, c.code ending ≠ code := by
    intro code hcode
    refine kindCode_ne ending fun kind => ?_
    simp only [typeCodes, List.mem_cons, List.not_mem_nil, or_false] at hcode
    rcases hcode with rfl | rfl | rfl <;> cases c.role <;> cases kind <;> decide
  exact fun hmem => hother _ hmem rfl

namespace PropertyCheck

variable {p : PropertyCheck} {tag : MappingTag} {m : AttributeMap} {code : String}

/-- The type that a column with some attributes holds, with the class name that is remembered. -/
def heldType (p : PropertyCheck) (m : AttributeMap) (memo : FileMemo) : Text :=
  (m.get? "type".toList).elim [] fun value =>
    ColumnType.suggest ((p.columnType m value).run memo).1 p.options.dynamicEnums

/-- The findings for a column: those of its name, of declared types and of its size, and those of its
getter and setter. -/
theorem exists_run_columnFindings (p : PropertyCheck) (tag : MappingTag) (m : AttributeMap)
    (memo : FileMemo) : ∃ (columnType : Text) (getter setter : Contract) (memo₁ memo₂ : FileMemo),
    ((p.columnFindings tag m).run memo).1 = p.columnNameFindings tag m ++
      ((if (p.heldType m memo).isEmpty then [] else p.declaredTypeFindings tag (p.heldType m memo)) ++
        if (m.get? "type".toList).isSome then columnSizeFindings tag m columnType else []) ++
      ((p.accessorFindings tag getter).run memo₁).1 ++ ((p.accessorFindings tag setter).run memo₂).1 := by
  unfold columnFindings heldType
  cases m.get? "type".toList with
  | none => exact ⟨[], _, _, _, _, rfl⟩
  | some value => exact ⟨_, _, _, _, _, rfl⟩

/-! ### Findings with other codes -/

theorem not_reports_nameFindings (hcode : code ∈ typeCodes) : ¬Reports code (p.nameFindings tag) := by
  rintro ⟨x, hx, rfl⟩
  have hother : ∀ code ∈ namingCodes, code ∉ typeCodes := by decide
  exact hother _ (code_mem_namingCodes hx) hcode

theorem not_reports_columnSizeFindings (hcode : code ∈ typeCodes) (columnType : Text) :
    ¬Reports code (columnSizeFindings tag m columnType) := by
  rintro ⟨x, hx, rfl⟩
  have hother : "ColumnAttributeRequired" ∉ typeCodes := by decide
  simp only [columnSizeFindings, List.mem_append, List.mem_ite_nil_right, List.mem_singleton] at hx
  rcases hx with ⟨-, rfl⟩ | ⟨-, rfl⟩ <;> exact hother hcode

theorem not_reports_accessorFindings (hcode : code ∈ typeCodes) (c : Contract) (memo : FileMemo) :
    ¬Reports code ((p.accessorFindings tag c).run memo).1 := by
  rintro ⟨x, hx, rfl⟩
  obtain ⟨_, ending, _, rfl, -⟩ := Contract.answers_faultsAt memo x hx
  exact c.code_not_mem_typeCodes ending hcode

theorem not_reports_schema (hcode : code ∈ typeCodes) (issues : List SchemaIssue) :
    ¬Reports code (issues.map fun issue => fault tag.position issue.code issue.message) := by
  rintro ⟨x, hx, rfl⟩
  obtain ⟨issue, -, rfl⟩ := List.mem_map.1 hx
  have hother : issue.code ∉ typeCodes := by cases issue <;> simp [SchemaIssue.code, typeCodes]
  exact hother hcode

/-! ### Findings of a comparison -/

/-- Declared types are reported as they compare with the type that the column holds, if it holds one. -/
theorem reports_tagFindings_iff (hkind : tag.kind = .column) (hcode : code ∈ typeCodes)
    (memo : FileMemo) : Reports code ((p.tagFindings tag).run memo).1 ↔
      p.heldType (p.completed tag) memo ≠ [] ∧
        Reports code (p.declaredTypeFindings tag (p.heldType (p.completed tag) memo)) := by
  have hrun : ((p.tagFindings tag).run memo).1 =
      ((tag.kind.validate (p.completed tag) p.tags.kinds).map fun issue =>
        fault tag.position issue.code issue.message) ++
      ((p.columnFindings tag (p.completed tag)).run memo).1 := by
    have hcolumn : p.kindFindings tag (p.completed tag) = p.columnFindings tag (p.completed tag) :=
      if_pos hkind
    rw [← hcolumn]
    rfl
  have hname : ¬Reports code (p.columnNameFindings tag (p.completed tag)) := by
    have hnames : ¬Reports code (p.nameFindings tag) := not_reports_nameFindings hcode
    rwa [nameFindings, if_pos hkind] at hnames
  obtain ⟨columnType, getter, setter, memo₁, memo₂, hcolumns⟩ :=
    exists_run_columnFindings p tag (p.completed tag) memo
  have hsize : ¬Reports code (if ((p.completed tag).get? "type".toList).isSome = true then
      columnSizeFindings tag (p.completed tag) columnType else []) := by
    split
    · exact not_reports_columnSizeFindings hcode columnType
    · exact not_reports_nil
  rw [hrun, hcolumns]
  simp only [reports_append, hname, hsize, not_reports_schema hcode, not_reports_accessorFindings hcode,
    false_or, or_false]
  split
  · next hempty =>
    exact iff_of_false not_reports_nil fun h => h.1 (List.isEmpty_iff.1 hempty)
  · next hheld =>
    exact (and_iff_right (mt List.isEmpty_iff.2 hheld)).symm

/-- The type in the doc comment is reported if the column holds another one. -/
theorem reports_variableType_iff {held : Text} :
    Reports "VariableTypeMismatch" (p.declaredTypeFindings tag held) ↔
      ∃ type ∈ p.tags.varType, TypeName.isSame held type = false := by
  have hrequired : "VariableTypeRequired" ≠ "VariableTypeMismatch" := by decide
  have hproperty : "PropertyTypeMismatch" ≠ "VariableTypeMismatch" := by decide
  constructor
  · rintro ⟨x, hx, hcode⟩
    simp only [declaredTypeFindings, List.mem_append, List.mem_ite_nil_right, List.mem_singleton,
      Option.mem_toList, Option.map_eq_some_iff] at hx
    rcases hx with (⟨-, rfl⟩ | ⟨type, htype, rfl⟩) | ⟨_, -, rfl⟩
    · exact absurd hcode hrequired
    · obtain ⟨htype, hwrong⟩ := Option.filter_eq_some_iff.1 htype
      rw [Bool.not_eq_true'] at hwrong
      exact ⟨type, htype, hwrong⟩
    · exact absurd hcode hproperty
  · rintro ⟨type, htype, hwrong⟩
    have hfilter : p.tags.varType.filter (fun t => !TypeName.isSame held t) = some type :=
      Option.filter_eq_some_iff.2 ⟨htype, by simp [hwrong]⟩
    unfold declaredTypeFindings
    exact ⟨_, List.mem_append_left _ (List.mem_append_right _ (Option.mem_toList.2
      (Option.map_eq_some_iff.2 ⟨type, hfilter, rfl⟩))), rfl⟩

end PropertyCheck

end EntityLint
