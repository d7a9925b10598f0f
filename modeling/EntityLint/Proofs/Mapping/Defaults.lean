import EntityLint.Proofs.Rule.Findings

/-!
# Defaults that are spelled out

The attributes that follow from the type of a property are only used where nothing is written. So
nothing is found in a property that spells them out which is not found in one that relies on them, and
the other way round.

* `AttributeMap.infer_infer`: what follows from a type follows from it once;
* `MappingTag.spelledOut`, `PropertyCheck.spelledOut`: annotations with their defaults written down;
* `PropertyCheck.kinds_spelledOut`, `isNullableRelation_spelledOut`: what an annotation is told of the
  others;
* `PropertyCheck.findings_spelledOut`: the two properties are checked alike.

The main statement is `PropertyCheck.defaults_may_be_spelled_out`.
-/

namespace EntityLint

/-! ### Completing twice -/

namespace AttributeMap

variable {m : AttributeMap} {name : Text} {value : AttributeValue}

theorem contains_insert_self (m : AttributeMap) (name : Text) (value : AttributeValue) :
    (m.insert name value).contains name = true := by
  rw [contains, get?_insert, if_pos rfl]
  rfl

theorem contains_insert_of_contains (h : m.contains name = true) (key : Text) :
    (m.insert key value).contains name = true := by
  rw [contains, get?_insert]
  split
  · rfl
  · exact h

/-- Where the type of a property says nothing of a column, the column keeps its attributes. Otherwise
it has a type. -/
theorem inferColumn_cases (m : AttributeMap) (type : Text) :
    m.inferColumn type = m ∨ (m.inferColumn type).contains "type".toList = true := by
  unfold inferColumn
  split
  · exact .inr (contains_insert_self ..)
  · split
    · exact .inr (contains_insert_of_contains (contains_insert_self ..) _)
    · exact .inl rfl

/-- Attributes among which nothing is missing stay as they are. -/
theorem infer_eq_self {kind : MappingKind} (type : Text)
    (hcolumn : kind = .column → m.contains "type".toList = true)
    (htarget : kind.isToOne = true → m.contains "targetEntity".toList = true) :
    m.infer kind type = m := by
  unfold infer
  dsimp only
  split_ifs with _ h h
  · rfl
  · obtain ⟨hkind, hmissing⟩ := Bool.and_eq_true_iff.1 h
    rw [hcolumn (of_decide_eq_true hkind)] at hmissing
    cases hmissing
  · obtain ⟨hkind, hmissing⟩ := Bool.and_eq_true_iff.1 h
    rw [htarget hkind] at hmissing
    cases hmissing
  · rfl

/-- Completion leaves the attributes alone, or the attribute that it is about is there after it. -/
theorem infer_cases (m : AttributeMap) (kind : MappingKind) (type : Text) :
    m.infer kind type = m ∨
    (kind = .column ∧ (m.infer kind type).contains "type".toList = true) ∨
    kind.isToOne = true ∧ (m.infer kind type).contains "targetEntity".toList = true := by
  unfold infer
  dsimp only
  split_ifs with _ h h
  · exact .inl rfl
  · have hkind := of_decide_eq_true (Bool.and_eq_true_iff.1 h).1
    exact (m.inferColumn_cases _).imp_right fun htype => .inl ⟨hkind, htype⟩
  · exact .inr (.inr ⟨(Bool.and_eq_true_iff.1 h).1, contains_insert_self ..⟩)
  · exact .inl rfl

/-- Attributes that are completed already stay as they are. -/
theorem infer_infer (m : AttributeMap) (kind : MappingKind) (type : Text) :
    (m.infer kind type).infer kind type = m.infer kind type := by
  rcases m.infer_cases kind type with h | ⟨rfl, htype⟩ | ⟨hkind, htarget⟩
  · rw [h, h]
  · exact infer_eq_self type (fun _ => htype) fun h => by cases h
  · exact infer_eq_self type (fun h => by rw [h] at hkind; cases hkind) fun _ => htarget

end AttributeMap

/-! ### Annotations with their defaults -/

/-- The annotation with the attributes written down that follow from the type of its property. -/
def MappingTag.spelledOut (tag : MappingTag) (type : Text) : MappingTag :=
  { tag with attributes := tag.attributes.infer tag.kind type }

namespace PropertyCheck

/-- The property with all annotations spelled out for a type. -/
def spelledOut (p : PropertyCheck) (type : Text) : PropertyCheck :=
  { p with tags := { p.tags with tags := p.tags.tags.map fun tag => tag.spelledOut type } }

variable {p : PropertyCheck} {type : Text}

@[simp] theorem kinds_spelledOut (p : PropertyCheck) (type : Text) :
    (p.spelledOut type).tags.kinds = p.tags.kinds := by
  simp only [spelledOut, PropertyTags.kinds, List.map_map]
  rfl

/-- A relation asks its join column for nothing that follows from a type. -/
@[simp] theorem isNullableRelation_spelledOut (p : PropertyCheck) (type : Text) :
    (p.spelledOut type).isNullableRelation = p.isNullableRelation := by
  have hfirst : (p.spelledOut type).tags.first? .joinColumn
      = (p.tags.first? .joinColumn).map fun tag => tag.spelledOut type := by
    simp only [spelledOut, PropertyTags.first?, List.find?_map]
    rfl
  have hget (tag : MappingTag) : (tag.spelledOut type).attributes.get? "nullable".toList
      = tag.attributes.get? "nullable".toList := AttributeMap.get?_infer (by decide)
  unfold isNullableRelation
  rw [hfirst, Option.bind_map]
  simp only [Function.comp_def, hget]

/-- Completion finds nothing left to do in an annotation that is spelled out. -/
theorem completed_spelledOut (htype : p.type? = some type) (tag : MappingTag) :
    (p.spelledOut type).completed (tag.spelledOut type) = p.completed tag := by
  have htype' : (p.spelledOut type).type? = some type := htype
  unfold completed
  rw [htype, htype']
  exact AttributeMap.infer_infer ..

/-! ### One annotation

The checks of an annotation are given its completed attributes. Of the annotation itself they read
where it stands and of the property only what is the same in both. -/

theorem columnFindings_spelledOut (p : PropertyCheck) (type : Text) (tag : MappingTag)
    (m : AttributeMap) :
    (p.spelledOut type).columnFindings (tag.spelledOut type) m = p.columnFindings tag m := by
  have hgenerated : (p.spelledOut type).tags.has .generatedValue = p.tags.has .generatedValue := by
    rw [PropertyTags.has, kinds_spelledOut, PropertyTags.has]
  unfold columnFindings
  rw [hgenerated]
  rfl

theorem toOneFindings_spelledOut (p : PropertyCheck) (type : Text) (tag : MappingTag)
    (m : AttributeMap) :
    (p.spelledOut type).toOneFindings (tag.spelledOut type) m = p.toOneFindings tag m := by
  unfold toOneFindings
  rw [isNullableRelation_spelledOut]
  rfl

theorem kindFindings_spelledOut (p : PropertyCheck) (type : Text) (tag : MappingTag)
    (m : AttributeMap) :
    (p.spelledOut type).kindFindings (tag.spelledOut type) m = p.kindFindings tag m := by
  unfold kindFindings
  rw [columnFindings_spelledOut, toOneFindings_spelledOut]
  rfl

theorem tagFindings_spelledOut (htype : p.type? = some type) (tag : MappingTag) :
    (p.spelledOut type).tagFindings (tag.spelledOut type) = p.tagFindings tag := by
  unfold tagFindings
  simp only [completed_spelledOut htype, kinds_spelledOut, kindFindings_spelledOut]
  rfl

/-! ### The property -/

theorem allFindings_spelledOut (htype : p.type? = some type) :
    (p.spelledOut type).allFindings = p.allFindings := by
  have hspelling : (p.spelledOut type).tags.tags.flatMap spellingFindings
      = p.tags.tags.flatMap spellingFindings := by
    simp only [spelledOut, List.flatMap_map]
    rfl
  have htags : (p.spelledOut type).tags.tags.mapM (p.spelledOut type).tagFindings
      = p.tags.tags.mapM p.tagFindings := by
    show (p.tags.tags.map fun tag => tag.spelledOut type).mapM _ = _
    rw [List.mapM_map]
    exact congrArg (p.tags.tags.mapM ·) (funext fun tag => tagFindings_spelledOut htype tag)
  unfold allFindings
  rw [hspelling, htags]

/-- A property that relies on defaults has the faults of one that spells them out, in the same order
and with the same repairs. -/
theorem findings_spelledOut (htype : p.type? = some type) :
    (p.spelledOut type).findings = p.findings := by
  unfold findings
  rw [allFindings_spelledOut htype]
  rfl

/-- **A property that spells out what follows from its type is checked like one that does not**:
whatever is remembered of the file and whatever has been reported before, the same violations are
reported, the same edits are staged, and the same is remembered for the properties to come. -/
theorem defaults_may_be_spelled_out (htype : p.type? = some type) (memo : FileMemo)
    (reporter : Reporter) :
    let spelled := (p.spelledOut type).findings.run memo
    let plain := p.findings.run memo
    (reporter.reportAll spelled.1).violations = (reporter.reportAll plain.1).violations ∧
      (reporter.reportAll spelled.1).draft = (reporter.reportAll plain.1).draft ∧
      spelled.2 = plain.2 := by
  dsimp only
  rw [findings_spelledOut htype]
  exact ⟨rfl, rfl, rfl⟩

/-- A relation whose entity follows from the type of the property, next to a join column with a fault
that can be mended. -/
theorem defaults_may_be_spelled_out_relation : ∃ p : PropertyCheck,
    p.type? = some "?B".toList ∧
    p.tags.tags.map (fun tag => (tag.kind, tag.attributes.names)) =
      [(.joinColumn, ["name".toList]), (.manyToOne, [])] ∧
    (p.spelledOut "?B".toList).tags.tags.map (fun tag => (tag.kind, tag.attributes.names)) =
      [(.joinColumn, ["name".toList]), (.manyToOne, ["targetEntity".toList])] ∧
    (p.findings.run .empty).1.map (fun x => (x.code, x.repair.isSome)) =
      [("JoinColumnNameFormat", true), ("ManyToOneGetterRequired", false),
        ("ManyToOneSetterRequired", false)] ∧
    ∀ (memo : FileMemo) (reporter : Reporter),
      let spelled := (p.spelledOut "?B".toList).findings.run memo
      let plain := p.findings.run memo
      (reporter.reportAll spelled.1).violations = (reporter.reportAll plain.1).violations ∧
        (reporter.reportAll spelled.1).draft = (reporter.reportAll plain.1).draft ∧
        spelled.2 = plain.2 := by
  have heval : (SourceFile.parse "a.php" ("<?php class A\x7b/** @ORM\\JoinColumn(name=\"a\") */".toList
      ++ "#[ORM\\ManyToOne]private ?B $b;\x7d".toList)).toOption.any (fun f =>
    let p : PropertyCheck := ⟨⟨[], false⟩, f, 22, f.propertyTags 22 EntityMapping.code.toList⟩
    p.type? = some "?B".toList ∧
    p.tags.tags.map (fun tag => (tag.kind, tag.attributes.names)) =
      [(.joinColumn, ["name".toList]), (.manyToOne, [])] ∧
    (p.spelledOut "?B".toList).tags.tags.map (fun tag => (tag.kind, tag.attributes.names)) =
      [(.joinColumn, ["name".toList]), (.manyToOne, ["targetEntity".toList])] ∧
    (p.findings.run .empty).1.map (fun x => (x.code, x.repair.isSome)) =
      [("JoinColumnNameFormat", true), ("ManyToOneGetterRequired", false),
        ("ManyToOneSetterRequired", false)]) = true := by
    decide +kernel
  obtain ⟨f, -, hfile⟩ := (Option.any_eq_true _ _).1 heval
  obtain ⟨htype, htags, hspelled, hfindings⟩ := of_decide_eq_true hfile
  exact ⟨_, htype, htags, hspelled, hfindings, fun memo reporter =>
    defaults_may_be_spelled_out htype memo reporter⟩

end PropertyCheck

end EntityLint
