import EntityLint.Mapping.Schema
import EntityLint.Proofs.Mapping.Insertions
import EntityLint.Proofs.Token.Enclosure

/-!
# Annotations that follow their rule

The issues of an annotation come from four passes: over the requirements of its rule, over the
attributes that have to be there, over those that are there, and over those that the rule knows.

* `Requirement.kinds`, `Requirement.isMetBy_iff`: the annotations that meet a requirement;
* `MappingRule.Admits`, `MappingRule.Accepts`: what a rule asks of attributes and of neighbours;
* `MappingKind.nodup_attributes`: a rule knows an attribute by one specification;
* `attributeIssues_eq_nil_iff`, `validate_eq_nil_iff`: no issues;
* `AttributeMap.get?_eq_of_perm`, `attributeIssues_reordered`: attributes in another order;
* `validate_sublist`: more neighbours.

The main statement is `issues_tell_rules_broken`.
-/

namespace EntityLint

/-! ### Requirements -/

namespace Requirement

/-- The kinds each of which meets a requirement. -/
def kinds : Requirement → List MappingKind
  | one kind => [kind]
  | anyOf kinds => kinds

theorem isMetBy_iff {r : Requirement} {present : List MappingKind} :
    r.isMetBy present = true ↔ ∃ kind ∈ r.kinds, kind ∈ present := by
  cases r with
  | one kind => simp [isMetBy, kinds]
  | anyOf among => simp [isMetBy, kinds]

/-- A requirement that is met stays so beside more annotations. -/
theorem isMetBy_of_subset {r : Requirement} {present present' : List MappingKind}
    (hsub : present ⊆ present') (h : r.isMetBy present = true) : r.isMetBy present' = true := by
  obtain ⟨kind, hkind, hmem⟩ := isMetBy_iff.1 h
  exact isMetBy_iff.2 ⟨kind, hkind, hsub hmem⟩

end Requirement

/-! ### Attributes -/

/-- In a list that names each key once, a look-up finds every entry. -/
theorem lookup_eq_some_iff_of_nodup {β : Type} {entries : List (Text × β)}
    (hnodup : (entries.map Prod.fst).Nodup) {name : Text} {value : β} :
    entries.lookup name = some value ↔ (name, value) ∈ entries := by
  refine lookup_eq_some_iff_mem fun name v w hv hw => ?_
  exact congrArg Prod.snd (List.inj_on_of_nodup_map hnodup hv hw rfl)

namespace AttributeMap

variable {m m' : AttributeMap} {name : Text}

/-- The order of the attributes says nothing about their values. -/
theorem get?_eq_of_perm (hm : m.names.Nodup) (h : m.entries.Perm m'.entries) (name : Text) :
    m.get? name = m'.get? name := by
  have hm' : m'.names.Nodup := (h.map Prod.fst).nodup_iff.1 hm
  ext value
  rw [get?, get?, lookup_eq_some_iff_of_nodup hm, lookup_eq_some_iff_of_nodup hm', h.mem_iff]

theorem contains_eq_of_perm (h : m.entries.Perm m'.entries) (name : Text) :
    m.contains name = m'.contains name := by
  rw [Bool.eq_iff_iff, contains_iff, contains_iff, names, names, (h.map Prod.fst).mem_iff]

end AttributeMap

namespace MappingRule

/-- What a rule asks of the attributes of an annotation. -/
structure Admits (rule : MappingRule) (m : AttributeMap) : Prop where
  required : ∀ name ∈ rule.required, name ∈ m.names
  known : ∀ name ∈ m.names, ∃ spec, rule.spec? name = some spec
  valid : ∀ name spec value, rule.spec? name = some spec → m.get? name = some value →
    spec.check value = .valid

/-- What a rule asks of an annotation with some attributes, beside the annotations that are present.
Attributes count only where the rule checks them. -/
structure Accepts (rule : MappingRule) (m : AttributeMap) (present : List MappingKind) : Prop where
  met : ∀ r ∈ rule.requirements, ∃ kind ∈ r.kinds, kind ∈ present
  admits : rule.attributes.isSome → rule.Admits m

end MappingRule

/-- Two lists of issues that differ at most in the order of the names in one list of unknown
attributes. -/
inductive SchemaIssue.Reordered : List SchemaIssue → List SchemaIssue → Prop
  | refl (issues : List SchemaIssue) : Reordered issues issues
  | unknown (before after : List SchemaIssue) (a : MappingKind) {names names' : List Text}
    (h : names.Perm names') : Reordered (before ++ unknownAttributes a names :: after)
      (before ++ unknownAttributes a names' :: after)

namespace SchemaIssue

theorem Reordered.append_left {issues issues' : List SchemaIssue} (h : Reordered issues issues')
    (lead : List SchemaIssue) : Reordered (lead ++ issues) (lead ++ issues') := by
  cases h with
  | refl => exact .refl _
  | unknown before after a h =>
    rw [← List.append_assoc, ← List.append_assoc]
    exact .unknown (lead ++ before) after a h

end SchemaIssue

namespace MappingKind

variable {a : MappingKind} {rule : MappingRule} {specs : List (Text × ValueSpec)}
  {m m' : AttributeMap} {present present' : List MappingKind}

/-- A rule gives each attribute one specification. -/
theorem nodup_attributes (hrule : a.rule? = some rule) (hspecs : rule.attributes = some specs) :
    (specs.map Prod.fst).Nodup := by
  have htable : ∀ a : MappingKind, ∀ rule ∈ a.rule?, ∀ specs ∈ rule.attributes,
      (specs.map Prod.fst).Nodup := by
    intro a
    cases a <;> decide
  exact htable a rule hrule specs hspecs

/-! ### No issues -/

theorem valueIssue?_eq_none_iff {attr : Text × ValueSpec} :
    a.valueIssue? m attr = none ↔ ∀ value, m.get? attr.1 = some value →
      attr.2.check value = .valid := by
  unfold valueIssue?
  cases hget : m.get? attr.1 with
  | none => simp
  | some value =>
    cases hcheck : attr.2.check value <;> simp [hcheck]

/-- Nothing is said of attributes exactly if the rule admits them. -/
theorem attributeIssues_eq_nil_iff (hspecs : rule.attributes = some specs)
    (hnodup : (specs.map Prod.fst).Nodup) :
    a.attributeIssues rule specs m = [] ↔ rule.Admits m := by
  have hspec : ∀ name spec, rule.spec? name = some spec ↔ (name, spec) ∈ specs := by
    intro name spec
    rw [MappingRule.spec?, hspecs]
    exact lookup_eq_some_iff_of_nodup hnodup
  have hmissing : (rule.required.filter fun name => !m.contains name) = [] ↔
      ∀ name ∈ rule.required, name ∈ m.names := by
    simp [List.filter_eq_nil_iff, AttributeMap.contains_iff]
  have hunknown : (m.names.filter fun name => (rule.spec? name).isNone) = [] ↔
      ∀ name ∈ m.names, ∃ spec, rule.spec? name = some spec := by
    simp [List.filter_eq_nil_iff, ← Option.isSome_iff_exists, Option.isSome_iff_ne_none]
  have hvalues : specs.filterMap (a.valueIssue? m) = [] ↔ ∀ name spec value,
      rule.spec? name = some spec → m.get? name = some value → spec.check value = .valid := by
    simp only [List.filterMap_eq_nil_iff, valueIssue?_eq_none_iff, Prod.forall, hspec]
    exact ⟨fun h name spec value hmem => h name spec hmem value,
      fun h name spec hmem value => h name spec value hmem⟩
  have hlisted : ∀ (names : List Text) (issue : SchemaIssue),
      (if names.isEmpty then [] else [issue]) = [] ↔ names = [] := by
    intro names issue
    cases names <;> simp
  unfold attributeIssues
  dsimp only
  rw [List.append_eq_nil_iff, List.append_eq_nil_iff, hlisted, hlisted, hmissing, hunknown, hvalues]
  exact ⟨fun ⟨⟨hrequired, hknown⟩, hvalid⟩ => ⟨hrequired, hknown, hvalid⟩,
    fun h => ⟨⟨h.required, h.known⟩, h.valid⟩⟩

theorem validate_of_rule (hrule : a.rule? = some rule) (m : AttributeMap)
    (present : List MappingKind) : a.validate m present =
      (rule.requirements.filter fun r => !r.isMetBy present).map (.missingSibling a)
        ++ rule.attributes.elim [] fun specs => a.attributeIssues rule specs m := by
  rw [validate, hrule]
  dsimp only
  cases rule.attributes <;> rfl

theorem validate_of_rule_eq_none (hrule : a.rule? = none) (m : AttributeMap)
    (present : List MappingKind) : a.validate m present = [] := by
  rw [validate, hrule]

/-- An annotation has no issues exactly if its rule accepts it, where there is one. -/
theorem validate_eq_nil_iff : a.validate m present = [] ↔
    ∀ rule, a.rule? = some rule → rule.Accepts m present := by
  cases hrule : a.rule? with
  | none => simp [validate_of_rule_eq_none hrule]
  | some rule =>
    have hmet : (rule.requirements.filter fun r => !r.isMetBy present) = [] ↔
        ∀ r ∈ rule.requirements, ∃ kind ∈ r.kinds, kind ∈ present := by
      simp [List.filter_eq_nil_iff, Requirement.isMetBy_iff]
    have hadmits : (rule.attributes.elim [] fun specs => a.attributeIssues rule specs m) = [] ↔
        (rule.attributes.isSome → rule.Admits m) := by
      cases hspecs : rule.attributes with
      | none => simp
      | some specs =>
        rw [Option.elim_some, attributeIssues_eq_nil_iff hspecs (nodup_attributes hrule hspecs)]
        simp
    rw [validate_of_rule hrule, List.append_eq_nil_iff, List.map_eq_nil_iff, hmet, hadmits]
    constructor
    · rintro ⟨hmet, hadmits⟩ _ ⟨⟩
      exact ⟨hmet, hadmits⟩
    · intro h
      obtain ⟨hmet, hadmits⟩ := h rule rfl
      exact ⟨hmet, hadmits⟩

/-! ### Other orders -/

/-- The order of the attributes shows only in the list of those that are unknown. -/
theorem attributeIssues_reordered (hm : m.names.Nodup) (h : m.entries.Perm m'.entries) :
    SchemaIssue.Reordered (a.attributeIssues rule specs m) (a.attributeIssues rule specs m') := by
  have hvalue : a.valueIssue? m = a.valueIssue? m' := by
    funext attr
    unfold valueIssue?
    rw [AttributeMap.get?_eq_of_perm hm h]
  have hunknown : (m.names.filter fun name => (rule.spec? name).isNone).Perm
      (m'.names.filter fun name => (rule.spec? name).isNone) := (h.map Prod.fst).filter _
  unfold attributeIssues
  dsimp only
  simp only [AttributeMap.contains_eq_of_perm h, hvalue, List.append_assoc]
  refine SchemaIssue.Reordered.append_left ?_ _
  rw [hunknown.isEmpty_eq]
  split
  · exact .refl _
  · exact .unknown [] _ a hunknown

theorem validate_reordered (hm : m.names.Nodup) (h : m.entries.Perm m'.entries) :
    SchemaIssue.Reordered (a.validate m present) (a.validate m' present) := by
  cases hrule : a.rule? with
  | none =>
    rw [validate_of_rule_eq_none hrule, validate_of_rule_eq_none hrule]
    exact .refl _
  | some rule =>
    rw [validate_of_rule hrule, validate_of_rule hrule]
    refine SchemaIssue.Reordered.append_left ?_ _
    cases rule.attributes with
    | none => exact .refl _
    | some specs => exact attributeIssues_reordered hm h

/-- Beside more annotations there are no further issues. -/
theorem validate_sublist (hsub : present ⊆ present') :
    (a.validate m present').Sublist (a.validate m present) := by
  cases hrule : a.rule? with
  | none =>
    rw [validate_of_rule_eq_none hrule, validate_of_rule_eq_none hrule]
  | some rule =>
    rw [validate_of_rule hrule, validate_of_rule hrule]
    refine List.Sublist.append (List.Sublist.map _ ?_) (List.Sublist.refl _)
    refine List.monotone_filter_right _ fun r hr => ?_
    rw [Bool.not_eq_true'] at hr ⊢
    exact Bool.eq_false_iff.2 fun hmet =>
      Bool.eq_false_iff.1 hr (Requirement.isMetBy_of_subset hsub hmet)

theorem validate_eq_of_subset (hsub : present ⊆ present') (hsub' : present' ⊆ present) :
    a.validate m present = a.validate m present' :=
  (validate_sublist hsub').antisymm (validate_sublist hsub)

/-- **Issues tell rules that are broken.** An annotation has no issues exactly if the rule of its kind
accepts it. Its attributes, whose names are distinct, may stand in another order: at most the names in
one list of unknown attributes change their places. The annotations beside it may stand in another
order and be repeated, and with more of them there are no further issues. -/
theorem issues_tell_rules_broken (a : MappingKind) (m : AttributeMap) (present : List MappingKind) :
    (a.validate m present = [] ↔ ∀ rule, a.rule? = some rule → rule.Accepts m present) ∧
    (m.names.Nodup → ∀ m', m.entries.Perm m'.entries →
      SchemaIssue.Reordered (a.validate m present) (a.validate m' present)) ∧
    (∀ present', (∀ kind, kind ∈ present' ↔ kind ∈ present) →
      a.validate m present' = a.validate m present) ∧
    ∀ kind, (a.validate m (kind :: present)).Sublist (a.validate m present) := by
  refine ⟨validate_eq_nil_iff, fun hm m' h => validate_reordered hm h, fun present' hsame => ?_,
    fun kind => validate_sublist (List.subset_cons_self kind present)⟩
  exact validate_eq_of_subset (fun kind => (hsame kind).1) fun kind => (hsame kind).2

example : column.validate ⟨[("size".toList, .integer 10), ("color".toList, .string "red".toList)]⟩
    [column] = [.missingAttributes column ["type".toList],
      .unknownAttributes column ["size".toList, "color".toList]] := by decide

/-- Two unknown attributes change places, and an identifier is named twice. -/
theorem issues_tell_rules_broken_unknown :
    SchemaIssue.Reordered
      (column.validate ⟨[("size".toList, .integer 10), ("color".toList, .boolean true)]⟩ [])
      (column.validate ⟨[("color".toList, .boolean true), ("size".toList, .integer 10)]⟩ []) ∧
    generatedValue.validate ⟨[]⟩ [id, id] = generatedValue.validate ⟨[]⟩ [id] := by
  let size : Text × AttributeValue := ("size".toList, .integer 10)
  let color : Text × AttributeValue := ("color".toList, .boolean true)
  have hnames : (AttributeMap.mk [size, color]).names.Nodup := by decide
  exact ⟨(issues_tell_rules_broken column ⟨[size, color]⟩ []).2.1 hnames ⟨[color, size]⟩
      (.swap color size []),
    (issues_tell_rules_broken generatedValue ⟨[]⟩ [id]).2.2.1 [id, id] fun kind => by simp⟩

end MappingKind

end EntityLint
