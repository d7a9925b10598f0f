import EntityLint.Mapping.MappingKind
import EntityLint.Mapping.Attribute
import EntityLint.Mapping.Naming

/-!
# Checking attributes against the rule of their annotation

* `Verdict`, `ValueSpec.check`: one value;
* `SchemaIssue`, `MappingKind.validate`: an annotation with its attributes and neighbours.
-/

namespace EntityLint

/-- What a check of a value comes to. -/
inductive Verdict
  | valid
  | invalid
  /-- The specification names a type that there is no check for. -/
  | unknownType
  deriving DecidableEq, Repr

/-- Whether a text refers to a class: it sounds like one and has a backslash in it or `::class`
after it. -/
def namesClass (t : Text) : Bool :=
  (Naming.soundsLikeClass t || t == "self::class".toList)
    && (t.contains '\\' || Naming.isClassReference t)

/-- Check a value. -/
def ValueSpec.check (spec : ValueSpec) (value : AttributeValue) : Verdict :=
  let verdict (holds : Bool) : Verdict := if holds then .valid else .invalid
  match spec, value with
  | .custom _, _ => .unknownType
  | .string, .string t | .string, .raw t => verdict (!t.isEmpty && t != ['0'])
  | .integer, .integer _ | .boolean, .boolean _ => .valid
  | .oneOf values, .string t | .oneOf values, .raw t => verdict (values.contains t)
  | .array, v => verdict (v.text.head? == some '\x7b' || v.text.head? == some '[')
  | .classRef, v => verdict (namesClass v.text)
  | _, _ => .invalid

/-- What is wrong with an annotation. -/
inductive SchemaIssue
  | missingSibling (kind : MappingKind) (requirement : Requirement)
  | missingAttributes (kind : MappingKind) (names : List Text)
  | unknownAttributes (kind : MappingKind) (names : List Text)
  | invalidValue (kind : MappingKind) (name : Text) (spec : ValueSpec)
  | unknownSpec (kind : MappingKind) (name : Text) (spec : ValueSpec)
  deriving DecidableEq, Repr

namespace SchemaIssue

/-- The message code. -/
def code : SchemaIssue → String
  | missingSibling _ _ => "AnnotationRequired"
  | missingAttributes _ _ => "AttributeRequired"
  | unknownAttributes _ _ => "AttributeUnknown"
  | invalidValue _ _ _ => "AttributeInvalidType"
  | unknownSpec _ _ _ => "AttributeUnknownType"

/-- Some names with commas between them. -/
def listed (names : List Text) : String := String.ofList (Text.join ", ".toList names)

/-- The wording. -/
def message : SchemaIssue → String
  | missingSibling a requirement =>
    s!"Annotation {a.name} requires {requirement.describe} which is not found"
  | missingAttributes a names =>
    s!"Annotation {a.name} must have the following attributes: {listed names}"
  | unknownAttributes a names => s!"Annotation {a.name} has unknown attributes: {listed names}"
  | invalidValue a name spec =>
    let head := s!"Annotation {a.name} has attribute {String.ofList name}"
    s!"{head} with invalid type; expected {String.ofList spec.describe}"
  | unknownSpec a name spec =>
    let head := s!"Annotation {a.name} has attribute {String.ofList name}"
    s!"{head} with unknown type {String.ofList spec.describe}"

end SchemaIssue

namespace MappingKind

/-- The issue with the value of an attribute that a rule knows. -/
def valueIssue? (a : MappingKind) (m : AttributeMap) (attr : Text × ValueSpec) :
    Option SchemaIssue :=
  match (m.get? attr.1).map attr.2.check with
  | none | some .valid => none
  | some .invalid => some (.invalidValue a attr.1 attr.2)
  | some .unknownType => some (.unknownSpec a attr.1 attr.2)

/-- The issues with the attributes of an annotation, for a rule that checks them: attributes that
are missing, that are unknown, and whose value is wrong. -/
def attributeIssues (a : MappingKind) (rule : MappingRule) (specs : List (Text × ValueSpec))
    (m : AttributeMap) : List SchemaIssue :=
  let missing := rule.required.filter fun name => !m.contains name
  let unknown := m.names.filter fun name => (rule.spec? name).isNone
  (if missing.isEmpty then [] else [.missingAttributes a missing])
    ++ (if unknown.isEmpty then [] else [.unknownAttributes a unknown])
    ++ specs.filterMap (a.valueIssue? m)

/-- The issues of an annotation with some attributes, on a property with the annotations that are
present. -/
def validate (a : MappingKind) (m : AttributeMap) (present : List MappingKind) : List SchemaIssue :=
  match a.rule? with
  | none => []
  | some rule =>
    (rule.requirements.filter fun r => !r.isMetBy present).map (.missingSibling a)
      ++ match rule.attributes with
        | none => []
        | some specs => a.attributeIssues rule specs m

end MappingKind

end EntityLint
