import EntityLint.Text.Basic

/-!
# Annotations and what they may hold

* `MappingKind`: the kinds of annotations;
* `ValueSpec`, `Requirement`, `MappingRule`: what an annotation may hold and stand beside;
* `MappingKind.rule?`: the table of rules.
-/

namespace EntityLint

/-- The kind of an annotation of a property. -/
inductive MappingKind
  | column
  | cache
  | generatedValue
  | id
  | joinColumn
  | joinTable
  | manyToOne
  | manyToMany
  | oneToOne
  | oneToMany
  | orderBy
  | sequenceGenerator
  /-- Any other annotation, which is not checked. -/
  | unknown
  deriving DecidableEq, Repr

namespace MappingKind

/-- The kinds that are checked, in the order of their rules. -/
def all : List MappingKind :=
  [column, cache, generatedValue, id, joinColumn, joinTable, manyToOne, manyToMany, oneToOne,
    oneToMany, orderBy, sequenceGenerator]

/-- The name of an annotation. -/
def name : MappingKind → String
  | column => "Column"
  | cache => "Cache"
  | generatedValue => "GeneratedValue"
  | id => "Id"
  | joinColumn => "JoinColumn"
  | joinTable => "JoinTable"
  | manyToOne => "ManyToOne"
  | manyToMany => "ManyToMany"
  | oneToOne => "OneToOne"
  | oneToMany => "OneToMany"
  | orderBy => "OrderBy"
  | sequenceGenerator => "SequenceGenerator"
  | unknown => ""

/-- The kind with a given name. -/
def ofName (name : Text) : MappingKind :=
  (all.find? fun a => a.name.toList == name).getD unknown

/-- Whether the property refers to one other object. -/
def isToOne : MappingKind → Bool
  | manyToOne | oneToOne => true
  | _ => false

/-- Whether the property refers to a collection of other objects. -/
def isToMany : MappingKind → Bool
  | manyToMany | oneToMany => true
  | _ => false

end MappingKind

/-! ### Rules -/

/-- What the value of an attribute has to be. -/
inductive ValueSpec
  /-- A text that is not empty. -/
  | string
  | integer
  | boolean
  /-- A bracketed literal. -/
  | array
  /-- A reference to a class, or its full name. -/
  | classRef
  | oneOf (values : List Text)
  /-- A type that there is no check for. -/
  | custom (name : Text)
  deriving DecidableEq, Repr

/-- The wording of a specification. -/
def ValueSpec.describe : ValueSpec → Text
  | string => "string".toList
  | integer => "integer".toList
  | boolean => "boolean".toList
  | array => "array".toList
  | classRef => "class".toList
  | custom name => name
  | oneOf values =>
    '[' :: (Text.join ", ".toList (values.map fun v => '"' :: (v ++ ['"'])) ++ [']'])

/-- What has to stand on the same property. -/
inductive Requirement
  | one (kind : MappingKind)
  | anyOf (kinds : List MappingKind)
  deriving DecidableEq, Repr

namespace Requirement

/-- Whether the annotations of a property meet a requirement. -/
def isMetBy : Requirement → List MappingKind → Bool
  | one kind, present => present.contains kind
  | anyOf kinds, present => kinds.any present.contains

/-- The wording of a requirement. -/
def describe : Requirement → String
  | one kind => kind.name
  | anyOf kinds => String.intercalate " or " (kinds.map MappingKind.name)

end Requirement

/-- What an annotation may hold and stand beside. -/
structure MappingRule where
  /-- The attributes that have to be there. -/
  required : List Text
  /-- The attributes that may be there, or `none` where they are not checked. -/
  attributes : Option (List (Text × ValueSpec))
  requirements : List Requirement
  deriving DecidableEq, Repr

namespace MappingRule

/-- What the value of an attribute has to be, if the attribute may be there. -/
def spec? (rule : MappingRule) (attr : Text) : Option ValueSpec :=
  rule.attributes.bind fun specs => specs.lookup attr

/-- A rule that names its attributes. -/
def checking (required : List String) (attributes : List (String × ValueSpec))
    (requirements : List Requirement) : MappingRule :=
  ⟨required.map String.toList, some (attributes.map fun (name, spec) => (name.toList, spec)),
    requirements⟩

end MappingRule

/-- One of some given texts. -/
def ValueSpec.among (values : List String) : ValueSpec := oneOf (values.map String.toList)

/-- The rule for the annotations of a kind. -/
def MappingKind.rule? : MappingKind → Option MappingRule
  | column => some <| .checking ["type"]
      [("name", .string), ("type", .string), ("length", .integer), ("precision", .integer),
        ("scale", .integer), ("unique", .boolean), ("nullable", .boolean),
        ("enumType", .classRef), ("options", .array), ("columnDefinition", .string)] []
  | cache => some <| .checking []
      [("usage", .among ["READ_ONLY", "READ_WRITE", "NONSTRICT_READ_WRITE"]),
        ("region", .string)] []
  | generatedValue => some <| .checking []
      [("strategy",
        .among ["AUTO", "SEQUENCE", "TABLE", "IDENTITY", "UUID", "CUSTOM", "NONE"])] [.one id]
  | id => some ⟨[], none, []⟩
  | joinColumn => some <| .checking []
      [("name", .string), ("referencedColumnName", .string), ("unique", .boolean),
        ("nullable", .boolean), ("onDelete", .among ["SET NULL", "CASCADE"]),
        ("columnDefinition", .string)] [.anyOf [manyToOne, oneToOne]]
  | joinTable => some <| .checking []
      [("name", .string), ("joinColumns", .array), ("inverseJoinColumns", .array)]
      [.anyOf [oneToMany, manyToMany]]
  | manyToOne => some <| .checking ["targetEntity"]
      [("targetEntity", .classRef), ("cascade", .string), ("fetch", .among ["LAZY", "EAGER"]),
        ("inversedBy", .string)] []
  | manyToMany => some <| .checking ["targetEntity"]
      [("targetEntity", .classRef), ("mappedBy", .string), ("inversedBy", .string),
        ("cascade", .string), ("fetch", .among ["LAZY", "EXTRA_LAZY", "EAGER"]),
        ("indexBy", .string)] []
  | oneToOne => some <| .checking ["targetEntity"]
      [("targetEntity", .classRef), ("cascade", .string), ("fetch", .among ["LAZY", "EAGER"]),
        ("orphanRemoval", .boolean), ("mappedBy", .string), ("inversedBy", .string)] []
  | oneToMany => some <| .checking ["targetEntity"]
      [("targetEntity", .classRef), ("cascade", .string), ("orphanRemoval", .boolean),
        ("mappedBy", .string), ("fetch", .among ["LAZY", "EXTRA_LAZY", "EAGER"]),
        ("indexBy", .string)] []
  | orderBy => some ⟨[], none, [.anyOf [manyToMany, oneToMany]]⟩
  | sequenceGenerator => some <| .checking ["sequenceName"]
      [("sequenceName", .string), ("allocationSize", .integer), ("initialValue", .integer)]
      [.one generatedValue]
  | unknown => none

end EntityLint
