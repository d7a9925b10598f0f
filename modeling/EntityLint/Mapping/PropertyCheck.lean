import EntityLint.Mapping.ColumnType
import EntityLint.Mapping.Contract
import EntityLint.Mapping.Schema

/-!
# Checking a mapped property

* `renameLiteral?`, `SourceFile.literalEdit?`: how a wrong name is mended where it is written;
* `PropertyCheck`: a property with its annotations;
* `PropertyCheck.columnFindings`, `joinColumnFindings`, `toOneFindings`, `toManyFindings`: the
  faults of one annotation;
* `PropertyCheck.allFindings`, `PropertyCheck.findings`: all faults, and those that are not
  suppressed.

The faults of a property do not depend on what it suppresses; suppression takes some of them away.
-/

namespace EntityLint

/-! ### Mending names -/

/-- The text with the value of `attr="old"` at its beginning made new. -/
def renameHere? (attr old new : Text) (t : Text) : Option Text := do
  let isSpace (c : Char) : Bool := c == ' '
  let spaced ← Text.stripLeading? attr t
  let afterEquals ← Text.stripLeading? ['='] (spaced.dropWhile isSpace)
  let value ← Text.stripLeading? ['"'] (afterEquals.dropWhile isSpace)
  let rest ← Text.stripLeading? old value
  guard (rest.head? = some '"')
  return attr ++ spaced.takeWhile isSpace ++ '=' :: afterEquals.takeWhile isSpace
    ++ '"' :: (new ++ rest)

/-- The text with the value of the first `attr="old"` made new, if there is one that is not the end
of a longer name. -/
def renameLiteral? (attr old new : Text) (before : Option Char) : Text → Option Text
  | [] => none
  | c :: t =>
    let here := if before.any isNameChar then none else renameHere? attr old new (c :: t)
    match here with
    | some renamed => some renamed
    | none => (renameLiteral? attr old new (some c) t).map (c :: ·)

namespace SourceFile

/-- The first token of a doc comment annotation in which a value can be made new, and its text. -/
def docLiteral? (f : SourceFile) (tag : MappingTag) (attr old new : Text) : Option (Nat × Text) :=
  (List.range' tag.start (tag.stop - tag.start)).findSome? fun i => do
    guard (f.kindAt i = some .docText)
    let text ← renameLiteral? attr old new none (f.textAt i)
    return (i, text)

/-- The quoted value of an attribute in an annotation of an attribute group. -/
def nativeLiteral? (f : SourceFile) (tag : MappingTag) (attr : Text) : Option Nat :=
  (List.range' tag.start (tag.stop - tag.start)).findSome? fun i => do
    guard (f.kindAt i = some .word ∧ f.textAt i = attr)
    let colon ← f.nextSignificant? (i + 1) (some tag.stop)
    guard (f.kindAt colon = some .colon)
    let value ← f.nextSignificant? (colon + 1) (some tag.stop)
    guard (f.kindAt value = some .quoted)
    return value

/-- The edit that makes the value of an attribute new where it is written. -/
def literalEdit? (f : SourceFile) (tag : MappingTag) (attr old new : Text) : Option Edit :=
  match tag.dialect with
  | .doc => (f.docLiteral? tag attr old new).map fun (i, text) => .replace i text
  | .native => (f.nativeLiteral? tag attr).map fun i => .replace i ('\'' :: (new ++ ['\'']))

end SourceFile

/-! ### Properties -/

/-- Choices for the checks. -/
structure MappingOptions where
  /-- The base classes that arguments may be typed with. -/
  baseTypes : BaseTypes
  /-- Whether column types with an enum mark name a class. -/
  dynamicEnums : Bool
  deriving DecidableEq, Repr

/-- A property of a file with its annotations. -/
structure PropertyCheck where
  options : MappingOptions
  file : SourceFile
  /-- The variable of the property. -/
  token : Nat
  tags : PropertyTags

namespace PropertyCheck

/-- The type of the property as written. -/
def type? (p : PropertyCheck) : Option Text :=
  (p.file.property? p.token).bind Property.typeText

/-- The name of the property, without its dollar sign. -/
def name (p : PropertyCheck) : Text := (p.file.textAt p.token).dropWhile (· == '$')

/-- A fault that can be mended by giving an attribute of an annotation a new value. -/
def renamingFault (p : PropertyCheck) (tag : MappingTag) (code message : String) (old new : Text) :
    Finding where
  token := tag.position
  code := code
  message := message
  fixable := true
  repair := (p.file.literalEdit? tag "name".toList old new).map fun e => .changeset [.edit e]

/-- A fault at a token. -/
def fault (token : Nat) (code message : String) : Finding := { token, code, message }

/-- The short name of a class, where `self` is the class of the property. -/
def shortClass (p : PropertyCheck) (className : Text) : StateM FileMemo Text :=
  let short := Naming.shortClassName className
  if short = "self".toList then FileMemo.classNameAt p.file p.token else pure short

/-- A contract for the accessor of this property in a role, named with a part of its name. -/
def contract (kind : MappingKind) (role : AccessorRole) (verb : String) (part : Text) : Contract :=
  ⟨kind, role, verb.toList ++ Naming.upperFirst part, true, none, none⟩

/-! ### Columns -/

/-- The fault of a column that is not named after its property. -/
def columnNameFindings (p : PropertyCheck) (tag : MappingTag) (m : AttributeMap) : List Finding :=
  match m.get? "name".toList with
  | none => []
  | some value =>
    let raw := value.text
    let column := Text.dropEndWhile (· == '\x60') (raw.dropWhile (· == '\x60'))
    let expected := Naming.underScore p.name
    if column ≠ expected ∧ p.name ≠ Naming.camelCase column then
      let wanted := String.ofList expected
      let found := String.ofList column
      let rule := "Column name must be underscored variable name"
      [p.renamingFault tag "ColumnUnderscored"
        s!"{rule}; expected \"{wanted}\" but found \"{found}\"" raw expected]
    else []

/-- The faults of the types that the doc comment and the code give a property, for the type that its
column holds. -/
def declaredTypeFindings (p : PropertyCheck) (tag : MappingTag) (expected : Text) : List Finding :=
  let wanted := String.ofList expected
  let isWrong (t : Text) : Bool := !TypeName.isSame expected t
  let bare (t : Text) : Text := Text.dropEndWhile (· == '?') (t.dropWhile (· == '?'))
  (if p.tags.varType.isNone && p.type?.isNone then
    [fault tag.position "VariableTypeRequired"
      s!"Variable type required for column; expected \"{wanted}\""] else [])
  ++ ((p.tags.varType.filter isWrong).map fun t =>
    let found := String.ofList t
    fault tag.position "VariableTypeMismatch"
      s!"Variable type must match column type; expected \"{wanted}\" but found \"{found}\"").toList
  ++ ((p.type?.filter fun t => isWrong (bare t)).map fun t =>
    let found := String.ofList t
    fault tag.position "PropertyTypeMismatch"
      s!"Property type must match column type; expected \"{wanted}\" but found \"{found}\"").toList

/-- The faults of attributes that a column type asks for. -/
def columnSizeFindings (tag : MappingTag) (m : AttributeMap) (columnType : Text) : List Finding :=
  (if columnType == "varchar".toList && !m.contains "length".toList then
    [fault tag.position "ColumnAttributeRequired"
      "Column of type varchar must have specified length"] else [])
  ++ (if columnType == "decimal".toList
      && !(m.contains "precision".toList && m.contains "scale".toList) then
    [fault tag.position "ColumnAttributeRequired"
      "Column of type decimal must have specified precision and length"] else [])

/-- The column type of a column with a type attribute: the class of its enum, if it has one. -/
def columnType (p : PropertyCheck) (m : AttributeMap) (typeValue : AttributeValue) :
    StateM FileMemo Text :=
  match m.get? "enumType".toList with
  | some enum => p.shortClass enum.text
  | none => pure typeValue.text

/-- The faults of a column and of its getter and setter. -/
def columnFindings (p : PropertyCheck) (tag : MappingTag) (m : AttributeMap) :
    StateM FileMemo (List Finding) := do
  let (expected, typed) ← match m.get? "type".toList with
    | none => pure ((p.type?.map withoutMark).getD [], [])
    | some typeValue => do
      let columnType ← p.columnType m typeValue
      let held := ColumnType.suggest columnType p.options.dynamicEnums
      let declared := if held.isEmpty then [] else p.declaredTypeFindings tag held
      pure (held, declared ++ columnSizeFindings tag m columnType)
  let expected := if expected.isEmpty then none else some expected
  let nullable := (m.get? "nullable".toList).any AttributeValue.isTruthy
  let getter ← Contract.findings
    { contract .column .getter "get" p.name with returns := expected.map .type }
    p.options.baseTypes p.file tag.position
  let setter ← Contract.findings
    { contract .column .setter "set" p.name with
      required := !p.tags.has .generatedValue
      returns := some .fluent
      argument := some ⟨p.name, expected, nullable⟩ }
    p.options.baseTypes p.file tag.position
  return p.columnNameFindings tag m ++ typed ++ getter ++ setter

/-! ### Relations -/

/-- The fault of a join column that is not named after its property. -/
def joinColumnFindings (p : PropertyCheck) (tag : MappingTag) (m : AttributeMap) : List Finding :=
  match m.get? "name".toList with
  | none => []
  | some value =>
    let expected := Naming.underScore p.name ++ "_id".toList
    if value.text ≠ expected then
      let wanted := String.ofList expected
      let found := String.ofList value.text
      let rule := "JoinColumn name must be underscored variable name"
      [p.renamingFault tag "JoinColumnNameFormat"
        s!"{rule}; expected \"{wanted}\" but found \"{found}\"" value.text expected]
    else []

/-- Whether a relation to one object may be without one, as its join column says. -/
def isNullableRelation (p : PropertyCheck) : Bool :=
  match (p.tags.first? .joinColumn).bind fun join => join.attributes.get? "nullable".toList with
  | some value => value.isTruthy
  | none => true

/-- The faults of the getter and setter of a relation to one object. -/
def toOneFindings (p : PropertyCheck) (tag : MappingTag) (m : AttributeMap) :
    StateM FileMemo (List Finding) :=
  match m.get? "targetEntity".toList with
  | none => pure []
  | some value => do
    let target ← p.shortClass value.text
    let getter ← Contract.findings
      { contract tag.kind .getter "get" p.name with returns := some (.type target) }
      p.options.baseTypes p.file tag.position
    let setter ← Contract.findings
      { contract tag.kind .setter "set" p.name with
        returns := some .fluent
        argument := some ⟨p.name, some target, p.isNullableRelation⟩ }
      p.options.baseTypes p.file tag.position
    return getter ++ setter

/-- The text that makes a new collection, in small letters. -/
def newCollection : Text := "new arraycollection()".toList

/-- The fault of a collection that the constructor does not make. -/
def collectionFindings (p : PropertyCheck) (kind : MappingKind) : List Finding :=
  let var := String.ofList p.name
  match p.file.initialValue? p.name with
  | none =>
    [fault p.token s!"{kind.name}VariableNotInitialized"
      s!"Variable \"{var}\" must be initialized in the class constructor"]
  | some value =>
    if Text.lower (Text.trim value) = newCollection then []
    else
      let found := String.ofList value
      let rule := s!"Variable \"{var}\" must be initialized in the class constructor"
      [fault p.token s!"{kind.name}VariableCollection"
        s!"{rule} as ArrayCollection; found \"{found}\""]

/-- The type of the getter of a collection. -/
def collectionType (target : Text) : Text :=
  target ++ "[]|Collection|ArrayCollection|Collection<".toList ++ target
    ++ ">|Collection<int, ".toList ++ target ++ ">".toList

/-- The faults of the adder, remover and getter of a relation to many objects. -/
def manyAccessorFindings (p : PropertyCheck) (tag : MappingTag) (singular target : Text) :
    StateM FileMemo (List Finding) := do
  let adder ← Contract.findings
    { contract tag.kind .adder "add" singular with
      returns := some .fluent
      argument := some ⟨singular, some target, false⟩ }
    p.options.baseTypes p.file tag.position
  let remover ← Contract.findings
    { contract tag.kind .remover "remove" singular with
      argument := some ⟨singular, some target, false⟩ }
    p.options.baseTypes p.file tag.position
  let getter ← Contract.findings
    { contract tag.kind .getter "get" p.name with
      returns := some (.type (collectionType target)) }
    p.options.baseTypes p.file tag.position
  return adder ++ remover ++ getter

/-- The faults of a relation to many objects: of its name, of the constructor and of the
accessors. -/
def toManyFindings (p : PropertyCheck) (tag : MappingTag) (m : AttributeMap) :
    StateM FileMemo (List Finding) := do
  let var := String.ofList p.name
  let singular := Naming.singular? p.name
  let kindName := tag.kind.name
  let misnamed := if singular.isSome then [] else
    [fault p.token s!"{kindName}VariablePlural"
      s!"Variable \"{kindName}\" name \"{var}\" must be plural"]
  let missing := if ← FileMemo.lacksConstructor p.file then
      [fault p.token "ConstructorRequired"
        "Class should have constructor with properties initialization."]
    else []
  let accessors ← match m.get? "targetEntity".toList with
    | none => pure []
    | some value => do
      let target ← p.shortClass value.text
      p.manyAccessorFindings tag (singular.getD p.name) target
  return misnamed ++ missing ++ p.collectionFindings tag.kind ++ accessors

/-! ### All annotations -/

/-- The attributes of an annotation with those that follow from the type of the property. -/
def completed (p : PropertyCheck) (tag : MappingTag) : AttributeMap :=
  match p.type? with
  | some type => tag.attributes.infer tag.kind type
  | none => tag.attributes

/-- The faults of an annotation with some attributes that come from its kind. -/
def kindFindings (p : PropertyCheck) (tag : MappingTag) (m : AttributeMap) :
    StateM FileMemo (List Finding) :=
  if tag.kind = .column then p.columnFindings tag m
  else if tag.kind = .joinColumn then pure (p.joinColumnFindings tag m)
  else if tag.kind.isToOne then p.toOneFindings tag m
  else if tag.kind.isToMany then p.toManyFindings tag m
  else pure []

/-- The faults of an annotation. -/
def tagFindings (p : PropertyCheck) (tag : MappingTag) : StateM FileMemo (List Finding) := do
  let m := p.completed tag
  let schema := (tag.kind.validate m p.tags.kinds).map fun issue =>
    fault tag.position issue.code issue.message
  return schema ++ (← p.kindFindings tag m)

/-- The faults in the way an annotation is written. -/
def spellingFindings (tag : MappingTag) : List Finding :=
  tag.issues.map fun issue => fault tag.position issue.code issue.message

/-- All faults of the property: those of spelling, and then those of each annotation. -/
def allFindings (p : PropertyCheck) : StateM FileMemo (List Finding) := do
  let findings ← p.tags.tags.mapM p.tagFindings
  return p.tags.tags.flatMap spellingFindings ++ findings.flatten

/-- The faults of the property that it does not suppress. -/
def findings (p : PropertyCheck) : StateM FileMemo (List Finding) := do
  return (← p.allFindings).filter fun finding => !p.tags.ignored.contains finding.code.toList

end PropertyCheck

end EntityLint
