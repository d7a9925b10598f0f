import EntityLint.Mapping.MappingKind
import EntityLint.Mapping.Attribute
import EntityLint.Mapping.Naming
import EntityLint.Text.LowerCase

/-!
# Column types and the types of properties

* `ColumnType.held?`, `ColumnType.suggest`: the type of the property that a column fills;
* `AttributeMap.infer`: the attributes that follow from the type of the property.
-/

namespace EntityLint

namespace ColumnType

/-- The column types and the types they hold. An empty type is no expectation. -/
def table : List (String × List String) := [
  ("string", ["string", "text", "guid"]),
  ("integer", ["integer", "smallint", "tinyint", "bigint"]),
  ("boolean", ["boolean"]),
  ("float", ["decimal", "float"]),
  ("DateTime", ["date", "time", "datetime", "datetimetz"]),
  ("DateTimeImmutable",
    ["date_immutable", "time_immutable", "datetime_immutable", "datetimetz_immutable"]),
  ("DateInterval", ["dateinterval"]),
  ("array", ["array", "simple_array", "json_array", "json"]),
  ("", ["object"])]

/-- The type that a known column type holds. -/
def held? (columnType : Text) : Option Text :=
  (table.find? fun (_, names) => names.any fun n => n.toList == columnType).map fun (type, _) =>
    type.toList

/-- The column type that a constant of the class `Types` stands for. -/
def ofConstant (constant : Text) : Text :=
  let lower := Text.lower constant
  (Text.stripTrailing? "_mutable".toList lower).getD lower

/-- What joins the two parts of the name of an enum type. -/
def enumMark : Text := "_enum_".toList

/-- The parts of a text between the occurrences of a separator. Each occurrence takes a part of the
text, so that as many as the text has characters are enough. -/
def partsBetween (separator : Text) : Nat → Text → List Text
  | 0, t => [t]
  | fuel + 1, t =>
    match Text.breakOn separator t with
    | some (before, after) => before :: partsBetween separator fuel after
    | none => [t]

/-- The class that a column type with an enum mark in it names. -/
def enumClass (columnType : Text) : Text :=
  Naming.upperFirst (Naming.camelCase
    ((partsBetween enumMark columnType.length columnType).flatMap Naming.upperFirst))

/-- The type that a column holds, empty where nothing is expected. An unknown column type is taken
for a class if it sounds like one, and for a text otherwise. -/
def suggest (columnType : Text) (dynamicEnums : Bool) : Text :=
  let columnType := match Text.stripLeading? "Types::".toList columnType with
    | some constant => ofConstant constant
    | none => columnType
  match held? columnType with
  | some type => type
  | none =>
    if Naming.soundsLikeClass columnType then columnType
    else if dynamicEnums && Text.includes columnType enumMark then enumClass columnType
    else "string".toList

/-- The column types that follow from the type of the property. -/
def inferred : List (Text × Text) := [
  ("DateInterval".toList, "dateinterval".toList), ("DateTime".toList, "datetime".toList),
  ("DateTimeImmutable".toList, "datetime_immutable".toList), ("array".toList, "json".toList),
  ("bool".toList, "boolean".toList), ("float".toList, "float".toList),
  ("int".toList, "integer".toList), ("string".toList, "string".toList)]

end ColumnType

namespace AttributeMap

/-- The attributes of a column with its type, as far as it follows from the type of the property. A
class gives a column for an enum. -/
def inferColumn (m : AttributeMap) (type : Text) : AttributeMap :=
  match ColumnType.inferred.lookup type with
  | some columnType => m.insert "type".toList (.string columnType)
  | none =>
    if Naming.soundsLikeClass type then
      (m.insert "type".toList (.string "string".toList)).insert "enumType".toList
        (.string (Naming.classReference type))
    else m

/-- The attributes of an annotation with those that follow from the type of the property. What is
written stays. -/
def infer (m : AttributeMap) (kind : MappingKind) (propertyType : Text) : AttributeMap :=
  let type := propertyType.dropWhile fun c => c == '?' || c == '\\'
  if type.isEmpty then m
  else if kind = .column && !m.contains "type".toList then m.inferColumn type
  else if kind.isToOne && !m.contains "targetEntity".toList then
    m.insert "targetEntity".toList (.string (Naming.classReference type))
  else m

end AttributeMap

end EntityLint
