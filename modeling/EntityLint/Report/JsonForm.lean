import EntityLint.Report.LintResult

/-!
# The JSON form of violations and results

A record is written as an object. When it is read back it may also be an array of its fields in
order; keys that it does not know are passed over.

* `JsonValue`, the values that the forms are made of;
* `JsonValue.Fields`: the fields of a record, by name or by place;
* `toJson` and `ofJson?` for locations, violations, fixed files and results.

What may be left out differs: the hint of a violation and the list of fixed files are written only
where there is something to write, and these two and the mark for fixable violations may be missing
when read. A hint may be read as `null`, the mark may not.
-/

namespace EntityLint

/-- A JSON value. Of the numbers only the naturals are told apart, since no other has a meaning
here. -/
inductive JsonValue
  | null
  | bool (value : Bool)
  | natural (value : Nat)
  | otherNumber
  | string (value : String)
  | array (items : List JsonValue)
  | object (fields : List (String × JsonValue))
  deriving Inhabited

namespace JsonValue

/-- The value as a truth value. -/
def bool? : JsonValue → Option Bool
  | bool value => some value
  | _ => none

/-- The value as a number of 64 bits. -/
def word? : JsonValue → Option Nat
  | natural value => if value < Nat.pow 2 64 then some value else none
  | _ => none

/-- The value as a text. -/
def string? : JsonValue → Option String
  | string value => some value
  | _ => none

/-- The values of a list, if all of them can be read. -/
def list? (read : JsonValue → Option α) : JsonValue → Option (List α)
  | array items => items.mapM read
  | _ => none

/-- A value that may be `null`. -/
def orNull? (read : JsonValue → Option α) : JsonValue → Option (Option α)
  | null => some none
  | value => (read value).map some

/-- The fields of a record with the given field names, each with its value if it is there. An array
gives them in order and may not be longer than the record. -/
def fields? (names : List String) : JsonValue → Option (List (Option JsonValue))
  | object fields => some (names.map fun name => List.lookup name fields)
  | array items =>
    if items.length ≤ names.length then some (names.mapIdx fun i _ => items[i]?) else none
  | _ => none

/-- The value of a field that has to be there. -/
def required (read : JsonValue → Option α) (field : Option JsonValue) : Option α :=
  field.bind read

/-- The value of a field with a default. -/
def optional (read : JsonValue → Option α) (default : α) : Option JsonValue → Option α
  | some value => read value
  | none => some default

end JsonValue

open JsonValue

/-- A severity is written by its name. It may be read from an object with that one name and no
content, too. -/
def Severity.ofJson? : JsonValue → Option Severity
  | .string name => Severity.ofName? name
  | .object [(name, .null)] => Severity.ofName? name
  | _ => none

/-- The JSON form of a location. -/
def Location.toJson (l : Location) : JsonValue :=
  .object [("file", .string l.file), ("line", .natural l.line), ("column", .natural l.column),
    ("offset", .natural l.offset), ("length", .natural l.length)]

/-- The location with a JSON form. -/
def Location.ofJson? (j : JsonValue) : Option Location := do
  match ← j.fields? ["file", "line", "column", "offset", "length"] with
  | [file, line, column, offset, length] =>
    return ⟨← required string? file, ← required word? line, ← required word? column,
      ← required word? offset, ← required word? length⟩
  | _ => none

/-- The JSON form of a hint. -/
def suggestionToJson (message : String) : JsonValue := .object [("message", .string message)]

/-- The hint with a JSON form. -/
def suggestionOfJson? (j : JsonValue) : Option String := do
  match ← j.fields? ["message"] with
  | [message] => required string? message
  | _ => none

/-- The JSON form of a violation. -/
def Violation.toJson (v : Violation) : JsonValue :=
  .object <|
    [("code", .string v.code), ("rule", .string v.rule), ("severity", .string v.severity.name),
      ("location", v.location.toJson), ("message", .string v.message),
      ("fixable", .bool v.fixable)]
    ++ (v.suggestion.map fun text => ("suggestion", suggestionToJson text)).toList

/-- The violation with a JSON form. -/
def Violation.ofJson? (j : JsonValue) : Option Violation := do
  let names := ["code", "rule", "severity", "location", "message", "fixable", "suggestion"]
  match ← j.fields? names with
  | [code, rule, severity, location, message, fixable, suggestion] =>
    return ⟨← required string? code, ← required string? rule,
      ← required Severity.ofJson? severity, ← required Location.ofJson? location,
      ← required string? message, ← optional bool? false fixable,
      ← optional (orNull? suggestionOfJson?) none suggestion⟩
  | _ => none

/-- The JSON form of a fixed file. -/
def FixedFile.toJson (f : FixedFile) : JsonValue :=
  .object [("path", .string f.path), ("content", .string f.content), ("fixes", .natural f.fixes)]

/-- The fixed file with a JSON form. -/
def FixedFile.ofJson? (j : JsonValue) : Option FixedFile := do
  match ← j.fields? ["path", "content", "fixes"] with
  | [path, content, fixes] =>
    return ⟨← required string? path, ← required string? content, ← required word? fixes⟩
  | _ => none

/-- The JSON form of a result. -/
def LintResult.toJson (r : LintResult) : JsonValue :=
  .object <|
    [("violations", .array (r.violations.map Violation.toJson)),
      ("files_checked", .natural r.filesChecked)]
    ++ (if r.fixedFiles.isEmpty then []
        else [("fixed_files", .array (r.fixedFiles.map FixedFile.toJson))])

/-- The result with a JSON form. -/
def LintResult.ofJson? (j : JsonValue) : Option LintResult := do
  match ← j.fields? ["violations", "files_checked", "fixed_files"] with
  | [violations, filesChecked, fixedFiles] =>
    return ⟨← required (list? Violation.ofJson?) violations, ← required word? filesChecked,
      ← optional (list? FixedFile.ofJson?) [] fixedFiles⟩
  | _ => none

end EntityLint
