import EntityLint.Source.File

/-!
# Violations

* `Severity`, ordered by `Severity.level`;
* `Location`, `Violation`, `FixedFile`;
* `Violation.shortCode`, `Violation.format`, `Violation.line`, `Diagnostic`: the written forms.
-/

namespace EntityLint

/-- How serious a violation is. -/
inductive Severity
  | info
  | warning
  | error
  deriving DecidableEq, Repr

namespace Severity

/-- The rank of a severity: an error counts more than a warning, a warning more than an info. -/
def level : Severity → Nat
  | info => 0
  | warning => 1
  | error => 2

/-- The name of a severity. -/
def name : Severity → String
  | info => "info"
  | warning => "warning"
  | error => "error"

/-- The severity with a given name. -/
def ofName? (name : String) : Option Severity :=
  [info, warning, error].find? fun s => s.name == name

@[simp] theorem ofName?_name (s : Severity) : ofName? s.name = some s := by
  cases s <;> rfl

end Severity

/-- A place in a file. Offset and length count UTF-8 bytes. -/
structure Location where
  file : String
  line : Nat
  column : Nat
  offset : Nat
  length : Nat
  deriving DecidableEq, Repr

/-- The location of a token of a file, and the beginning of the file for a token that is not
there. -/
def SourceFile.locate (f : SourceFile) (token : Nat) : Location :=
  match f.tokens[token]? with
  | some t => ⟨f.path, t.position.line, t.position.column, t.position.offset, t.length⟩
  | none => ⟨f.path, 1, 1, 0, 0⟩

/-- A fault found by a rule. -/
structure Violation where
  /-- The code of the rule, a point and the code of the message. -/
  code : String
  /-- The name of the rule. -/
  rule : String
  severity : Severity
  location : Location
  message : String
  /-- Whether the rule knows how to mend it. -/
  fixable : Bool
  /-- A hint for the reader. -/
  suggestion : Option String
  deriving DecidableEq, Repr

namespace Violation

/-- The code of the message: what follows the last point of the code. -/
def shortCode (v : Violation) : String :=
  String.ofList (v.code.toList.reverse.takeWhile (· != '.')).reverse

/-- The form for a terminal, over several lines. -/
def format (v : Violation) : String :=
  let place := s!"{v.code} {v.rule} at {v.location.file}:{v.location.line}:{v.location.column}\n"
  let mark := if v.fixable then " (fixable)" else ""
  let fault := s!"  {v.severity.name}: {v.message}{mark}\n"
  let help := match v.suggestion with
    | some text => s!"  = help: {text}\n"
    | none => ""
  place ++ fault ++ help

/-- The form in one line. -/
def line (v : Violation) : String :=
  let place := s!"{v.location.file}:{v.location.line}:{v.location.column}"
  s!"{place}: {v.severity.name} [{v.code}] {v.message}"

end Violation

/-- A violation as a message with a label on a span of the file. -/
structure Diagnostic where
  message : String
  help : Option String
  label : String
  offset : Nat
  length : Nat
  deriving DecidableEq, Repr

/-- The diagnostic of a violation, labelled with the rule. -/
def Violation.diagnostic (v : Violation) : Diagnostic :=
  ⟨s!"[{v.code}] {v.message}", v.suggestion, v.rule, v.location.offset, v.location.length⟩

/-- The new text of a file and the number of changes made to it. -/
structure FixedFile where
  path : String
  content : String
  fixes : Nat
  deriving DecidableEq, Repr

end EntityLint
