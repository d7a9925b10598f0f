import EntityLint.Report.Violation
import EntityLint.Toml.Document

/-!
# Configuration

A configuration says which files are checked, whether they are fixed, and for each rule whether it
is wanted, how serious its violations are, and what else it should know.

* `FileSettings`, `RuleSection`, `Configuration`;
* `Configuration.isEnabled`, `Configuration.severity?`, `RuleSection.flag`: what is in force;
* `Configuration.parse?`: the configuration that a text writes.

Keys that have no meaning are passed over, except in the section of a rule, where they are options.
-/

namespace EntityLint

open Toml (Value)

/-- Which files are checked and whether they are fixed. -/
structure FileSettings where
  /-- Where the files are searched. -/
  root : Text := ['.']
  /-- Patterns of files that are left out. -/
  exclude : List Text := []
  /-- The extensions of the files, without points. -/
  extensions : List Text := ["php".toList]
  fix : Bool := false
  deriving DecidableEq, Repr

/-- What is said of one rule. -/
structure RuleSection where
  enabled : Option Bool := none
  /-- The severity of all its violations. -/
  severity : Option Severity := none
  options : List (Text × Value) := []

/-- A configuration. -/
structure Configuration where
  files : FileSettings := {}
  /-- What is said of rules, by name. -/
  sections : List (Text × RuleSection) := []

/-! ### What is in force -/

namespace RuleSection

/-- An option of a rule. -/
def option? (s : RuleSection) (key : Text) : Option Value := s.options.lookup key

/-- An option that is true or false, and something else counts as the default. -/
def flag (s : RuleSection) (key : Text) (default : Bool) : Bool :=
  ((s.option? key).bind Value.bool?).getD default

/-- An option that maps texts to texts. -/
def textMap? (s : RuleSection) (key : Text) : Option (List (Text × Text)) :=
  (s.option? key).bind (Value.map? Value.asText?)

end RuleSection

namespace Configuration

/-- What is said of a rule. -/
def section? (c : Configuration) (rule : Text) : Option RuleSection := c.sections.lookup rule

/-- Whether a rule is wanted. A rule of which nothing is said is. -/
def isEnabled (c : Configuration) (rule : Text) : Bool :=
  ((c.section? rule).bind RuleSection.enabled).getD true

/-- The severity that all violations of a rule get. -/
def severity? (c : Configuration) (rule : Text) : Option Severity :=
  (c.section? rule).bind RuleSection.severity

end Configuration

/-! ### Reading -/

/-- What is read from the value of a key, or a default for a key that is not there. -/
def fieldOr (read : Value → Option α) (default : α) (value : Option Value) : Option α :=
  match value with
  | some v => read v
  | none => some default

namespace FileSettings

/-- The settings with the given values, each of which may be missing. -/
def ofValues? (root exclude extensions fix : Option Value) : Option FileSettings := do
  let standard : FileSettings := {}
  return {
    root := ← fieldOr Value.string? standard.root root
    exclude := ← fieldOr (Value.list? Value.string?) standard.exclude exclude
    extensions := ← fieldOr (Value.list? Value.string?) standard.extensions extensions
    fix := ← fieldOr Value.bool? standard.fix fix }

/-- The settings that a value writes, by key in a table and by place in a list. -/
def ofValue? : Value → Option FileSettings
  | .array items => ofValues? items[0]? items[1]? items[2]? items[3]?
  | v => do
    let fields ← v.fields?
    let get (key : String) := fields.lookup key.toList
    ofValues? (get "root") (get "exclude") (get "extensions") (get "fix")

end FileSettings

/-- The severity that a value writes: its name, or a table with its name for a key and nothing under
it. -/
def Severity.ofValue? : Value → Option Severity
  | .string name => ofName? (String.ofList name)
  | .table [(name, inner)] => if inner.isEmptyGroup then ofName? (String.ofList name) else none
  | _ => none

namespace RuleSection

/-- What a value says of a rule. In its options, tables may stand for dates and times. -/
def ofValue? (v : Value) : Option RuleSection := do
  let fields ← v.fields?
  let enabled := "enabled".toList
  let severity := "severity".toList
  return {
    enabled := ← fieldOr (fun v => v.bool?.map some) none (fields.lookup enabled)
    severity := ← fieldOr (fun v => (Severity.ofValue? v).map some) none (fields.lookup severity)
    options := ← Value.fieldsWithDates?
      (fields.filter fun (key, _) => key != enabled && key != severity) }

end RuleSection

namespace Configuration

/-- What a table says of each rule. -/
def sections? (v : Value) : Option (List (Text × RuleSection)) := do
  (← v.fields?).mapM fun (rule, value) => (RuleSection.ofValue? value).map fun s => (rule, s)

/-- The configuration that the fields of a table write. -/
def ofFields? (fields : List (Text × Value)) : Option Configuration := do
  return {
    files := ← fieldOr FileSettings.ofValue? {} (fields.lookup "analyzer".toList)
    sections := ← fieldOr sections? [] (fields.lookup "sniffs".toList) }

/-- The configuration that a text writes. -/
def parse? (t : Text) : Option Configuration := Toml.parse? t >>= ofFields?

end Configuration

end EntityLint
