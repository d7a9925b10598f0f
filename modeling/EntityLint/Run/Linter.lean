import EntityLint.Files.Path
import EntityLint.Report.LintResult
import EntityLint.Rule.RuleSet

/-!
# Checking a source text

* `Linter`, `Linter.check`: some rules, run one after the other over one text;
* `Violation.precedes`, `sortViolations`: the order in which violations are reported;
* `ParseFailure`: why a text cannot be checked.

All rules share the draft of the text. Which violations there are does not depend on the draft.
-/

namespace EntityLint

/-! ### Order -/

/-- Whether a violation is not reported after another: by path, line and column. -/
def Violation.precedes (v w : Violation) : Bool :=
  let a := v.location.file.toList
  let b := w.location.file.toList
  if Path.same a b then
    v.location.line < w.location.line
      || (v.location.line == w.location.line && v.location.column ≤ w.location.column)
  else Path.le a b

/-- Violations in the order in which they are reported. Those at one place keep their order. -/
def sortViolations (violations : List Violation) : List Violation :=
  violations.mergeSort Violation.precedes

/-! ### Linters -/

/-- A file whose text has no token stream. -/
structure ParseFailure where
  path : String
  cause : LexError
  deriving DecidableEq, Repr

/-- The wording of a failure. -/
def ParseFailure.message (e : ParseFailure) : String :=
  s!"Parse error in {e.path}: {e.cause.message}"

/-- Rules and how they are run. -/
structure Linter where
  rules : List Rule
  configuration : Configuration
  /-- Whether violations are mended. -/
  fixing : Bool

namespace Linter

/-- A linter that mends violations if it is told to, and else if its configuration says so. -/
def make (rules : List Rule) (configuration : Configuration) (fix : Option Bool) : Linter :=
  ⟨rules, configuration, fix.getD configuration.files.fix⟩

/-- The rules that are not switched off. -/
def activeRules (l : Linter) : List Rule :=
  l.rules.filter fun rule => l.configuration.isEnabled rule.name.toList

/-- Run a rule on a file whose draft is given, and add its violations to those before. -/
def runRule (l : Linter) (f : SourceFile) (state : Draft × List Violation) (rule : Rule) :
    Draft × List Violation :=
  let r := rule.run f (l.configuration.severity? rule.name.toList) state.1
  (r.draft, state.2 ++ r.violations)

/-- The draft and the violations of a file after all rules. -/
def runAll (l : Linter) (f : SourceFile) : Draft × List Violation :=
  l.activeRules.foldl (l.runRule f) (Draft.ofFile f l.fixing, [])

/-- The result for a file. -/
def checkFile (l : Linter) (f : SourceFile) : LintResult :=
  let (draft, violations) := l.runAll f
  { violations := sortViolations violations
    filesChecked := 1
    fixedFiles :=
      if l.fixing && draft.fixes != 0 then [⟨f.path, String.ofList draft.text, draft.fixes⟩]
      else [] }

/-- The result for a text, as the file at a path. -/
def check (l : Linter) (path : String) (source : Text) : Except ParseFailure LintResult :=
  match SourceFile.parse path source with
  | .ok f => .ok (l.checkFile f)
  | .error cause => .error ⟨path, cause⟩

end Linter

end EntityLint
