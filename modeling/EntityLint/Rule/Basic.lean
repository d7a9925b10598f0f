import EntityLint.Report.Reporter

/-!
# Rules

A rule is a check of single files. What it finds depends on the file alone, not on other rules and
not on whether fixes are wanted.

* `Rule`, `Rule.run`: a rule and its violations in a file, with the draft after its repairs.
-/

namespace EntityLint

/-- A check of source files. -/
structure Rule where
  name : String
  /-- The first part of the codes of its violations. -/
  code : String
  description : String
  /-- How serious its violations are unless a configuration says otherwise. -/
  severity : Severity := .error
  findings : SourceFile → List Finding

namespace Rule

/-- The tokens of a file of a given kind, by index. -/
def tokensOfKind (kind : Kind) (f : SourceFile) : List Nat :=
  (f.tokens.toList.zipIdx.filter fun (t, _) => t.kind == kind).map Prod.snd

/-- Check a file whose draft is `d`, where all violations get a severity if one is set. -/
def run (rule : Rule) (f : SourceFile) (severity : Option Severity) (d : Draft) : Reporter :=
  Reporter.reportAll ⟨f, rule.code, rule.name, severity, d, []⟩ (rule.findings f)

end Rule

end EntityLint
