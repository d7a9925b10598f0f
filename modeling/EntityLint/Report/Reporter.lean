import EntityLint.Edit.Draft
import EntityLint.Report.Violation

/-!
# Reporting findings

A rule finds faults in a file and may say how to mend them. A reporter turns the findings of one
rule into violations and runs the repairs on the draft of the file, if fixes are wanted.

* `Finding`, `Reporter`, `Reporter.report`, `Reporter.reportAll`.
-/

namespace EntityLint

/-- A fault at a token of a file. -/
structure Finding where
  token : Nat
  /-- The code of the message. -/
  code : String
  message : String
  severity : Severity := .error
  /-- Whether the rule knows how to mend such a fault. -/
  fixable : Bool := false
  /-- How to mend this one. -/
  repair : Option Step := none

/-- A reporter for one rule on one file. -/
structure Reporter where
  file : SourceFile
  /-- The code of the rule. -/
  ruleCode : String
  /-- The name of the rule. -/
  ruleName : String
  /-- The severity that all violations get, if one is set. -/
  severity : Option Severity
  draft : Draft
  violations : List Violation

namespace Reporter

/-- The violation for a finding. -/
def violation (r : Reporter) (finding : Finding) : Violation where
  code := s!"{r.ruleCode}.{finding.code}"
  rule := r.ruleName
  severity := r.severity.getD finding.severity
  location := r.file.locate finding.token
  message := finding.message
  fixable := finding.fixable
  suggestion := none

/-- The draft after the repair of a finding. A repair that is refused leaves the texts alone. -/
def mend (d : Draft) (finding : Finding) : Draft :=
  match finding.repair with
  | some step => if d.fixing then (step.run d).2 else d
  | none => d

/-- Report a finding. -/
def report (r : Reporter) (finding : Finding) : Reporter :=
  { r with
    violations := r.violations ++ [r.violation finding]
    draft := mend r.draft finding }

/-- Report some findings in order. -/
def reportAll (r : Reporter) (findings : List Finding) : Reporter := findings.foldl report r

/-- Every finding that is reported is a violation. -/
theorem violations_reportAll (r : Reporter) (findings : List Finding) :
    (r.reportAll findings).violations = r.violations ++ findings.map r.violation := by
  unfold reportAll
  induction findings generalizing r with
  | nil => exact (List.append_nil _).symm
  | cons finding findings ih =>
    rw [List.foldl_cons, ih, List.map_cons]
    exact List.append_assoc ..

/-- Repairs are those of the findings that are reported. -/
theorem draft_reportAll (r : Reporter) (findings : List Finding) :
    (r.reportAll findings).draft = findings.foldl mend r.draft := by
  unfold reportAll
  induction findings generalizing r with
  | nil => rfl
  | cons finding findings ih => exact ih (r.report finding)

end Reporter

end EntityLint
