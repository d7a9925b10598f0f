import EntityLint.Report.Violation

/-!
# Results of a run

* `LintResult`, `LintResult.empty`, `LintResult.extend`;
* `LintResult.countOf`, `LintResult.hasAtLeast`, `LintResult.summary`.
-/

namespace EntityLint

/-- What rules have found in some files. -/
structure LintResult where
  violations : List Violation
  /-- The number of files that were checked. -/
  filesChecked : Nat
  fixedFiles : List FixedFile
  deriving DecidableEq, Repr

namespace LintResult

/-- The result of checking nothing. -/
def empty : LintResult := ⟨[], 0, []⟩

/-- Two results one after the other. -/
def extend (r s : LintResult) : LintResult :=
  ⟨r.violations ++ s.violations, r.filesChecked + s.filesChecked, r.fixedFiles ++ s.fixedFiles⟩

/-- The violations of a severity, in order. -/
def ofSeverity (r : LintResult) (s : Severity) : List Violation :=
  r.violations.filter fun v => v.severity = s

/-- The number of violations of a severity. -/
def countOf (r : LintResult) (s : Severity) : Nat := (r.ofSeverity s).length

/-- Whether a violation is at least as serious as a severity. -/
def hasAtLeast (r : LintResult) (s : Severity) : Bool :=
  r.violations.any fun v => s.level ≤ v.severity.level

/-- The number of violations that rules know how to mend. -/
def fixableCount (r : LintResult) : Nat := r.violations.countP Violation.fixable

/-- The result in one line. -/
def summary (r : LintResult) : String :=
  let errors := r.countOf .error
  let warnings := r.countOf .warning
  let infos := r.countOf .info
  let found := s!"Found {errors} error(s), {warnings} warning(s), {infos} info(s)"
  s!"{found} in {r.filesChecked} file(s); {r.fixableCount} fixable"

end LintResult

end EntityLint
