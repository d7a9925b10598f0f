import EntityLint.Report.JsonForm
import Mathlib.Tactic

/-!
# Reading JSON forms back

A record is read back from its JSON form, whether or not there was something to write in the fields
that may be left out. Only a number of more than 64 bits is not read.

* `JsonValue.word?_natural_eq_some_iff`, `list?_map_iff`: numbers and lists that are read back;
* `Location.Fits`, `FixedFile.Fits`, `LintResult.Fits`: records whose numbers have 64 bits;
* `Location.ofJson?_toJson_iff`, `Violation.ofJson?_toJson_iff`, `FixedFile.ofJson?_toJson_iff`: the
  parts of a result;
* `LintResult.mem_keys_toJson`, `Violation.mem_keys_toJson`: the fields that may be left out.

The main statement is `LintResult.results_are_read_back_iff`.
-/

namespace EntityLint

namespace JsonValue

/-- The names of the fields of a record, in order. -/
def keys : JsonValue → List String
  | object fields => fields.map Prod.fst
  | _ => []

theorem word?_natural_eq_some_iff {n m : ℕ} :
    word? (.natural n) = some m ↔ n < 2 ^ 64 ∧ n = m := by
  rw [word?, Option.ite_none_right_eq_some, Option.some.injEq]
  rfl

/-- A list is read back where all its items are. -/
theorem list?_map_iff {α : Type} {read : JsonValue → Option α} {write : α → JsonValue}
    {as : List α} :
    list? read (.array (as.map write)) = some as ↔ ∀ a ∈ as, read (write a) = some a := by
  rw [list?]
  induction as with
  | nil => simp
  | cons a as ih =>
    rw [List.map_cons, List.mapM_cons, List.forall_mem_cons, ← ih]
    cases read (write a) <;> cases (as.map write).mapM read <;> simp

end JsonValue

open JsonValue

/-! ### The parts of a result -/

/-- The numbers of a location have 64 bits. -/
structure Location.Fits (l : Location) : Prop where
  line : l.line < 2 ^ 64
  column : l.column < 2 ^ 64
  offset : l.offset < 2 ^ 64
  length : l.length < 2 ^ 64

/-- The number of changes has 64 bits. -/
def FixedFile.Fits (f : FixedFile) : Prop := f.fixes < 2 ^ 64

theorem Location.ofJson?_toJson_iff {l : Location} : ofJson? l.toJson = some l ↔ l.Fits := by
  have hread : ofJson? l.toJson = (do
      return ⟨l.file, ← word? (.natural l.line), ← word? (.natural l.column),
        ← word? (.natural l.offset), ← word? (.natural l.length)⟩) := rfl
  rw [hread]
  simp only [bind, Option.bind_eq_some_iff, word?_natural_eq_some_iff, pure, Option.some.injEq]
  constructor
  · rintro ⟨_, ⟨hline, rfl⟩, _, ⟨hcolumn, rfl⟩, _, ⟨hoffset, rfl⟩, _, ⟨hlength, rfl⟩, -⟩
    exact ⟨hline, hcolumn, hoffset, hlength⟩
  · rintro ⟨hline, hcolumn, hoffset, hlength⟩
    exact ⟨_, ⟨hline, rfl⟩, _, ⟨hcolumn, rfl⟩, _, ⟨hoffset, rfl⟩, _, ⟨hlength, rfl⟩, rfl⟩

theorem Severity.ofJson?_name (s : Severity) : ofJson? (.string s.name) = some s :=
  ofName?_name s

/-- A hint that is left out is none. -/
theorem Violation.ofJson?_toJson_iff {v : Violation} :
    ofJson? v.toJson = some v ↔ v.location.Fits := by
  have hread : ofJson? v.toJson = (do
      return ⟨v.code, v.rule, ← Severity.ofJson? (.string v.severity.name),
        ← Location.ofJson? v.location.toJson, v.message, v.fixable, v.suggestion⟩) := by
    obtain ⟨code, rule, severity, location, message, fixable, _ | suggestion⟩ := v <;> rfl
  rw [hread, Severity.ofJson?_name, ← Location.ofJson?_toJson_iff]
  cases Location.ofJson? v.location.toJson with
  | none => exact iff_of_false nofun nofun
  | some l => exact ⟨fun h => congrArg (Option.map Violation.location) h, fun h => by cases h; rfl⟩

theorem FixedFile.ofJson?_toJson_iff {f : FixedFile} : ofJson? f.toJson = some f ↔ f.Fits := by
  have hread : ofJson? f.toJson = (do
      return ⟨f.path, f.content, ← word? (.natural f.fixes)⟩) := rfl
  rw [hread]
  simp only [bind, Option.bind_eq_some_iff, word?_natural_eq_some_iff, pure, Option.some.injEq]
  constructor
  · rintro ⟨_, ⟨hfixes, rfl⟩, -⟩
    exact hfixes
  · exact fun hfixes => ⟨_, ⟨hfixes, rfl⟩, rfl⟩

/-! ### Results -/

/-- All numbers of a result have 64 bits. -/
structure LintResult.Fits (r : LintResult) : Prop where
  locations : ∀ v ∈ r.violations, v.location.Fits
  filesChecked : r.filesChecked < 2 ^ 64
  fixedFiles : ∀ f ∈ r.fixedFiles, f.Fits

/-- A list of fixed files that is left out is empty. -/
theorem LintResult.ofJson?_toJson (r : LintResult) : ofJson? r.toJson = (do
    return ⟨← list? Violation.ofJson? (.array (r.violations.map Violation.toJson)),
      ← word? (.natural r.filesChecked),
      ← list? FixedFile.ofJson? (.array (r.fixedFiles.map FixedFile.toJson))⟩) := by
  obtain ⟨violations, filesChecked, _ | ⟨f, fixedFiles⟩⟩ := r <;> rfl

theorem LintResult.ofJson?_toJson_iff {r : LintResult} :
    ofJson? r.toJson = some r ↔ r.Fits := by
  have hviolations : list? Violation.ofJson? (.array (r.violations.map Violation.toJson)) =
      some r.violations ↔ ∀ v ∈ r.violations, v.location.Fits := by
    simp only [list?_map_iff, Violation.ofJson?_toJson_iff]
  have hfiles : list? FixedFile.ofJson? (.array (r.fixedFiles.map FixedFile.toJson)) =
      some r.fixedFiles ↔ ∀ f ∈ r.fixedFiles, f.Fits := by
    simp only [list?_map_iff, FixedFile.ofJson?_toJson_iff]
  rw [ofJson?_toJson]
  simp only [bind, Option.bind_eq_some_iff, word?_natural_eq_some_iff, pure, Option.some.injEq]
  constructor
  · rintro ⟨vs, hvs, _, ⟨hchecked, rfl⟩, fs, hfs, heq⟩
    obtain rfl : vs = r.violations := congrArg violations heq
    obtain rfl : fs = r.fixedFiles := congrArg fixedFiles heq
    exact ⟨hviolations.1 hvs, hchecked, hfiles.1 hfs⟩
  · rintro ⟨hvs, hchecked, hfs⟩
    exact ⟨_, hviolations.2 hvs, _, ⟨hchecked, rfl⟩, _, hfiles.2 hfs, rfl⟩

theorem Violation.mem_keys_toJson {v : Violation} :
    "suggestion" ∈ v.toJson.keys ↔ v.suggestion.isSome = true := by
  rw [toJson, keys, List.map_append]
  cases v.suggestion <;> simp

theorem LintResult.mem_keys_toJson {r : LintResult} :
    "fixed_files" ∈ r.toJson.keys ↔ r.fixedFiles ≠ [] := by
  rw [toJson, keys, List.map_append]
  cases r.fixedFiles <;> simp

/-- **A result is read back from its JSON form exactly if its numbers have 64 bits**, although the
list of fixed files is not written where it is empty, nor the hint of a violation where there is
none. -/
theorem LintResult.results_are_read_back_iff (r : LintResult) :
    (ofJson? r.toJson = some r ↔ r.Fits) ∧
      ("fixed_files" ∈ r.toJson.keys ↔ r.fixedFiles ≠ []) ∧
      ∀ v ∈ r.violations, "suggestion" ∈ v.toJson.keys ↔ v.suggestion.isSome = true :=
  ⟨ofJson?_toJson_iff, mem_keys_toJson, fun _ _ => Violation.mem_keys_toJson⟩

end EntityLint
