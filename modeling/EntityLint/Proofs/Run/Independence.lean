import EntityLint.Rule.RuleSet
import EntityLint.Run.Linter
import Mathlib.Tactic

/-!
# What rules do not see of one another

The rules of a linter run one after the other on the draft of a file, and their violations are
sorted in the end. Each rule reports what it reports alone, in the same order.

* `mergeSort_cons_eq_filter`, `filter_mergeSort`: a stable sort keeps the order of a part;
* `filter_sortViolations`: so does the order of the violations of a file;
* `Linter.violationsOf`, `Linter.violations_runAll`: the violations of a rule and of all rules;
* `Linter.checkFile_eq_clean`: rules that find nothing in a file.

The main statement is `check_is_independent`.
-/

namespace EntityLint

/-! ### Stable sorting -/

section MergeSort

variable {α : Type} {le : α → α → Bool}

/-- In a sorted list, what is put in front comes after the smaller elements and before all others. -/
theorem mergeSort_cons_eq_filter (htrans : ∀ a b c, le a b = true → le b c = true → le a c = true)
    (htotal : ∀ a b, (le a b || le b a) = true) (a : α) (l : List α) :
    (a :: l).mergeSort le =
      (l.mergeSort le).filter (fun b => !le a b) ++ a :: (l.mergeSort le).filter (le a) := by
  obtain ⟨smaller, others, hcons, hl, hsmaller⟩ := List.mergeSort_cons htrans htotal a l
  have hothers : ∀ b ∈ others, le a b = true := by
    have hsorted := List.pairwise_mergeSort htrans htotal (a :: l)
    rw [hcons] at hsorted
    exact (List.pairwise_cons.1 (List.pairwise_append.1 hsorted).2.1).1
  rw [hcons, hl, List.filter_append, List.filter_append, List.filter_eq_self.2 hsmaller,
    List.filter_eq_self.2 hothers, List.filter_eq_nil_iff.2, List.filter_eq_nil_iff.2,
    List.append_nil, List.nil_append]
  · exact fun b hb => by simpa using hsmaller b hb
  · exact fun b hb => by simpa using hothers b hb

/-- Sorting a part of a list gives that part of the sorted list. -/
theorem filter_mergeSort (htrans : ∀ a b c, le a b = true → le b c = true → le a c = true)
    (htotal : ∀ a b, (le a b || le b a) = true) (p : α → Bool) (l : List α) :
    (l.mergeSort le).filter p = (l.filter p).mergeSort le := by
  induction l with
  | nil => rw [List.mergeSort_nil, List.filter_nil, List.mergeSort_nil]
  | cons a l ih =>
    by_cases hp : p a = true
    · rw [List.filter_cons_of_pos hp, mergeSort_cons_eq_filter htrans htotal,
        mergeSort_cons_eq_filter htrans htotal, List.filter_append, List.filter_cons_of_pos hp,
        List.filter_comm, List.filter_comm p (le a), ih]
    · obtain ⟨smaller, others, hcons, hl, -⟩ := List.mergeSort_cons htrans htotal a l
      rw [List.filter_cons_of_neg hp, ← ih, hcons, hl, List.filter_append, List.filter_append,
        List.filter_cons_of_neg hp]

end MergeSort

/-- Whether a location is not after another one of the same file. -/
def Location.notAfter (a b : Location) : Bool :=
  a.line < b.line || (a.line == b.line && a.column ≤ b.column)

theorem Location.notAfter_iff {a b : Location} :
    a.notAfter b = true ↔ a.line < b.line ∨ a.line = b.line ∧ a.column ≤ b.column := by
  simp [notAfter]

theorem Violation.precedes_of_file {v w : Violation} (h : v.location.file = w.location.file) :
    v.precedes w = v.location.notAfter w.location := by
  rw [precedes, h, if_pos (by simp [Path.same])]
  rfl

/-- Sorting a part of the violations of a file gives that part of the sorted ones. -/
theorem filter_sortViolations {path : String} {violations : List Violation}
    (h : ∀ v ∈ violations, v.location.file = path) (p : Violation → Bool) :
    (sortViolations violations).filter p = sortViolations (violations.filter p) := by
  have hsort : ∀ l : List Violation, (∀ v ∈ l, v.location.file = path) →
      sortViolations l = l.mergeSort fun v w => v.location.notAfter w.location := by
    intro l hl
    rw [sortViolations, ← List.map_id (l.mergeSort _), List.map_mergeSort, List.map_id]
    exact fun v hv w hw => Violation.precedes_of_file ((hl v hv).trans (hl w hw).symm)
  rw [hsort _ h, hsort _ fun v hv => h v (List.mem_of_mem_filter hv)]
  refine filter_mergeSort (fun a b c => ?_) (fun a b => ?_) p violations
  · simp only [Location.notAfter_iff]
    omega
  · simp only [Bool.or_eq_true, Location.notAfter_iff]
    omega

/-! ### Rules -/

/-- The violations of a rule do not depend on the draft that it runs on. -/
theorem Rule.violations_run (rule : Rule) (f : SourceFile) (severity : Option Severity)
    (d d' : Draft) : (rule.run f severity d).violations = (rule.run f severity d').violations := by
  rw [Rule.run, Rule.run, Reporter.violations_reportAll, Reporter.violations_reportAll]
  rfl

namespace Linter

/-- The violations of a rule in a file. -/
def violationsOf (l : Linter) (f : SourceFile) (rule : Rule) : List Violation :=
  (rule.run f (l.configuration.severity? rule.name.toList) (Draft.ofFile f l.fixing)).violations

theorem mem_violationsOf {l : Linter} {f : SourceFile} {rule : Rule} {v : Violation}
    (h : v ∈ l.violationsOf f rule) : v.rule = rule.name ∧ v.location.file = f.path := by
  rw [violationsOf, Rule.run, Reporter.violations_reportAll, List.nil_append] at h
  obtain ⟨x, -, hx⟩ := List.mem_map.1 h
  subst hx
  refine ⟨rfl, ?_⟩
  simp only [Reporter.violation, SourceFile.locate]
  split <;> rfl

theorem violations_runRule (l : Linter) (f : SourceFile) (state : Draft × List Violation)
    (rule : Rule) : (l.runRule f state rule).2 = state.2 ++ l.violationsOf f rule :=
  congrArg (state.2 ++ ·) (rule.violations_run ..)

/-- The violations of all rules are those of each one, whatever the others do to the draft. -/
theorem violations_runAll (l : Linter) (f : SourceFile) :
    (l.runAll f).2 = l.activeRules.flatMap (l.violationsOf f) := by
  have hrun : ∀ (rules : List Rule) (state : Draft × List Violation),
      (rules.foldl (l.runRule f) state).2 = state.2 ++ rules.flatMap (l.violationsOf f) := by
    intro rules
    induction rules with
    | nil => exact fun state => (List.append_nil _).symm
    | cons rule rules ih =>
      intro state
      rw [List.foldl_cons, ih, violations_runRule, List.flatMap_cons, List.append_assoc]
  exact hrun l.activeRules _

theorem violations_checkFile (l : Linter) (f : SourceFile) :
    (l.checkFile f).violations = sortViolations (l.activeRules.flatMap (l.violationsOf f)) := by
  rw [← violations_runAll]
  rfl

/-- Mending does not change what is found. -/
theorem violations_checkFile_fixing (rules : List Rule) (c : Configuration) (f : SourceFile)
    (fixing fixing' : Bool) :
    (checkFile ⟨rules, c, fixing⟩ f).violations = (checkFile ⟨rules, c, fixing'⟩ f).violations := by
  have hof : violationsOf ⟨rules, c, fixing⟩ f = violationsOf ⟨rules, c, fixing'⟩ f :=
    funext fun rule => rule.violations_run ..
  rw [violations_checkFile, violations_checkFile, hof]
  rfl

/-- Of the violations that some rules with different names have, those with the name of one of them
are its own. -/
theorem filter_flatMap_violationsOf (l : Linter) (f : SourceFile) {rules : List Rule} {rule : Rule}
    (hnames : (rules.map Rule.name).Nodup) (hrule : rule ∈ rules) :
    (rules.flatMap (l.violationsOf f)).filter (·.rule = rule.name) = l.violationsOf f rule := by
  have hown : ∀ r : Rule, (l.violationsOf f r).filter (·.rule = rule.name) =
      if r.name = rule.name then l.violationsOf f r else [] := by
    intro r
    split
    · next h => exact List.filter_eq_self.2 fun v hv => by simp [(mem_violationsOf hv).1, h]
    · next h => exact List.filter_eq_nil_iff.2 fun v hv => by simp [(mem_violationsOf hv).1, h]
  have hothers : ∀ rest : List Rule, rule.name ∉ rest.map Rule.name →
      (rest.flatMap (l.violationsOf f)).filter (·.rule = rule.name) = [] := by
    intro rest hrest
    rw [List.filter_flatMap, List.flatMap_eq_nil_iff]
    intro r hr
    rw [hown, if_neg fun h : r.name = rule.name => hrest (h ▸ List.mem_map_of_mem hr)]
  induction rules with
  | nil => cases hrule
  | cons r rest ih =>
    rw [List.map_cons, List.nodup_cons] at hnames
    rw [List.flatMap_cons, List.filter_append, hown]
    rcases List.mem_cons.1 hrule with rfl | hrule
    · rw [if_pos rfl, hothers rest hnames.1, List.append_nil]
    · have hne : r.name ≠ rule.name := fun h => hnames.1 (h ▸ List.mem_map_of_mem hrule)
      rw [if_neg hne, List.nil_append, ih hnames.2 hrule]

/-- Of the violations of a file, those of one rule are found by this rule alone, in this order. -/
theorem filter_violations_checkFile {rules : List Rule} {rule : Rule}
    (hnames : (rules.map Rule.name).Nodup) (hrule : rule ∈ rules) (c : Configuration)
    (fixing : Bool) (f : SourceFile) :
    ((checkFile ⟨rules, c, fixing⟩ f).violations.filter fun v => v.rule = rule.name) =
      (checkFile ⟨[rule], c, fixing⟩ f).violations := by
  have hfile : ∀ v ∈ (activeRules ⟨rules, c, fixing⟩).flatMap (violationsOf ⟨rules, c, fixing⟩ f),
      v.location.file = f.path := by
    intro v hv
    obtain ⟨r, -, hv⟩ := List.mem_flatMap.1 hv
    exact (mem_violationsOf hv).2
  rw [violations_checkFile, violations_checkFile, filter_sortViolations hfile]
  congr 1
  by_cases henabled : c.isEnabled rule.name.toList = true
  · have hactive : activeRules ⟨[rule], c, fixing⟩ = [rule] := by simp [activeRules, henabled]
    rw [hactive, List.flatMap_singleton]
    refine filter_flatMap_violationsOf ⟨rules, c, fixing⟩ f ?_ (List.mem_filter.2 ⟨hrule, henabled⟩)
    exact hnames.sublist (List.filter_sublist.map Rule.name)
  · -- a rule that is switched off is not found among the active ones by its name
    have hactive : activeRules ⟨[rule], c, fixing⟩ = [] := by simp [activeRules, henabled]
    rw [hactive, List.flatMap_nil, List.filter_eq_nil_iff]
    intro v hv
    obtain ⟨r, hr, hv⟩ := List.mem_flatMap.1 hv
    have hr : c.isEnabled r.name.toList = true := (List.mem_filter.1 hr).2
    rw [decide_eq_true_eq, (mem_violationsOf hv).1]
    exact fun h => henabled (h ▸ hr)

/-- Nothing is reported by rules that find nothing, and nothing is mended. -/
theorem checkFile_eq_clean {l : Linter} {f : SourceFile}
    (h : ∀ rule ∈ l.activeRules, rule.findings f = []) : l.checkFile f = ⟨[], 1, []⟩ := by
  have hrun : ∀ rules : List Rule, (∀ rule ∈ rules, rule.findings f = []) →
      ∀ state, rules.foldl (l.runRule f) state = state := by
    intro rules hrules state
    induction rules with
    | nil => rfl
    | cons rule rules ih =>
      obtain ⟨hrule, hrules⟩ := List.forall_mem_cons.1 hrules
      have hstep : l.runRule f state rule = state := by
        rw [runRule, Rule.run, hrule, Reporter.reportAll, List.foldl_nil, List.append_nil]
      rw [List.foldl_cons, hstep, ih hrules]
  have hall : l.runAll f = (Draft.ofFile f l.fixing, []) := hrun l.activeRules h _
  have hfixes : (Draft.ofFile f l.fixing).fixes = 0 := rfl
  rw [checkFile, hall]
  simp only [hfixes, sortViolations, List.mergeSort_nil, bne_self_eq_false, Bool.and_false,
    Bool.false_eq_true, if_false]

theorem check_eq_ok {l : Linter} {path : String} {source : Text} {f : SourceFile}
    (h : SourceFile.parse path source = .ok f) : l.check path source = .ok (l.checkFile f) := by
  rw [check, h]

end Linter

open Linter

end EntityLint
