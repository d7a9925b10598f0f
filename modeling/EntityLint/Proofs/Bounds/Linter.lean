import EntityLint.Proofs.Bounds.Properties
import EntityLint.Proofs.Bounds.Rules
import EntityLint.Proofs.Bounds.Tokens
import EntityLint.Run.Linter

/-!
# Checking a text stays in its bounds

A text is checked once more by a run that asks each index, each cut and each difference whether it is
allowed, and stops where it is not.

* `BuiltinRule`: the rules that there are;
* `Guarded.check`: the run.

The main statement is `Linter.check_in_bounds`: the run stops for no such reason.
-/

namespace EntityLint

open Checked

/-- The rules that there are. -/
inductive BuiltinRule
  | mapping (options : MappingOptions)
  | interfaceSuffix
  | blankLineBeforeReturn
  deriving DecidableEq, Repr

/-- A rule as it is run. -/
def BuiltinRule.rule : BuiltinRule → Rule
  | mapping options => EntityMapping.rule options
  | interfaceSuffix => InterfaceSuffix.rule
  | blankLineBeforeReturn => BlankLineBeforeReturn.rule

namespace Guarded

/-- What a rule finds in a file. Names of interfaces are found without an index. -/
def ruleFindings (f : SourceFile) : BuiltinRule → Checked (List Finding)
  | .mapping options => mappingFindings options f
  | .interfaceSuffix => return InterfaceSuffix.rule.findings f
  | .blankLineBeforeReturn => (Rule.tokensOfKind .kwReturn f).filterMapM (returnFinding? f)

/-- The draft of a file before any edit. -/
def draftOf (f : SourceFile) (fixing : Bool) : Checked Draft := do
  return ⟨fixing, ← lineEnd f, f.tokens.map fun t => ⟨t.text, false⟩, none, 0⟩

/-- Run a rule on a file whose draft is given, and add its violations to those before. -/
def runRule (c : Configuration) (f : SourceFile) (state : Draft × List Violation)
    (b : BuiltinRule) : Checked (Draft × List Violation) := do
  let severity := c.severity? b.rule.name.toList
  let r ← reportAll ⟨f, b.rule.code, b.rule.name, severity, state.1, []⟩ (← ruleFindings f b)
  return (r.draft, state.2 ++ r.violations)

/-- The result for a file. -/
def checkFile (rules : List BuiltinRule) (c : Configuration) (fixing : Bool) (f : SourceFile) :
    Checked LintResult := do
  let active := rules.filter fun b => c.isEnabled b.rule.name.toList
  let (draft, violations) ← active.foldlM (runRule c f) (← draftOf f fixing, [])
  return {
    violations := sortViolations violations
    filesChecked := 1
    fixedFiles :=
      if fixing && draft.fixes != 0 then [⟨f.path, String.ofList draft.text, draft.fixes⟩]
      else [] }

/-- The result for a text, as the file at a path. -/
def check (rules : List BuiltinRule) (c : Configuration) (fix : Option Bool) (path : String)
    (source : Text) : Checked LintResult := do
  let tokens ← tokenize source
  checkFile rules c (fix.getD c.files.fix) ⟨path, source, tokens.toArray⟩

variable {f : SourceFile}

theorem ruleFindings_eq (hf : f.Linked) (b : BuiltinRule) :
    ruleFindings f b = .ok (b.rule.findings f) := by
  cases b with
  | mapping options => exact mappingFindings_eq hf options
  | interfaceSuffix => rfl
  | blankLineBeforeReturn =>
    refine filterMapM_eq fun i hi => returnFinding?_eq ?_
    obtain ⟨⟨t, j⟩, hmem, rfl⟩ := List.mem_map.1 hi
    simpa using (List.mem_zipIdx (List.mem_filter.1 hmem).1).2.1

theorem draftOf_eq (f : SourceFile) (fixing : Bool) :
    draftOf f fixing = .ok (Draft.ofFile f fixing) := by
  rw [draftOf, lineEnd_eq]
  rfl

/-- A rule leaves a sound draft to the next one. -/
theorem runRule_eq (hf : f.Linked) (l : Linter) {state : Draft × List Violation}
    (hd : state.1.Sound f) (b : BuiltinRule) :
    runRule l.configuration f state b = .ok (l.runRule f state b.rule) ∧
      (l.runRule f state b.rule).1.Sound f := by
  have hreport := reportAll_eq (f := f) (r := ⟨f, b.rule.code, b.rule.name,
    l.configuration.severity? b.rule.name.toList, state.1, []⟩) hd (b.rule.findings f)
  rw [runRule, ruleFindings_eq hf, ok_bind]
  rw [hreport.1]
  exact ⟨rfl, hreport.2⟩

theorem runRules_eq (hf : f.Linked) (l : Linter) (rules : List BuiltinRule)
    {state : Draft × List Violation} (hd : state.1.Sound f) :
    rules.foldlM (runRule l.configuration f) state =
      .ok ((rules.map BuiltinRule.rule).foldl (l.runRule f) state) := by
  induction rules generalizing state with
  | nil => rfl
  | cons b rules ih =>
    obtain ⟨hrun, hsound⟩ := runRule_eq hf l hd b
    rw [List.foldlM_cons, hrun, ok_bind, List.map_cons, List.foldl_cons]
    exact ih hsound

theorem checkFile_eq (hf : f.Linked) (rules : List BuiltinRule) (c : Configuration)
    (fixing : Bool) : checkFile rules c fixing f =
      .ok ((Linter.mk (rules.map BuiltinRule.rule) c fixing).checkFile f) := by
  have hactive : (Linter.mk (rules.map BuiltinRule.rule) c fixing).activeRules =
      (rules.filter fun b => c.isEnabled b.rule.name.toList).map BuiltinRule.rule := by
    rw [Linter.activeRules, List.filter_map]
    rfl
  rw [checkFile, draftOf_eq, ok_bind, Linter.checkFile, Linter.runAll, hactive]
  dsimp only
  rw [runRules_eq hf (Linter.mk (rules.map BuiltinRule.rule) c fixing) _
    (Draft.sound_ofFile f fixing)]
  rfl

end Guarded

namespace Linter

/-- **Checking a text stays in its bounds.** For all texts, configurations and sets of rules, in fix
mode or not, there is a result unless the text has no token stream. It is that of a run which stops
at an index that is not there, at a cut inside of a character, at a difference below zero and at a
loop that does not get on. -/
theorem check_in_bounds (rules : List BuiltinRule) (c : Configuration) (fix : Option Bool)
    (path : String) (source : Text) :
    let l := make (rules.map BuiltinRule.rule) c fix
    (∃ r, Guarded.check rules c fix path source = .ok r ∧ l.check path source = .ok r) ∨
    ∃ cause, tokenize source = .error cause ∧
      Guarded.check rules c fix path source = .error (.failure cause) ∧
      l.check path source = .error ⟨path, cause⟩ := by
  intro l
  rw [Guarded.check, Guarded.tokenize_eq]
  cases htokens : tokenize source with
  | error cause =>
    refine .inr ⟨cause, rfl, rfl, ?_⟩
    rw [check, SourceFile.parse, htokens]
    rfl
  | ok tokens =>
    have hparse : SourceFile.parse path source = .ok ⟨path, source, tokens.toArray⟩ := by
      rw [SourceFile.parse, htokens]
      rfl
    refine .inl ⟨_, ?_, by rw [check, hparse]⟩
    exact Guarded.checkFile_eq (SourceFile.linked_of_parse hparse) rules c _

end Linter

end EntityLint
