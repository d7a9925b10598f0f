import EntityLint.Proofs.Rule.Repairs
import EntityLint.Proofs.Run.Independence

/-!
# Rules do not look at paths

What a rule finds in a file, and so how the file is mended, follows from its text. The path only says
where the violations are.

* `SourceFile.docEntries_path`, `SourceFile.propertyTags_path`: the annotations of a property;
* `Rule.IsBuiltIn.findings_path`: what a rule finds;
* `Linter.mending?`: the text that a text becomes, and the number of changes.

The main statement is `Linter.fixedFiles_of_check`.
-/

namespace EntityLint

variable (path path' : String) (source : Text) (tokens : Array Token)

namespace SourceFile

/-- The entries of a doc comment, whatever the path. -/
theorem docEntries_path (close start : ℕ) (tags : List ℕ) :
    docEntries ⟨path, source, tokens⟩ close start tags =
      docEntries ⟨path', source, tokens⟩ close start tags := by
  induction tags generalizing start with
  | nil => rfl
  | cons tag tags ih =>
    rw [docEntries, docEntries]
    simp only [ih]
    rfl

theorem docTags_path (comment : Range) : docTags ⟨path, source, tokens⟩ comment =
    docTags ⟨path', source, tokens⟩ comment := by
  rw [docTags, docTags, docEntriesOf, docEntriesOf, docEntries_path path path']
  rfl

theorem docVarType?_path (comment : Range) : docVarType? ⟨path, source, tokens⟩ comment =
    docVarType? ⟨path', source, tokens⟩ comment := by
  rw [docVarType?, docVarType?, docEntriesOf, docEntriesOf, docEntries_path path path']
  rfl

/-- The annotations of attribute groups. Searches that go on by a measure are looked into, too. -/
theorem nativeTags_path (declaration : ℕ) : nativeTags ⟨path, source, tokens⟩ declaration =
    nativeTags ⟨path', source, tokens⟩ declaration := by
  with_unfolding_all rfl

theorem propertyTags_path (declaration : ℕ) (ruleCode : Text) :
    propertyTags ⟨path, source, tokens⟩ declaration ruleCode =
      propertyTags ⟨path', source, tokens⟩ declaration ruleCode := by
  unfold propertyTags
  simp only [docTags_path path path', docVarType?_path path path', nativeTags_path path path']
  rfl

end SourceFile

/-- The findings of a property with given annotations. -/
theorem PropertyCheck.findings_path (options : MappingOptions) (token : ℕ) (tags : PropertyTags) :
    findings ⟨options, ⟨path, source, tokens⟩, token, tags⟩ =
      findings ⟨options, ⟨path', source, tokens⟩, token, tags⟩ := by
  with_unfolding_all rfl

theorem EntityMapping.findings_path (options : MappingOptions) :
    findings options ⟨path, source, tokens⟩ = findings options ⟨path', source, tokens⟩ := by
  have hproperty : propertyFindings options ⟨path, source, tokens⟩ =
      propertyFindings options ⟨path', source, tokens⟩ := by
    funext i
    unfold propertyFindings
    rw [SourceFile.propertyTags_path path path']
    simp only [PropertyCheck.findings_path path path']
  unfold findings
  rw [hproperty]
  rfl

/-- What a rule finds does not depend on the path. -/
theorem Rule.IsBuiltIn.findings_path {rule : Rule} (hrule : rule.IsBuiltIn) :
    rule.findings ⟨path, source, tokens⟩ = rule.findings ⟨path', source, tokens⟩ := by
  obtain ⟨options, hrule⟩ := hrule
  simp only [RuleSet.withOptions, List.mem_cons, List.not_mem_nil, or_false] at hrule
  rcases hrule with rfl | rfl | rfl
  · exact EntityMapping.findings_path path path' source tokens options
  · rfl
  · rfl

namespace Linter

variable {l : Linter}

/-- Nor does the draft of a file after all rules. -/
theorem draft_runAll_path (hrules : ∀ rule ∈ l.rules, rule.IsBuiltIn) :
    (l.runAll ⟨path, source, tokens⟩).1 = (l.runAll ⟨path', source, tokens⟩).1 := by
  have hrun : ∀ rules : List Rule, (∀ rule ∈ rules, rule.IsBuiltIn) →
      ∀ state state' : Draft × List Violation, state.1 = state'.1 →
      (rules.foldl (l.runRule ⟨path, source, tokens⟩) state).1 =
        (rules.foldl (l.runRule ⟨path', source, tokens⟩) state').1 := by
    intro rules hrules
    induction rules with
    | nil => exact fun _ _ h => h
    | cons rule rules ih =>
      obtain ⟨hrule, hrules⟩ := List.forall_mem_cons.1 hrules
      refine fun state state' h => ih hrules _ _ ?_
      simp only [runRule, Rule.run, Reporter.draft_reportAll, h,
        hrule.findings_path path path' source tokens]
  exact hrun l.activeRules (fun rule hrule => hrules rule (List.mem_of_mem_filter hrule)) _ _ rfl

/-- The text that a text becomes when it is mended, and the number of changes, if there are any. -/
def mending? (l : Linter) (source : Text) : Option (String × ℕ) :=
  match l.check "" source with
  | .ok result => result.fixedFiles.head?.map fun fixed => (fixed.content, fixed.fixes)
  | .error _ => none

/-- Nothing is mended if that is not asked for. -/
theorem mending?_eq_none (h : l.fixing = false) (source : Text) : l.mending? source = none := by
  rw [mending?, check]
  cases SourceFile.parse "" source with
  | error e => rfl
  | ok f =>
    dsimp only
    rw [checkFile, h]
    rfl

/-- **How a file is mended follows from its text.** A file is fixed if and only if its text is mended by
some changes, and then it gets the mended text, whatever its path. -/
theorem fixedFiles_of_check (hrules : ∀ rule ∈ l.rules, rule.IsBuiltIn) {result : LintResult}
    {source : Text} (h : l.check path source = .ok result) :
    result.fixedFiles = (l.mending? source).toList.map (fun x => ⟨path, x.1, x.2⟩) ∧
      ∀ x ∈ l.mending? source, 0 < x.2 := by
  unfold check at h
  cases hparse : SourceFile.parse path source with
  | error e =>
    rw [hparse] at h
    cases h
  | ok f =>
    rw [hparse] at h
    obtain rfl := Except.ok.inj h
    obtain ⟨tokens, htokens, rfl⟩ := SourceFile.exists_tokens_of_parse hparse
    have hparse' : SourceFile.parse "" source = .ok ⟨"", source, tokens.toArray⟩ := by
      rw [SourceFile.parse, htokens]
      rfl
    have hdraft := draft_runAll_path "" path source tokens.toArray hrules
    rw [mending?, check_eq_ok hparse', checkFile, checkFile]
    dsimp only
    rw [hdraft]
    split
    · next hfixes =>
      refine ⟨rfl, fun x hx => ?_⟩
      obtain rfl := Option.some.inj hx
      simp only [Bool.and_eq_true, bne_iff_ne, ne_eq] at hfixes
      exact Nat.pos_of_ne_zero hfixes.2
    · exact ⟨rfl, fun x hx => by cases hx⟩

end Linter

end EntityLint
