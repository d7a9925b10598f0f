import EntityLint.Proofs.Bounds.Properties
import EntityLint.Proofs.Mapping.Ownership
import EntityLint.Proofs.Rule.Faults
import EntityLint.Proofs.Rule.InterfaceNames
import EntityLint.Proofs.Rule.ReturnLines

/-!
# Where findings are

A rule reports its findings at tokens that the file has: at the name of an interface, at a return
statement, and for a mapping at the variable of the property, at an annotation of it or at a method
that the mapping implies.

* `AllIn`: findings at tokens of a file;
* `SourceFile.position_lt_size`: the annotations that are read for a property are in the file;
* `PropertyCheck.IsFault.token_lt_size`: so are all faults of these annotations.

The main statement is `Rule.IsBuiltIn.allIn_findings`.
-/

namespace EntityLint

variable {f : SourceFile}

/-- All findings are at tokens of a file. -/
def AllIn (f : SourceFile) (xs : List Finding) : Prop := ∀ x ∈ xs, x.token < f.tokens.size

/-- The findings of a contract are in the file if its annotation is: methods are tokens of it. -/
theorem Contract.answers_allIn {c : Contract} {bases : BaseTypes} {tagToken : ℕ}
    (h : tagToken < f.tokens.size) : Answers (AllIn f) (c.findings bases f tagToken) := by
  refine answers_faultsAt.imp fun xs hxs x hx => ?_
  obtain ⟨token, ending, message, rfl, rfl | ⟨name, hname⟩⟩ := hxs x hx
  · exact h
  · exact Guarded.lt_size_of_find? hname

/-! ### Annotations -/

/-- The annotations that are read for a property stand in front of it, so they are in the file. -/
theorem SourceFile.position_lt_size {path : String} {source : Text}
    (h : parse path source = .ok f) {p : ℕ} {ruleCode : Text} {tag : MappingTag}
    (htag : tag ∈ (f.propertyTags p ruleCode).tags) : tag.position < f.tokens.size := by
  obtain ⟨r, hr, -, hlt⟩ := exists_mem_annotationsOf h htag
  have hleads := ownerOf?_eq_some_iff.1 (closer_of_mem_annotationsOf h hr).2
  obtain ⟨k, -, hk⟩ := hleads.declares
  exact (hlt.trans hleads.lt).trans (lt_size_of_kindAt hk)

/-! ### Findings of a property -/

namespace PropertyCheck

variable {p : PropertyCheck} {tag : MappingTag} {x : Finding}

theorem token_of_mem_nameFindings (hx : x ∈ p.nameFindings tag) : x.token = tag.position := by
  obtain ⟨_, _, _, -, rfl⟩ := exists_of_mem_nameFindings hx
  rfl

/-- A fault of an annotation is in the file, if the annotation and its property are. -/
theorem IsFault.token_lt_size (hp : p.token < p.file.tokens.size)
    (htag : tag.position < p.file.tokens.size) (h : p.IsFault tag x) :
    x.token < p.file.tokens.size := by
  cases h with
  | name hx => rwa [token_of_mem_nameFindings hx]
  | written _ _ => exact htag
  | collection _ _ _ => exact hp
  | constructor _ _ => exact hp
  | accessor c memo hx => exact Contract.answers_allIn htag memo x hx

end PropertyCheck

/-! ### The rules -/

section OfParse

variable {path : String} {source : Text} (h : SourceFile.parse path source = .ok f)

include h

theorem EntityMapping.allIn_findings (options : MappingOptions) : AllIn f (findings options f) := by
  intro x hx
  obtain ⟨i, hi, tag, htag, hfault⟩ := exists_isFault hx
  exact hfault.token_lt_size (SourceFile.lt_size_of_mem_propertyTokens hi)
    (SourceFile.position_lt_size h htag)

/-- **The findings of all rules are at tokens of the file.** -/
theorem Rule.IsBuiltIn.allIn_findings {rule : Rule} (hrule : rule.IsBuiltIn) :
    AllIn f (rule.findings f) := by
  obtain ⟨options, hrule⟩ := hrule
  simp only [RuleSet.withOptions, List.mem_cons, List.not_mem_nil, or_false] at hrule
  rcases hrule with rfl | rfl | rfl
  · exact EntityMapping.allIn_findings h options
  · intro x hx
    obtain ⟨⟨⟨_, -, hname⟩, -⟩, -⟩ := InterfaceSuffix.mem_findings hx
    exact SourceFile.lt_size_of_kindAt (InterfaceSuffix.kindAt_of_nameOf? hname)
  · intro x hx
    exact SourceFile.lt_size_of_kindAt (BlankLineBeforeReturn.exists_finding_iff.1 ⟨x, hx, rfl⟩).1

end OfParse

end EntityLint
