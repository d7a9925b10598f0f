import EntityLint.Proofs.Rule.InterfaceNames
import EntityLint.Proofs.Run.Fixing

/-!
# Interfaces after mending

Mending the names of the interfaces of a file changes the reported tokens alone, and nothing is left to
report.

* `SourceFile.eq_of_locate_eq`, `Linter.exists_located_iff`: where the violations of a single rule are;
* `InterfaceSuffix.lengthens_mended`: the text that mending leaves, token by token.

The main statement is `InterfaceSuffix.interfaces_are_mended`.
-/

namespace EntityLint

open Lexeme Text Linter

/-- Different tokens are at different places. -/
theorem SourceFile.eq_of_locate_eq {path : String} {source : Text} {f : SourceFile}
    (h : SourceFile.parse path source = .ok f) {i j : ℕ} (hi : i < f.tokens.size)
    (hj : j < f.tokens.size) (heq : f.locate i = f.locate j) : i = j := by
  have hti := Array.getElem?_eq_getElem hi
  have htj := Array.getElem?_eq_getElem hj
  have hoffset : f.tokens[i].position.offset = f.tokens[j].position.offset := by
    rw [locate, locate, hti, htj] at heq
    exact congrArg Location.offset heq
  rcases lt_trichotomy i j with hlt | hsame | hlt
  · exact absurd hoffset (offset_lt_of_parse h hlt hti htj).ne
  · exact hsame
  · exact absurd hoffset (offset_lt_of_parse h hlt htj hti).ne'

/-- The violations of the only rule are at the tokens of its findings. -/
theorem Linter.exists_located_iff {rule : Rule} {c : Configuration}
    (henabled : c.isEnabled rule.name.toList = true) (fixing : Bool) (f : SourceFile)
    {location : Location} :
    (∃ v ∈ (checkFile ⟨[rule], c, fixing⟩ f).violations, v.location = location) ↔
      ∃ x ∈ rule.findings f, f.locate x.token = location := by
  have hactive : activeRules ⟨[rule], c, fixing⟩ = [rule] := by simp [activeRules, henabled]
  rw [violations_checkFile, hactive, List.flatMap_singleton]
  simp only [sortViolations, List.mem_mergeSort, violationsOf, Rule.run,
    Reporter.violations_reportAll, List.nil_append, List.mem_map]
  constructor
  · rintro ⟨_, ⟨x, hx, rfl⟩, hlocation⟩
    exact ⟨x, hx, hlocation⟩
  · rintro ⟨x, hx, hlocation⟩
    exact ⟨_, ⟨x, hx, rfl⟩, hlocation⟩

namespace InterfaceSuffix

variable {path : String} {source : Text} {f : SourceFile} {i : ℕ}

theorem IsMisnamed.kindAt (h : IsMisnamed f i) : f.kindAt i = some .word := by
  obtain ⟨⟨keyword, -, hname⟩, -⟩ := h
  exact kindAt_of_nameOf? hname

/-- The edit that a finding asks for. -/
def suffixing (f : SourceFile) (x : Finding) : Edit :=
  .replace x.token (f.textAt x.token ++ suffix)

/-- The draft that the rule leaves, and the tokens that it changes. -/
theorem edited_mended (f : SourceFile) : Draft.Edited f (rule.findings f) (rule.mended f) ∧
    ∀ i, (rule.mended f).isModified i = true ↔ IsMisnamed f i := by
  have hasks : ∀ x ∈ rule.findings f, x.AsksFor (suffixing f x) ∧
      (suffixing f x).token < f.tokens.size := fun x hx =>
    ⟨.inl (mem_findings hx).2, SourceFile.lt_size_of_kindAt (mem_findings hx).1.kindAt⟩
  obtain ⟨hedited, hmodified⟩ := Rule.edited_mended hasks
  exact ⟨hedited, fun i => (hmodified i).trans exists_finding_iff⟩

/-- The names at fault get the suffix, once each. -/
theorem lengthens_mended (f : SourceFile) :
    Lengthens f ((rule.mended f).cells.toList.map Cell.text) := by
  obtain ⟨hedited, hmodified⟩ := edited_mended f
  have hcell : ∀ {i : ℕ} {t : Text}, ((rule.mended f).cells.toList.map Cell.text)[i]? = some t →
      ∃ c, (rule.mended f).cells[i]? = some c ∧ c.text = t := by
    intro i t ht
    rw [List.getElem?_map, Array.getElem?_toList] at ht
    exact Option.map_eq_some_iff.1 ht
  constructor
  · rw [List.length_map, Array.length_toList, hedited.sound.size]
  · intro i t ht hi
    obtain ⟨c, hc, rfl⟩ := hcell ht
    have hchanged := (hmodified i).2 hi
    rw [Draft.isModified_of_getElem? hc] at hchanged
    obtain ⟨x, hx, e, he, rfl, htext⟩ := hedited.asked i c hc hchanged
    obtain rfl := he.unique (.inl (mem_findings hx).2)
    exact htext
  · intro i t ht hi
    obtain ⟨c, hc, rfl⟩ := hcell ht
    have hsame := hedited.sound.text_eq i (Bool.eq_false_iff.2 (mt (hmodified i).1 hi))
    rw [hc] at hsame
    rw [SourceFile.textAt, ← hsame]
    rfl

/-- **Mending gives each reported name its suffix, and does nothing else.** The text that is left has
tokens of the same kinds on the same lines, those at which something is reported are names that have got
the suffix, all others are as before, and nothing is left to report or to mend. -/
theorem interfaces_are_mended (hparse : SourceFile.parse path source = .ok f) (c : Configuration) :
    ∃ r f', check ⟨[rule], c, true⟩ path source = .ok r ∧
      SourceFile.parse path (r.textAfter source) = .ok f' ∧
      f'.tokens.size = f.tokens.size ∧
      (∀ (i : ℕ) t, f.tokens[i]? = some t → ∃ t', f'.tokens[i]? = some t' ∧
        t'.kind = t.kind ∧ t'.position.line = t.position.line ∧
        ((∃ v ∈ r.violations, v.location = f.locate i) →
          t.kind = .word ∧ t'.text = t.text ++ suffix) ∧
        ((∀ v ∈ r.violations, v.location ≠ f.locate i) → t'.text = t.text)) ∧
      ∀ fixing, check ⟨[rule], c, fixing⟩ path (r.textAfter source) = .ok ⟨[], 1, []⟩ := by
  by_cases henabled : c.isEnabled rule.name.toList = true
  · obtain ⟨pieces, hpieces, hreads⟩ := exists_reads_of_parse hparse
    have hlengthens := lengthens_mended f
    obtain ⟨f', hparse', hshape, hts⟩ := SourceFile.parse_of_retold hparse hpieces
      (hlengthens.retold hparse hpieces hreads)
    obtain ⟨pieces', hpieces', hreads'⟩ := exists_reads_of_parse hparse'
    have htexts := hreads'.map_text.trans hts
    have htext : (checkFile ⟨[rule], c, true⟩ f).textAfter source =
        ((rule.mended f).cells.toList.map Cell.text).flatten := by
      rw [textAfter_checkFile hparse rfl (runAll_singleton henabled f ▸ (edited_mended f).1.sound),
        runAll_singleton henabled, Draft.text, List.flatMap_def]
    rw [← htext] at hparse'
    refine ⟨_, f', check_eq_ok hparse, hparse', hshape.size_eq, fun i t ht => ?_, fun fixing => ?_⟩
    · rcases hshape.getElem?_cases i with ⟨hnone, -⟩ | ⟨_, u, p, hti, hti'⟩
      · cases hnone.symm.trans ht
      cases hti.symm.trans ht
      have hreported : (∃ v ∈ (checkFile ⟨[rule], c, true⟩ f).violations,
          v.location = f.locate i) ↔ IsMisnamed f i := by
        rw [exists_located_iff henabled, ← exists_finding_iff]
        constructor
        · rintro ⟨x, hx, hlocation⟩
          exact ⟨x, hx, SourceFile.eq_of_locate_eq hparse
            (SourceFile.lt_size_of_kindAt (mem_findings hx).1.kindAt)
            (Array.getElem?_eq_some_iff.1 ht).1 hlocation⟩
        · rintro ⟨x, hx, hi⟩
          exact ⟨x, hx, hi ▸ rfl⟩
      have htextAt : f.textAt i = t.text := by
        rw [SourceFile.textAt, ht]
        rfl
      have hnew : ((rule.mended f).cells.toList.map Cell.text)[i]? = some u := by
        rw [← hts, List.getElem?_map, Array.getElem?_toList, hti']
        rfl
      refine ⟨_, hti', rfl, hlengthens.line_eq hreads hreads' htexts ht hti', fun hi => ?_,
        fun hi => ?_⟩
      · have hkind := (hreported.1 hi).kindAt
        rw [SourceFile.kindAt, ht] at hkind
        exact ⟨Option.some.inj hkind, htextAt ▸ hlengthens.longer i u hnew (hreported.1 hi)⟩
      · refine htextAt ▸ hlengthens.same i u hnew fun hmis => ?_
        obtain ⟨v, hv, hlocation⟩ := hreported.2 hmis
        exact hi v hv hlocation
    · have hclean := findings_eq_nil_of_lengthens hlengthens hshape hreads hreads' htexts
      rw [check_eq_ok hparse', checkFile_eq_clean fun r hr => ?_]
      rw [List.mem_singleton.1 (List.mem_of_mem_filter hr), hclean]
  · refine ⟨_, f, check_eq_ok hparse, ?_, rfl, fun i t ht => ⟨t, ht, rfl, rfl, ?_, fun _ => rfl⟩,
      fun fixing => ?_⟩
    all_goals rw [checkFile_of_disabled henabled]
    · exact hparse
    · rintro ⟨v, hv, -⟩
      cases hv
    · rw [LintResult.textAfter, check_eq_ok hparse, checkFile_of_disabled henabled]

/-- Two keywords that declare the same name, next to an enum. -/
theorem interfaces_are_mended_shared : ∃ f r f',
    SourceFile.parse "a.php" "<?php interface interface A\x7b\x7d enum B\x7b\x7d".toList = .ok f ∧
    check ⟨[rule], {}, true⟩ "a.php"
      "<?php interface interface A\x7b\x7d enum B\x7b\x7d".toList = .ok r ∧
    r.violations.map Violation.location = [f.locate 6, f.locate 6] ∧
    r.textAfter "<?php interface interface A\x7b\x7d enum B\x7b\x7d".toList =
      "<?php interface interface AInterface\x7b\x7d enum B\x7b\x7d".toList ∧
    SourceFile.parse "a.php"
      "<?php interface interface AInterface\x7b\x7d enum B\x7b\x7d".toList = .ok f' ∧
    (∀ (i : ℕ) t, f.tokens[i]? = some t → ∃ t', f'.tokens[i]? = some t' ∧
      t'.kind = t.kind ∧ t'.position.line = t.position.line) ∧
    ∀ fixing, check ⟨[rule], {}, fixing⟩ "a.php"
      "<?php interface interface AInterface\x7b\x7d enum B\x7b\x7d".toList = .ok ⟨[], 1, []⟩ := by
  have heval : (SourceFile.parse "a.php"
      "<?php interface interface A\x7b\x7d enum B\x7b\x7d".toList).toOption.any (fun f =>
        (checkFile ⟨[rule], {}, true⟩ f).textAfter
          "<?php interface interface A\x7b\x7d enum B\x7b\x7d".toList =
            "<?php interface interface AInterface\x7b\x7d enum B\x7b\x7d".toList ∧
        (runAll ⟨[rule], {}, true⟩ f).2.map Violation.location = [f.locate 6, f.locate 6]) = true := by
    decide +kernel
  cases hparse : SourceFile.parse "a.php"
      "<?php interface interface A\x7b\x7d enum B\x7b\x7d".toList with
  | error e => rw [hparse] at heval; cases heval
  | ok f =>
    rw [hparse] at heval
    obtain ⟨htext, hlocations⟩ := of_decide_eq_true heval
    obtain ⟨r, f', hr, hparse', -, htokens, hagain⟩ := interfaces_are_mended hparse {}
    obtain rfl : checkFile ⟨[rule], {}, true⟩ f = r :=
      Except.ok.inj ((check_eq_ok hparse).symm.trans hr)
    rw [htext] at hparse' hagain
    refine ⟨f, _, f', rfl, hr, ?_, htext, hparse', fun i t ht => ?_, hagain⟩
    · have hperm := (List.mergeSort_perm (runAll ⟨[rule], {}, true⟩ f).2 Violation.precedes).map
        Violation.location
      rw [hlocations] at hperm
      exact (List.perm_replicate (n := 2)).1 hperm
    · obtain ⟨t', ht', hkind, hline, -⟩ := htokens i t ht
      exact ⟨t', ht', hkind, hline⟩

end InterfaceSuffix

end EntityLint
