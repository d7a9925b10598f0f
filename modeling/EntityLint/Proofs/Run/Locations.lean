import EntityLint.Proofs.Rule.Places
import EntityLint.Proofs.Run.Independence
import EntityLint.Proofs.Token.Position

/-!
# Where violations are

A violation is where the token of its finding is. The tokens of a file make up its text, so the place
of one is what one counts in the text before it.

* `Location.Delimits`: a location of a slice of a text;
* `SourceFile.delimits_locate`: each token is located at its text.

The main statement is `locations_are_tokens`.
-/

namespace EntityLint

/-- A location delimits a slice of a text that is not empty. Its offset counts the bytes before the
slice and its length those of the slice; its line counts the line feeds before the slice, and its column
the characters after the last of these. -/
structure Location.Delimits (location : Location) (source slice : Text) : Prop where
  place : ∃ before after, source = before ++ (slice ++ after) ∧
    location.offset = (String.ofList before).utf8ByteSize ∧
    location.line = 1 + before.count '\n' ∧
    location.column = 1 + before.lastLine.length
  length : location.length = (String.ofList slice).utf8ByteSize
  pos : 0 < location.length

/-- The location of a token delimits its text. -/
theorem SourceFile.delimits_locate {path : String} {source : Text} {f : SourceFile}
    (h : parse path source = .ok f) {i : ℕ} {t : Token} (ht : f.tokens[i]? = some t) :
    (f.locate i).Delimits source t.text := by
  obtain ⟨tokens, htokens, rfl⟩ := exists_tokens_of_parse h
  obtain ⟨ls, docs, pairs, hls, -, rfl⟩ := exists_lexemes_of_tokenize htokens
  have hcovers := Token.covers_ofLexemes hls docs pairs
  have hlocate : locate ⟨path, source, (Token.ofLexemes ls docs pairs).toArray⟩ i =
      ⟨path, t.position.line, t.position.column, t.position.offset, t.length⟩ := by
    rw [locate, ht]
  rw [hlocate]
  rw [List.getElem?_toArray] at ht
  obtain ⟨hi, rfl⟩ := List.getElem?_eq_some_iff.1 ht
  obtain ⟨hoffset, hline, hcolumn⟩ := hcovers.position i hi
  refine ⟨⟨_, ((Token.ofLexemes ls docs pairs).drop (i + 1)).flatMap Token.text, ?_,
    hoffset, hline, hcolumn⟩, (Text.utf8ByteSize_ofList _).symm, ?_⟩
  · conv_lhs => rw [← hcovers.text, ← List.take_append_drop i (Token.ofLexemes ls docs pairs),
      List.drop_eq_getElem_cons hi, List.flatMap_append, List.flatMap_cons]
  · exact Text.utf8Length_pos (hcovers.ne_nil _ (List.getElem_mem hi))

open Linter

/-- **Violations are where tokens are.** Whatever the rules find in a text, each violation is located
at one of its tokens, which is not empty and stands where the location says. None is reported at the
beginning of the file for want of a token. -/
theorem locations_are_tokens {path : String} {source : Text} {f : SourceFile}
    (h : SourceFile.parse path source = .ok f) {l : Linter}
    (hrules : ∀ rule ∈ l.rules, rule.IsBuiltIn) :
    ∃ r, l.check path source = .ok r ∧ ∀ v ∈ r.violations, ∃ i t, f.tokens[i]? = some t ∧
      v.location = f.locate i ∧ v.location.file = path ∧ v.location.Delimits source t.text := by
  refine ⟨_, check_eq_ok h, fun v hv => ?_⟩
  rw [violations_checkFile, sortViolations, List.mem_mergeSort] at hv
  obtain ⟨rule, hrule, hv⟩ := List.mem_flatMap.1 hv
  have hfile : v.location.file = path := by
    obtain ⟨_, -, rfl⟩ := SourceFile.exists_tokens_of_parse h
    exact (mem_violationsOf hv).2
  rw [violationsOf, Rule.run, Reporter.violations_reportAll, List.nil_append] at hv
  obtain ⟨x, hx, rfl⟩ := List.mem_map.1 hv
  have hlt : x.token < f.tokens.size :=
    (hrules rule (List.mem_of_mem_filter hrule)).allIn_findings h x hx
  have ht := Array.getElem?_eq_getElem hlt
  exact ⟨x.token, _, ht, rfl, hfile, SourceFile.delimits_locate h ht⟩

/-- Violations of all rules: at the name of an interface, at an attribute group after a character of two
bytes, at a property whose name has one, and at a return. -/
theorem locations_are_tokens_all : ∃ f r,
    SourceFile.parse "a.php" ("<?php interface I\x7b\x7d class A\x7b\n".toList ++
      "/*é*/ #[ORM\\OneToMany] private $é; \x7d\nreturn;".toList) = .ok f ∧
    (∀ rule ∈ RuleSet.all, rule.IsBuiltIn) ∧
    check ⟨RuleSet.all, {}, false⟩ "a.php" ("<?php interface I\x7b\x7d class A\x7b\n".toList ++
      "/*é*/ #[ORM\\OneToMany] private $é; \x7d\nreturn;".toList) = .ok r ∧
    (r.violations.map Violation.location).Perm [⟨"a.php", 2, 7, 36, 2⟩, ⟨"a.php", 2, 32, 61, 3⟩,
      ⟨"a.php", 2, 32, 61, 3⟩, ⟨"a.php", 2, 32, 61, 3⟩, ⟨"a.php", 1, 17, 16, 1⟩,
      ⟨"a.php", 3, 1, 68, 6⟩] ∧
    ∀ v ∈ r.violations, ∃ i t, f.tokens[i]? = some t ∧ v.location = f.locate i ∧
      v.location.file = "a.php" ∧
      v.location.Delimits ("<?php interface I\x7b\x7d class A\x7b\n".toList ++
        "/*é*/ #[ORM\\OneToMany] private $é; \x7d\nreturn;".toList) t.text := by
  have heval : (SourceFile.parse "a.php" ("<?php interface I\x7b\x7d class A\x7b\n".toList ++
      "/*é*/ #[ORM\\OneToMany] private $é; \x7d\nreturn;".toList)).toOption.any (fun f =>
        (runAll ⟨RuleSet.all, {}, false⟩ f).2.map Violation.location = [⟨"a.php", 2, 7, 36, 2⟩,
          ⟨"a.php", 2, 32, 61, 3⟩, ⟨"a.php", 2, 32, 61, 3⟩, ⟨"a.php", 2, 32, 61, 3⟩,
          ⟨"a.php", 1, 17, 16, 1⟩, ⟨"a.php", 3, 1, 68, 6⟩]) = true := by
    decide +kernel
  have hrules : ∀ rule ∈ RuleSet.all, rule.IsBuiltIn := fun rule hrule => ⟨_, hrule⟩
  cases hparse : SourceFile.parse "a.php" ("<?php interface I\x7b\x7d class A\x7b\n".toList ++
      "/*é*/ #[ORM\\OneToMany] private $é; \x7d\nreturn;".toList) with
  | error e => rw [hparse] at heval; cases heval
  | ok f =>
    rw [hparse] at heval
    obtain ⟨r, hr, hlocations⟩ := locations_are_tokens (l := ⟨RuleSet.all, {}, false⟩) hparse hrules
    obtain rfl : checkFile ⟨RuleSet.all, {}, false⟩ f = r :=
      Except.ok.inj ((check_eq_ok hparse).symm.trans hr)
    have hperm := (List.mergeSort_perm (runAll ⟨RuleSet.all, {}, false⟩ f).2 Violation.precedes).map
      Violation.location
    rw [of_decide_eq_true heval] at hperm
    exact ⟨f, _, rfl, hrules, hr, hperm, hlocations⟩

end EntityLint
