import EntityLint.Proofs.Edit.Invariant
import EntityLint.Proofs.Edit.Transaction
import EntityLint.Proofs.Rule.Repairs
import EntityLint.Proofs.Run.Independence
import EntityLint.Proofs.Token.Recut

/-!
# What mending makes of a file

A linter that mends a file changes at most as many tokens as it counts, counts no more than there are
violations to mend, and leaves a text that has a token stream.

* `Draft.Mended`: each token that has been changed has been mended;
* `Draft.Mended.edit`, `Draft.Mended.mend`, `Draft.Mended.foldl_mend`: one edit, one finding, and the
  findings of a rule;
* `Draft.Edited`, `Draft.Edited.foldl_mend`: findings that ask for a single edit each;
* `Rule.mended`, `Rule.edited_mended`: the draft after one rule, if its findings do so;
* `Linter.mended_runAll`: the draft after all rules;
* `LintResult.textAfter`, `textAfter_checkFile`: the text that is left.

The main statement is `fixed_file_is_sound`.
-/

namespace EntityLint

open Lexeme Text

namespace Draft

/-- Each token of a draft that has been changed has been mended, and the changes are counted. -/
structure Mended (f : SourceFile) (ls : List Lexeme) (d : Draft) : Prop where
  lineEnd : d.lineEnd = f.lineEnd
  staged : d.staged = none
  sound : Sound f d
  mends : ∀ i c, d.cells[i]? = some c → c.modified = true → MendsAt ls i c.text
  card_le : d.modified.card ≤ d.fixes

variable {f : SourceFile} {ls : List Lexeme} {d : Draft}

theorem mended_ofFile (f : SourceFile) (ls : List Lexeme) (fixing : Bool) :
    Mended f ls (ofFile f fixing) := by
  have hsound := sound_ofFile f fixing
  refine ⟨rfl, rfl, hsound, fun i c hc hmodified => ?_, ?_⟩
  · rw [ofFile, Array.getElem?_map] at hc
    obtain ⟨t, -, rfl⟩ := Option.map_eq_some_iff.1 hc
    cases hmodified
  · rw [hsound.modified_eq_empty rfl]
    exact Nat.zero_le _

/-- An edit that is made of a single token marks no other one. -/
theorem card_modified_make (x : ℕ × Text) : (d.make [x]).modified.card ≤ d.modified.card + 1 := by
  refine (Finset.card_le_card fun i hi => ?_).trans (Finset.card_insert_le x.1 d.modified)
  rw [mem_modified, isModified_make] at hi
  rw [Finset.mem_insert, mem_modified]
  rcases hi with hi | ⟨-, y, hy, rfl⟩
  · exact .inr hi
  · exact .inl (congrArg Prod.fst (List.mem_singleton.1 hy))

/-- An edit of a token that has not been changed begins with its text in the file. -/
theorem Sound.edited_eq (hd : Sound f d) (hlineEnd : d.lineEnd = f.lineEnd) (hstaged : d.staged = none)
    {e : Edit} (h : d.isModified e.token = false) :
    d.edited e = e.newText f.lineEnd (f.textAt e.token) := by
  rw [edited, current?, hstaged, hlineEnd, SourceFile.textAt, ← hd.text_eq _ h]
  rfl

theorem Mended.edit (hd : Mended f ls d) {e : Edit} (he : e.Mends f ls) :
    Mended f ls (d.edit e).2 ∧ (d.edit e).2.fixes ≤ d.fixes + 1 := by
  have hsound := hd.sound.of_moves (moves_edit d e)
  rcases edit_cases d e with ⟨-, h⟩ | ⟨-, ⟨_, hstaged, -⟩ | ⟨-, ⟨-, h⟩ | ⟨hnew, h⟩⟩⟩
  · rw [h]
    exact ⟨hd, Nat.le_succ _⟩
  · rw [hd.staged] at hstaged
    cases hstaged
  · rw [h]
    exact ⟨hd, Nat.le_succ _⟩
  · rw [h] at hsound ⊢
    refine ⟨⟨lineEnd_make.trans hd.lineEnd, staged_make, hsound, fun i c hc hmodified => ?_, ?_⟩,
      le_rfl⟩
    · rw [getElem?_make, List.lookup_cons, List.lookup_nil] at hc
      obtain ⟨c', hc', hc⟩ := Option.map_eq_some_iff.1 hc
      by_cases hi : i = e.token
      · subst hi
        rw [beq_self_eq_true] at hc
        subst hc
        rw [Option.elim, hd.sound.edited_eq hd.lineEnd hd.staged hnew]
        exact he
      · rw [beq_eq_false_iff_ne.2 hi] at hc
        subst hc
        exact hd.mends i c' hc' hmodified
    · exact (card_modified_make _).trans (Nat.succ_le_succ hd.card_le)

/-- A finding is mended once at most, and only if it is marked so. -/
theorem Mended.mend (hd : Mended f ls d) {x : Finding} (hx : x.IsMendable f ls) :
    Mended f ls (Reporter.mend d x) ∧
      (Reporter.mend d x).fixes ≤ d.fixes + [x].countP Finding.fixable := by
  unfold Reporter.mend
  split
  · next s hs =>
    obtain ⟨hfixable, e, he, hstep⟩ := hx s hs
    -- some rules mend with a plain edit and some with a changeset of one edit
    have hrun : (s.run d).2 = (d.edit e).2 := by
      rcases hstep with rfl | rfl
      · rw [Step.run]
      · rw [← run_edit_eq_changeset hd.staged, Step.run]
    rw [List.countP_singleton, if_pos hfixable]
    split
    · rw [hrun]
      exact hd.edit he
    · exact ⟨hd, Nat.le_succ _⟩
  · exact ⟨hd, Nat.le_add_right _ _⟩

theorem Mended.foldl_mend (hd : Mended f ls d) {xs : List Finding}
    (hxs : ∀ x ∈ xs, x.IsMendable f ls) :
    Mended f ls (xs.foldl Reporter.mend d) ∧
      (xs.foldl Reporter.mend d).fixes ≤ d.fixes + xs.countP Finding.fixable := by
  induction xs generalizing d with
  | nil => exact ⟨hd, le_rfl⟩
  | cons x xs ih =>
    obtain ⟨hx, hxs⟩ := List.forall_mem_cons.1 hxs
    obtain ⟨hmended, hfixes⟩ := hd.mend hx
    obtain ⟨hrest, hfixes'⟩ := ih hmended hxs
    rw [← List.singleton_append, List.countP_append, ← Nat.add_assoc]
    exact ⟨hrest, hfixes'.trans (Nat.add_le_add_right hfixes _)⟩

end Draft

/-! ### Findings that ask for one edit -/

/-- A finding that is mended by a single edit. -/
def Finding.AsksFor (x : Finding) (e : Edit) : Prop :=
  x.repair = some (.edit e) ∨ x.repair = some (.changeset [.edit e])

theorem Finding.AsksFor.unique {x : Finding} {e e' : Edit} (h : x.AsksFor e) (h' : x.AsksFor e') :
    e = e' := by
  rcases h with h | h <;> rcases h' with h' | h' <;> cases h.symm.trans h' <;> rfl

namespace Draft

/-- Each token of a draft that has been changed is as some finding asks. -/
structure Edited (f : SourceFile) (xs : List Finding) (d : Draft) : Prop where
  lineEnd : d.lineEnd = f.lineEnd
  staged : d.staged = none
  sound : Sound f d
  fixing : d.fixing = true
  asked : ∀ i c, d.cells[i]? = some c → c.modified = true →
    ∃ x ∈ xs, ∃ e, x.AsksFor e ∧ e.token = i ∧ c.text = e.newText f.lineEnd (f.textAt i)

variable {f : SourceFile} {xs : List Finding} {d : Draft}

theorem isModified_of_moves {d' : Draft} (h : Relation.ReflTransGen Moves d d') {i : ℕ}
    (hi : d.isModified i = true) : d'.isModified i = true := by
  obtain ⟨c, hc, hmodified⟩ := (Option.any_eq_true _ _).1 hi
  rw [isModified_of_getElem? (getElem?_eq_of_moves h hc hmodified), hmodified]

theorem edited_ofFile (f : SourceFile) (xs : List Finding) : Edited f xs (ofFile f true) := by
  refine ⟨rfl, rfl, sound_ofFile f true, rfl, fun i c hc hmodified => ?_⟩
  rw [ofFile, Array.getElem?_map] at hc
  obtain ⟨t, -, rfl⟩ := Option.map_eq_some_iff.1 hc
  cases hmodified

/-- A token is changed as a finding asks, unless it has been changed before. -/
theorem Edited.edit (hd : Edited f xs d) {e : Edit} (he : ∃ x ∈ xs, x.AsksFor e) :
    Edited f xs (d.edit e).2 ∧
      (e.token < f.tokens.size → (d.edit e).2.isModified e.token = true) := by
  have hsound := hd.sound.of_moves (moves_edit d e)
  rcases edit_cases d e with ⟨hge, h⟩ | ⟨hlt, ⟨_, hstaged, -⟩ | ⟨-, ⟨hold, h⟩ | ⟨hnew, h⟩⟩⟩
  · rw [h]
    exact ⟨hd, fun hi => absurd (hd.sound.size ▸ hi) (not_lt.2 hge)⟩
  · rw [hd.staged] at hstaged
    cases hstaged
  · rw [h]
    exact ⟨hd, fun _ => hold⟩
  · have hedited := hd.sound.edited_eq hd.lineEnd hd.staged hnew
    rw [h] at hsound ⊢
    refine ⟨⟨lineEnd_make.trans hd.lineEnd, staged_make, hsound, fixing_make.trans hd.fixing,
      fun j c hc hmodified => ?_⟩,
      fun hi => isModified_make.2 (.inr ⟨hd.sound.size ▸ hi, _, List.mem_singleton_self _, rfl⟩)⟩
    rw [getElem?_make, List.lookup_cons, List.lookup_nil] at hc
    obtain ⟨c', hc', hc⟩ := Option.map_eq_some_iff.1 hc
    by_cases hj : j = e.token
    · subst hj
      rw [beq_self_eq_true] at hc
      subst hc
      obtain ⟨x, hx, hasks⟩ := he
      exact ⟨x, hx, e, hasks, rfl, hedited⟩
    · rw [beq_eq_false_iff_ne.2 hj] at hc
      subst hc
      exact hd.asked j c' hc' hmodified

theorem Edited.mend (hd : Edited f xs d) {x : Finding} (hx : x ∈ xs)
    (hrepair : x.repair = none ∨ ∃ e, x.AsksFor e) :
    Edited f xs (Reporter.mend d x) ∧ Relation.ReflTransGen Moves d (Reporter.mend d x) ∧
      ∀ e, x.AsksFor e → e.token < f.tokens.size → (Reporter.mend d x).isModified e.token = true := by
  rcases hrepair with hnone | ⟨e, he⟩
  · rw [Reporter.mend, hnone]
    refine ⟨hd, .refl, fun e he => ?_⟩
    rw [Finding.AsksFor, hnone] at he
    rcases he with he | he <;> cases he
  · have hmend : Reporter.mend d x = (d.edit e).2 := by
      rcases he with he | he
      · rw [Reporter.mend, he]
        dsimp only
        rw [if_pos hd.fixing, Step.run]
      · rw [Reporter.mend, he]
        dsimp only
        rw [if_pos hd.fixing, ← run_edit_eq_changeset hd.staged, Step.run]
    obtain ⟨hedit, hmodified⟩ := hd.edit ⟨x, hx, he⟩
    rw [hmend]
    refine ⟨hedit, .single (moves_edit d _), fun e' he' hlt => ?_⟩
    obtain rfl := he.unique he'
    exact hmodified hlt

/-- Every token that some finding asks to be changed is changed, though perhaps as another one asks. -/
theorem Edited.foldl_mend (hd : Edited f xs d) {ys : List Finding} (hys : ys ⊆ xs)
    (hrepair : ∀ x ∈ ys, x.repair = none ∨ ∃ e, x.AsksFor e) :
    Edited f xs (ys.foldl Reporter.mend d) ∧
      Relation.ReflTransGen Moves d (ys.foldl Reporter.mend d) ∧
      ∀ x ∈ ys, ∀ e, x.AsksFor e → e.token < f.tokens.size →
        (ys.foldl Reporter.mend d).isModified e.token = true := by
  induction ys generalizing d with
  | nil => exact ⟨hd, .refl, fun x hx => (List.not_mem_nil hx).elim⟩
  | cons y ys ih =>
    obtain ⟨hy, hys⟩ := List.cons_subset.1 hys
    obtain ⟨hrepair, hrepairs⟩ := List.forall_mem_cons.1 hrepair
    obtain ⟨hmend, hmoves, hmodified⟩ := hd.mend hy hrepair
    obtain ⟨hrest, hmoves', hmodified'⟩ := ih hmend hys hrepairs
    refine ⟨hrest, hmoves.trans hmoves', fun x hx e he hlt => ?_⟩
    rcases List.mem_cons.1 hx with rfl | hx
    · exact isModified_of_moves hmoves' (hmodified e he hlt)
    · exact hmodified' x hx e he hlt

end Draft

/-! ### Rules -/

namespace Rule

/-- The draft of a file after one rule has mended it. -/
def mended (rule : Rule) (f : SourceFile) : Draft :=
  (rule.findings f).foldl Reporter.mend (Draft.ofFile f true)

/-- If each finding of a rule asks for an edit, the tokens that are changed are those of the edits. -/
theorem edited_mended {rule : Rule} {f : SourceFile} {edit : Finding → Edit}
    (h : ∀ x ∈ rule.findings f, x.AsksFor (edit x) ∧ (edit x).token < f.tokens.size) :
    Draft.Edited f (rule.findings f) (rule.mended f) ∧
    ∀ i, (rule.mended f).isModified i = true ↔ ∃ x ∈ rule.findings f, (edit x).token = i := by
  obtain ⟨hedited, -, hmodified⟩ := (Draft.edited_ofFile f (rule.findings f)).foldl_mend
    (List.Subset.refl _) fun x hx => .inr ⟨_, (h x hx).1⟩
  refine ⟨hedited, fun i => ⟨fun hi => ?_, ?_⟩⟩
  · obtain ⟨c, hc, hmodified⟩ := (Option.any_eq_true _ _).1 hi
    obtain ⟨x, hx, e, he, rfl, -⟩ := hedited.asked i c hc hmodified
    obtain rfl := he.unique (h x hx).1
    exact ⟨x, hx, rfl⟩
  · rintro ⟨x, hx, rfl⟩
    exact hmodified x hx _ (h x hx).1 (h x hx).2

end Rule

namespace Linter

open Draft

/-- The draft of a file after the only rule. -/
theorem runAll_singleton {rule : Rule} {c : Configuration}
    (henabled : c.isEnabled rule.name.toList = true) (f : SourceFile) :
    (runAll ⟨[rule], c, true⟩ f).1 = rule.mended f := by
  have hactive : activeRules ⟨[rule], c, true⟩ = [rule] := by simp [activeRules, henabled]
  rw [runAll, hactive, List.foldl_cons, List.foldl_nil, runRule, Rule.run, Reporter.draft_reportAll]
  rfl

/-- A rule that is switched off neither mends nor finds anything. -/
theorem checkFile_of_disabled {rule : Rule} {c : Configuration}
    (henabled : ¬c.isEnabled rule.name.toList = true) (fixing : Bool) (f : SourceFile) :
    checkFile ⟨[rule], c, fixing⟩ f = ⟨[], 1, []⟩ := by
  refine checkFile_eq_clean fun r hr => ?_
  obtain ⟨hr, hactive⟩ := List.mem_filter.1 hr
  rw [List.mem_singleton.1 hr] at hactive
  exact absurd hactive henabled

variable {f : SourceFile} {ls : List Lexeme}

/-- A rule mends at most the violations that it adds. -/
theorem mended_runRule (l : Linter) (h : f.Reads ls) {rule : Rule} (hrule : rule.IsBuiltIn)
    {state : Draft × List Violation} (hd : Mended f ls state.1)
    (hfixes : state.1.fixes ≤ state.2.countP Violation.fixable) :
    Mended f ls (l.runRule f state rule).1 ∧
      (l.runRule f state rule).1.fixes ≤ (l.runRule f state rule).2.countP Violation.fixable := by
  obtain ⟨hmended, hle⟩ := hd.foldl_mend fun x hx => hrule.isMendable h hx
  simp only [runRule, Rule.run, Reporter.draft_reportAll, Reporter.violations_reportAll,
    List.nil_append, List.countP_append, List.countP_map]
  exact ⟨hmended, hle.trans (Nat.add_le_add_right hfixes _)⟩

/-- All rules together mend at most the violations that they find. -/
theorem mended_runAll (l : Linter) (h : f.Reads ls) (hrules : ∀ rule ∈ l.rules, rule.IsBuiltIn) :
    Mended f ls (l.runAll f).1 ∧ (l.runAll f).1.fixes ≤ (l.runAll f).2.countP Violation.fixable := by
  have hrun : ∀ (rules : List Rule) (state : Draft × List Violation),
      (∀ rule ∈ rules, rule.IsBuiltIn) → Mended f ls state.1 →
      state.1.fixes ≤ state.2.countP Violation.fixable →
      Mended f ls (rules.foldl (l.runRule f) state).1 ∧
        (rules.foldl (l.runRule f) state).1.fixes ≤
          (rules.foldl (l.runRule f) state).2.countP Violation.fixable := by
    intro rules
    induction rules with
    | nil => exact fun state _ hd hfixes => ⟨hd, hfixes⟩
    | cons rule rules ih =>
      intro state hrules hd hfixes
      obtain ⟨hrule, hrules⟩ := List.forall_mem_cons.1 hrules
      obtain ⟨hd', hfixes'⟩ := mended_runRule l h hrule hd hfixes
      exact ih _ hrules hd' hfixes'
  exact hrun l.activeRules _ (fun rule hrule => hrules rule (List.mem_of_mem_filter hrule))
    (mended_ofFile f ls l.fixing) (Nat.zero_le _)

end Linter

open Draft Linter

/-- A draft in which tokens have been mended is a mended text. -/
theorem Draft.Mended.mendsAll {f : SourceFile} {ls : List Lexeme} {d : Draft} (hd : Mended f ls d)
    (h : f.Reads ls) : MendsAll none false ls (d.cells.toList.map Cell.text) := by
  have hsize : d.cells.size = ls.length := hd.sound.size.trans h.size
  refine .of_mendsAt (by rw [List.length_map, Array.length_toList, hsize]) fun i t ht => ?_
  rw [List.getElem?_map, Array.getElem?_toList] at ht
  obtain ⟨c, hc, rfl⟩ := Option.map_eq_some_iff.1 ht
  cases hmodified : c.modified with
  | true => exact hd.mends i c hc hmodified
  | false =>
    have hi : i < ls.length := hsize ▸ (Array.getElem?_eq_some_iff.1 hc).1
    have hl := List.getElem?_eq_getElem hi
    have htext : c.text = ls[i].text := by
      have := hd.sound.text_eq i (isModified_of_getElem? hc ▸ hmodified)
      rw [← h.textAt_eq hl, SourceFile.textAt, ← this, hc]
      rfl
    exact ⟨_, hl, htext ▸ .same⟩

/-- The text that a check leaves behind: the one that it has mended, or the source. -/
def LintResult.textAfter (r : LintResult) (source : Text) : Text :=
  match r.fixedFiles with
  | [] => source
  | fixed :: _ => fixed.content.toList

/-- The text that mending leaves is that of the draft, also where nothing has been mended. -/
theorem textAfter_checkFile {path : String} {source : Text} {f : SourceFile} {l : Linter}
    (hparse : SourceFile.parse path source = .ok f) (hfixing : l.fixing = true)
    (hsound : Draft.Sound f (l.runAll f).1) :
    (l.checkFile f).textAfter source = (l.runAll f).1.text := by
  rw [LintResult.textAfter, checkFile]
  dsimp only
  rw [hfixing, Bool.true_and]
  split_ifs with hfixes
  · exact String.toList_ofList
  · have hsame : (l.runAll f).1.cells.toList.map Cell.text = f.tokens.toList.map Token.text := by
      refine List.ext_getElem? fun i => ?_
      have hnew : (l.runAll f).1.isModified i = false := by
        rw [← Bool.not_eq_true, ← Draft.mem_modified, hsound.modified_eq_empty (by simpa using hfixes)]
        exact Finset.notMem_empty i
      rw [List.getElem?_map, List.getElem?_map, Array.getElem?_toList, Array.getElem?_toList,
        hsound.text_eq i hnew]
    obtain ⟨tokens, htokens, rfl⟩ := SourceFile.exists_tokens_of_parse hparse
    obtain ⟨ls, docs, pairs, hls, -, rfl⟩ := exists_lexemes_of_tokenize htokens
    rw [Draft.text, List.flatMap_def, hsame, Token.text_ofLexemes, ← List.flatMap_def,
      Lexeme.text_ofSource hls]

/-- **Mending keeps a file sound.** If the rules mend a text that has a token stream, the count of
changes is at most the number of violations that can be mended, the new text is made of the old tokens
with at most this number of them replaced, and it has a token stream again. -/
theorem fixed_file_is_sound {path : String} {source : Text} {f : SourceFile}
    (h : SourceFile.parse path source = .ok f) (l : Linter)
    (hrules : ∀ rule ∈ l.rules, rule.IsBuiltIn) :
    ∃ r, l.check path source = .ok r ∧ ∀ fixed ∈ r.fixedFiles,
      fixed.fixes ≤ r.violations.countP Violation.fixable ∧
      (∃ (texts : List Text) (changed : Finset ℕ), fixed.content.toList = texts.flatten ∧
        texts.length = f.tokens.size ∧ changed.card ≤ fixed.fixes ∧
        ∀ i ∉ changed, texts[i]? = f.tokens[i]?.map Token.text) ∧
      ∃ tokens, tokenize fixed.content.toList = .ok tokens := by
  refine ⟨_, check_eq_ok h, fun fixed hfixed => ?_⟩
  obtain ⟨pieces, hpieces, hreads⟩ := exists_reads_of_parse h
  obtain ⟨hd, hfixes⟩ := mended_runAll l hreads hrules
  obtain ⟨tokens, htokens, -⟩ := SourceFile.exists_tokens_of_parse h
  obtain rfl : fixed = ⟨f.path, String.ofList (l.runAll f).1.text, (l.runAll f).1.fixes⟩ :=
    List.mem_singleton.1 (List.mem_ite_nil_right.1 hfixed).2
  rw [String.toList_ofList, Draft.text, List.flatMap_def]
  refine ⟨?_, ⟨_, (l.runAll f).1.modified, rfl, ?_, hd.card_le, fun i hi => ?_⟩, ?_⟩
  · rw [violations_checkFile, ← violations_runAll]
    exact hfixes.trans_eq ((List.mergeSort_perm _ _).countP_eq _).symm
  · rw [List.length_map, Array.length_toList, hd.sound.size]
  · rw [mem_modified, Bool.not_eq_true] at hi
    rw [List.getElem?_map, Array.getElem?_toList, hd.sound.text_eq i hi]
  · exact tokenize_of_mendsAll htokens hpieces (hd.mendsAll hreads)

/-- A file in which a name in quotes is mended, the name of an interface, and one of two returns that
ask for a line above the same token. -/
theorem fixed_file_is_sound_conflict : ∃ f r fixed,
    SourceFile.parse "a.php" ("<?php interface A\x7b\x7d class B\x7b ".toList ++
      "#[ORM\\Column(name: \"x\")] private $userId; \x7d\n$b; return; return;".toList) = .ok f ∧
    (∀ rule ∈ RuleSet.all, rule.IsBuiltIn) ∧
    check ⟨RuleSet.all, {}, true⟩ "a.php" ("<?php interface A\x7b\x7d class B\x7b ".toList ++
      "#[ORM\\Column(name: \"x\")] private $userId; \x7d\n$b; return; return;".toList) = .ok r ∧
    fixed ∈ r.fixedFiles ∧ fixed.fixes = 3 ∧ 3 ≤ r.violations.countP Violation.fixable ∧
    fixed.content.toList = "<?php interface AInterface\x7b\x7d class B\x7b ".toList ++
      "#[ORM\\Column(name: 'user_id')] private $userId; \x7d\n\n$b; return; return;".toList ∧
    (∃ (texts : List Text) (changed : Finset ℕ), fixed.content.toList = texts.flatten ∧
      changed.card ≤ 3 ∧ ∀ i ∉ changed, texts[i]? = f.tokens[i]?.map Token.text) ∧
    ∃ tokens, tokenize fixed.content.toList = .ok tokens := by
  have heval : (SourceFile.parse "a.php" ("<?php interface A\x7b\x7d class B\x7b ".toList ++
      "#[ORM\\Column(name: \"x\")] private $userId; \x7d\n$b; return; return;".toList)).toOption.any
        (fun f => (checkFile ⟨RuleSet.all, {}, true⟩ f).fixedFiles.map
          (fun fixed => (fixed.content.toList, fixed.fixes)) =
            [("<?php interface AInterface\x7b\x7d class B\x7b ".toList ++
              "#[ORM\\Column(name: 'user_id')] private $userId; \x7d\n\n$b; return; return;".toList,
              3)]) = true := by
    decide +kernel
  have hrules : ∀ rule ∈ RuleSet.all, rule.IsBuiltIn := fun rule hrule => ⟨_, hrule⟩
  cases hparse : SourceFile.parse "a.php" ("<?php interface A\x7b\x7d class B\x7b ".toList ++
      "#[ORM\\Column(name: \"x\")] private $userId; \x7d\n$b; return; return;".toList) with
  | error e => rw [hparse] at heval; cases heval
  | ok f =>
    rw [hparse] at heval
    obtain ⟨r, hr, hfixed⟩ := fixed_file_is_sound hparse ⟨RuleSet.all, {}, true⟩ hrules
    obtain rfl : checkFile ⟨RuleSet.all, {}, true⟩ f = r :=
      Except.ok.inj ((check_eq_ok hparse).symm.trans hr)
    obtain ⟨fixed, hmem, heq⟩ := List.map_eq_singleton_iff.1 (of_decide_eq_true heval)
    have hin : fixed ∈ (checkFile ⟨RuleSet.all, {}, true⟩ f).fixedFiles := by
      rw [hmem]
      exact List.mem_singleton_self fixed
    obtain ⟨hcontent, hcount⟩ := Prod.mk.inj heq
    obtain ⟨hle, ⟨texts, changed, htexts, -, hcard, hsame⟩, htokens⟩ := hfixed fixed hin
    exact ⟨f, _, fixed, rfl, hrules, hr, hin, hcount, hcount ▸ hle, hcontent,
      ⟨texts, changed, htexts, hcount ▸ hcard, hsame⟩, htokens⟩

end EntityLint
