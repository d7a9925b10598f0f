import EntityLint.Proofs.Rule.ReturnLines
import EntityLint.Proofs.Run.Fixing

/-!
# Returns after mending

Where no line with a return at fault begins in a doc comment or behind a close tag, mending a file puts
a line break at the beginning of each of these lines, and no return is at fault in the new text.

* `BlankLineBeforeReturn.edited_mended`: the tokens that mending changes;
* `BlankLineBeforeReturn.markedLexemes`, `text_mended`: the text that it leaves;
* `BlankLineBeforeReturn.isChain_markedLexemes`: the line breaks stand after others.

The main statement is `BlankLineBeforeReturn.returns_are_mended`.
-/

namespace EntityLint

open Lexeme Text Linter

namespace BlankLineBeforeReturn

variable {path : String} {source : Text} {f : SourceFile}

/-- The draft of a file after blank lines have been put above its returns. -/
def mended (f : SourceFile) : Draft := (rule.findings f).foldl Reporter.mend (Draft.ofFile f true)

/-- A finding asks for a line break at the beginning of its line. -/
theorem asksFor_of_mem {x : Finding} (hx : x ∈ rule.findings f) :
    x.AsksFor (.prependLineEnd (lineStart f x.token)) ∧ lineStart f x.token < f.tokens.size := by
  obtain ⟨i, -, hx⟩ := List.mem_filterMap.1 hx
  obtain ⟨⟨k, hk, -⟩, rfl⟩ := finding?_eq_some_iff.1 hx
  obtain ⟨-, t, -, ht, -⟩ := lineStart_spec hk
  exact ⟨.inl rfl, (Array.getElem?_eq_some_iff.1 ht).1⟩

theorem edited_mended (f : SourceFile) : Draft.Edited f (rule.findings f) (mended f) ∧
    ∀ i, (mended f).isModified i = true ↔ ∃ x ∈ rule.findings f, lineStart f x.token = i :=
  Rule.edited_mended fun _ hx => asksFor_of_mem hx

/-- The lexemes of a file, with a mark where the line of a return at fault begins. -/
def markedLexemes (f : SourceFile) (ls : List Lexeme) : List MarkedLexeme :=
  ls.mapIdx fun i l => ⟨l, (mended f).isModified i⟩

open MarkedLexeme

variable {ls : List Lexeme}

theorem getElem?_markedLexemes (f : SourceFile) (ls : List Lexeme) (i : ℕ) :
    (markedLexemes f ls)[i]? = ls[i]?.map fun l => ⟨l, (mended f).isModified i⟩ :=
  List.getElem?_mapIdx

theorem map_lexeme_markedLexemes : (markedLexemes f ls).map lexeme = ls := by
  refine List.ext_getElem? fun i => ?_
  rw [List.getElem?_map, getElem?_markedLexemes, Option.map_map]
  exact Option.map_id'

/-- A mark is where the line of a return at fault begins. -/
theorem marked_iff (h : f.Reads ls) {s : ℕ} : (markedLexemes f ls)[s]?.any marked = true ↔
    ∃ x ∈ rule.findings f, lineStart f x.token = s := by
  rw [getElem?_markedLexemes, Option.any_map, ← (edited_mended f).2 s]
  constructor
  · intro hs
    obtain ⟨l, -, hl⟩ := (Option.any_eq_true _ _).1 hs
    exact hl
  · intro hs
    obtain ⟨c, hc, -⟩ := (Option.any_eq_true _ _).1 hs
    have hlt := (Array.getElem?_eq_some_iff.1 hc).1
    rw [(edited_mended f).1.sound.size, h.size] at hlt
    rw [List.getElem?_eq_getElem hlt]
    exact hs

/-- The text that mending leaves has a line break in front of each mark. -/
theorem text_mended (h : f.Reads ls) :
    (mended f).text = (markedLexemes f ls).flatMap (newText f.lineEnd) := by
  obtain ⟨hedited, hmodified⟩ := edited_mended f
  rw [Draft.text, List.flatMap_def, List.flatMap_def]
  congr 1
  refine List.ext_getElem? fun i => ?_
  have hsize : (mended f).cells.size = ls.length := hedited.sound.size.trans h.size
  rw [List.getElem?_map, List.getElem?_map, Array.getElem?_toList, getElem?_markedLexemes]
  rcases lt_or_ge i ls.length with hlt | hge
  · obtain ⟨l, hl⟩ : ∃ l, ls[i]? = some l := ⟨_, List.getElem?_eq_getElem hlt⟩
    obtain ⟨c, hc⟩ : ∃ c, (mended f).cells[i]? = some c :=
      ⟨_, Array.getElem?_eq_getElem (hsize ▸ hlt)⟩
    rw [hc, hl, Option.map_some, Option.map_some, Option.map_some, newText, lead,
      Draft.isModified_of_getElem? hc, ← h.textAt_eq hl]
    cases hm : c.modified with
    | true =>
      obtain ⟨x, hx, e, he, rfl, htext⟩ := hedited.asked i c hc hm
      obtain rfl := he.unique (asksFor_of_mem hx).1
      exact congrArg some htext
    | false =>
      have htext := hedited.sound.text_eq i (Draft.isModified_of_getElem? hc ▸ hm)
      rw [SourceFile.textAt, ← htext, hc]
      rfl
  · rw [Array.getElem?_eq_none (hsize ▸ hge), List.getElem?_eq_none hge]
    rfl

/-- Line breaks are put after line breaks, if no line at fault begins in a doc comment or behind a close
tag. -/
theorem isChain_markedLexemes (h : f.Reads ls)
    (hkinds : ∀ i l, ls[i]? = some l → l.kind ∈ [.docBlank, .closeTag] → f.kindAt i = some l.kind)
    (hplain : ∀ x ∈ rule.findings f,
      f.kindAt (lineStart f x.token - 1) ∉ [some .docBlank, some .closeTag]) :
    (markedLexemes f ls).IsChain Follows ∧ BeginsUnmarked (markedLexemes f ls) := by
  have hbegins : ∀ s, (markedLexemes f ls)[s]?.any marked = true → 0 < s ∧
      ∃ l, ls[s - 1]? = some l ∧ '\n' ∈ l.text ∧ l.kind ∉ [.docBlank, .closeTag] := by
    intro s hs
    obtain ⟨x, hx, rfl⟩ := (marked_iff h).1 hs
    obtain ⟨-, k, hk, -⟩ := exists_finding_iff.1 ⟨x, hx, rfl⟩
    obtain ⟨hpos, -⟩ := lineStart_spec hk
    obtain ⟨_, hstart, l, hl, hline⟩ := mem_text_of_codeBefore? h hk
    have hlt := (List.getElem?_eq_some_iff.1 hstart).1
    have hget := List.getElem?_eq_getElem ((Nat.sub_le _ 1).trans_lt hlt)
    rw [List.getLast?_take, if_neg hpos.ne', hget, Option.some_or, ← hget] at hl
    refine ⟨hpos, l, hl, hline, fun hkind => hplain x hx ?_⟩
    rw [hkinds _ l hl hkind]
    simpa using hkind
  constructor
  · refine List.isChain_iff_getElem.2 fun i hi hmarked => ?_
    obtain ⟨-, l, hl, hline⟩ := hbegins (i + 1) (by rw [List.getElem?_eq_getElem hi]; exact hmarked)
    have hget := getElem?_markedLexemes f ls i
    rw [Nat.add_sub_cancel] at hl
    rw [List.getElem?_eq_getElem (Nat.lt_of_succ_lt hi), hl] at hget
    rw [Option.some.inj hget]
    exact hline
  · intro x hx
    refine Bool.eq_false_iff.2 fun hmarked => Nat.lt_irrefl 0 (hbegins 0 ?_).1
    rw [← List.head?_eq_getElem?, Option.mem_def.1 hx]
    exact hmarked

/-- **Mending puts a blank line above every return that lacks one.** If no line with such a return begins
in a doc comment or behind a close tag, nothing is left to report, and nothing to mend. -/
theorem returns_are_mended {path : String} {source : Text} {f : SourceFile}
    (hparse : SourceFile.parse path source = .ok f)
    (hplain : ∀ x ∈ rule.findings f,
      f.kindAt (lineStart f x.token - 1) ∉ [some .docBlank, some .closeTag]) (c : Configuration) :
    ∃ r, check ⟨[rule], c, true⟩ path source = .ok r ∧ ∀ fixing,
      check ⟨[rule], c, fixing⟩ path (r.textAfter source) = .ok ⟨[], 1, []⟩ := by
  refine ⟨_, check_eq_ok hparse, fun fixing => ?_⟩
  by_cases henabled : c.isEnabled rule.name.toList = true
  · have hrun : (runAll ⟨[rule], c, true⟩ f).1 = mended f := runAll_singleton henabled f
    obtain ⟨pieces, hpieces, hreads⟩ := exists_reads_of_parse hparse
    have hkinds : ∀ k : Kind, k ∈ [.docBlank, .closeTag] → k ∉ [.ternary, .attributeClose, .closeSquare] := by
      decide
    obtain ⟨hchain, hbegin⟩ := isChain_markedLexemes hreads
      (fun i l hl hk => kindAt_of_parse hparse hpieces hl (hkinds _ hk)) hplain
    obtain ⟨f', hparse', hrespaced⟩ := SourceFile.exists_respaced hparse hpieces
      f.lineEnd_isLineBreak map_lexeme_markedLexemes hchain hbegin
    have hclean := findings_eq_nil_of_respaced hparse hparse' hrespaced fun s => marked_iff hreads
    rw [textAfter_checkFile hparse rfl (hrun ▸ (edited_mended f).1.sound), hrun, text_mended hreads,
      check_eq_ok hparse', checkFile_eq_clean fun r hr => ?_]
    rw [List.mem_singleton.1 (List.mem_of_mem_filter hr), hclean]
  · rw [checkFile_of_disabled henabled, LintResult.textAfter, check_eq_ok hparse,
      checkFile_of_disabled henabled]

/-- Two returns on one line, and a return behind a comment that ends there. -/
theorem returns_are_mended_twice : ∃ f r,
    SourceFile.parse "a.php" "<?php $a;\r\n$b; return; return; /*\r\n*/ return;".toList = .ok f ∧
    (∀ x ∈ rule.findings f,
      f.kindAt (lineStart f x.token - 1) ∉ [some .docBlank, some .closeTag]) ∧
    check ⟨[rule], {}, true⟩ "a.php" "<?php $a;\r\n$b; return; return; /*\r\n*/ return;".toList = .ok r ∧
    r.violations.length = 3 ∧
    r.textAfter "<?php $a;\r\n$b; return; return; /*\r\n*/ return;".toList =
      "<?php $a;\r\n\r\n$b; return; return; /*\r\n*/\r\n return;".toList ∧
    ∀ fixing, check ⟨[rule], {}, fixing⟩ "a.php"
      "<?php $a;\r\n\r\n$b; return; return; /*\r\n*/\r\n return;".toList = .ok ⟨[], 1, []⟩ := by
  have heval : (SourceFile.parse "a.php"
      "<?php $a;\r\n$b; return; return; /*\r\n*/ return;".toList).toOption.any (fun f =>
        ((rule.findings f).all fun x =>
          f.kindAt (lineStart f x.token - 1) ∉ [some .docBlank, some .closeTag]) ∧
        (runAll ⟨[rule], {}, true⟩ f).2.length = 3 ∧
        (checkFile ⟨[rule], {}, true⟩ f).textAfter
          "<?php $a;\r\n$b; return; return; /*\r\n*/ return;".toList =
            "<?php $a;\r\n\r\n$b; return; return; /*\r\n*/\r\n return;".toList) = true := by
    decide +kernel
  cases hparse : SourceFile.parse "a.php"
      "<?php $a;\r\n$b; return; return; /*\r\n*/ return;".toList with
  | error e => rw [hparse] at heval; cases heval
  | ok f =>
    rw [hparse] at heval
    obtain ⟨hplain, hlength, htext⟩ := of_decide_eq_true heval
    have hplain : ∀ x ∈ rule.findings f,
        f.kindAt (lineStart f x.token - 1) ∉ [some .docBlank, some .closeTag] :=
      fun x hx => of_decide_eq_true (List.all_eq_true.1 hplain x hx)
    obtain ⟨r, hr, hagain⟩ := returns_are_mended hparse hplain {}
    obtain rfl : checkFile ⟨[rule], {}, true⟩ f = r :=
      Except.ok.inj ((check_eq_ok hparse).symm.trans hr)
    rw [htext] at hagain
    exact ⟨f, _, rfl, hplain, hr, (List.length_mergeSort _).trans hlength, htext, hagain⟩

/-- A line that begins in a doc comment stays at fault: what is put above it is a part of the comment. -/
example : (SourceFile.parse "a.php" "<?php $a;\n/** b\n */ return;".toList).toOption.any (fun f =>
    (mended f).text = "<?php $a;\n/** b\n\n */ return;".toList ∧
      (SourceFile.parse "a.php" (mended f).text).toOption.any fun f' =>
        (rule.findings f').length = 1) = true := by
  decide +kernel

end BlankLineBeforeReturn

end EntityLint
