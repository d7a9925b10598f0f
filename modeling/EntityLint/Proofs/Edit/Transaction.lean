import EntityLint.Proofs.Edit.Operation
import Mathlib

/-!
# Changesets as transactions

A changeset keeps a list of whole texts, the latest first, and meets tokens that have been changed
only when it is committed. Seen from outside it is a transaction: its edits are made one after the
other on the plain texts of the tokens, or nothing happens.

* `Draft.texts`, `Draft.overlaid`: the texts of the tokens, and those with staged edits;
* `runAll_edits`: what some edits stage, by induction on the edits;
* `Draft.Committed`, `Draft.Transacts`: what becomes of a draft, and what a transaction answers;
* `Draft.changeset`, `staged_changeset`: a changeset around anything that can be done to a draft.

The main statement is `transaction_of_changeset`.
-/

namespace EntityLint

/-- The texts of some tokens after an edit of one of them. -/
def Edit.applyTo (lineEnd : Text) (texts : Array Text) (e : Edit) : Array Text :=
  texts.modify e.token (e.newText lineEnd)

namespace Draft

variable {d : Draft} {log : List (ℕ × Text)} {i : ℕ}

/-- The texts of the tokens. -/
def texts (d : Draft) : Array Text := d.cells.map Cell.text

/-- The texts of the tokens with some edits, the latest first. -/
def overlaid (d : Draft) (log : List (ℕ × Text)) : Array Text := (d.writeAll log).texts

/-- The draft with a changeset open in which some edits are staged. -/
def staging (d : Draft) (log : List (ℕ × Text)) : Draft := { d with staged := some log }

theorem getElem?_texts (i : ℕ) : d.texts[i]? = d.cells[i]?.map Cell.text := Array.getElem?_map

theorem size_overlaid : (d.overlaid log).size = d.cells.size :=
  Array.size_map.trans size_writeAll

theorem rollback_staging (hd : d.staged = none) : (d.staging log).rollback = d :=
  rollback_of_staged_eq_none hd

theorem texts_make : (d.make log).texts = d.overlaid log := by
  apply Array.ext_getElem?
  intro i
  rw [overlaid, getElem?_texts, getElem?_texts, getElem?_make, getElem?_writeAll]

/-! ### Staged edits -/

/-- The latest text that is staged for a token is the one that it has with all staged edits. -/
theorem current?_staging (hi : i < d.cells.size) :
    (d.staging log).current? i = (d.overlaid log)[i]? := by
  rw [overlaid, getElem?_texts, getElem?_writeAll, current?, staging, Option.getD_some,
    Array.getElem?_eq_getElem hi]
  cases log.lookup i <;> rfl

/-- To stage an edit is to apply it to the texts with the edits staged before. -/
theorem overlaid_cons {e : Edit} (he : e.token < d.cells.size) :
    d.overlaid ((e.token, (d.staging log).edited e) :: log) =
      e.applyTo d.lineEnd (d.overlaid log) := by
  apply Array.ext_getElem?
  intro i
  show ((d.writeAll log).write e.token _).texts[i]? = _
  rw [Edit.applyTo, Array.getElem?_modify, getElem?_texts, getElem?_write]
  split_ifs with hi
  · subst hi
    have hlt : e.token < (d.overlaid log).size := by rwa [size_overlaid]
    have hlt' : e.token < (d.writeAll log).cells.size := by rwa [size_writeAll]
    rw [edited, current?_staging he, Array.getElem?_eq_getElem hlt,
      Array.getElem?_eq_getElem hlt']
    rfl
  · exact (getElem?_texts i).symm

/-- What some edits do while a changeset is open. Up to the first token that does not exist they are
staged, and the texts with them are those that the edits make one after the other. -/
theorem runAll_edits (d : Draft) (log : List (ℕ × Text)) (es : List Edit) :
    (∃ e log', es.find? (fun e => d.cells.size ≤ e.token) = some e ∧
      Step.runAll (es.map .edit) (d.staging log) =
        (.error (.invalidToken e.token), d.staging log')) ∨
    es.find? (fun e => d.cells.size ≤ e.token) = none ∧ ∃ log',
      Step.runAll (es.map .edit) (d.staging log) = (.ok (), d.staging log') ∧
      log'.map Prod.fst = (es.map Edit.token).reverse ++ log.map Prod.fst ∧
      d.overlaid log' = es.foldl (Edit.applyTo d.lineEnd) (d.overlaid log) := by
  -- the plain texts are those of the draft with what has been staged so far
  induction es generalizing log with
  | nil => exact .inr ⟨rfl, log, rfl, rfl, rfl⟩
  | cons e es ih =>
    rw [List.map_cons, Step.runAll, Step.run]
    rcases edit_cases (d.staging log) e with ⟨hge, hrun⟩ | ⟨hlt, ⟨_, hlog, hrun⟩ | ⟨hnone, -⟩⟩
    · rw [hrun]
      exact .inl ⟨e, log, List.find?_cons_of_pos (decide_eq_true hge), rfl⟩
    · cases hlog
      have hlt' : e.token < d.cells.size := hlt
      have hrun' : (d.staging log).edit e =
          (.ok (), d.staging ((e.token, (d.staging log).edited e) :: log)) := hrun
      rw [hrun', List.find?_cons_of_neg (by simpa using hlt')]
      rcases ih ((e.token, (d.staging log).edited e) :: log) with
        ⟨e', log', hfind, hrest⟩ | ⟨hfind, log', hrest, htokens, htexts⟩
      · exact .inl ⟨e', log', hfind, hrest⟩
      · refine .inr ⟨hfind, log', hrest, ?_, ?_⟩
        · rw [htokens, List.map_cons, List.map_cons, List.reverse_cons, List.append_assoc]
          rfl
        · rw [htexts, overlaid_cons hlt']
          rfl
    · cases hnone

/-! ### Closed changesets -/

/-- A changeset around anything that can be done to a draft. -/
def changeset (d : Draft) (body : Draft → Answer) : Answer :=
  match d.openChangeset with
  | (.error e, d) => (.error e, d)
  | (.ok (), d) =>
    match body d with
    | (.ok (), d) => d.commit
    | (.error e, d) => (.error e, d.rollback)

theorem run_changeset (d : Draft) (steps : List Step) :
    (Step.changeset steps).run d = d.changeset (Step.runAll steps) := by
  rw [Step.run]
  rfl

theorem changeset_of_staged_eq_none (hd : d.staged = none) (body : Draft → Answer) :
    d.changeset body = match body (d.staging []) with
      | (.ok (), d) => d.commit
      | (.error e, d) => (.error e, d.rollback) := by
  rw [changeset, openChangeset, hd]
  rfl

theorem staged_commit (d : Draft) : d.commit.2.staged = none := by
  rcases commit_cases d with ⟨hd, h⟩ | ⟨edits, -, ⟨x, -, h⟩ | ⟨-, ⟨-, h⟩ | ⟨-, h⟩⟩⟩
  · rw [h, hd]
  · rw [h]
    rfl
  · rw [h]
    rfl
  · rw [h, staged_make]

/-- A changeset is closed in the end, whatever has been done in it. -/
theorem staged_changeset (hd : d.staged = none) (body : Draft → Answer) :
    (d.changeset body).2.staged = none := by
  rw [changeset_of_staged_eq_none hd]
  split
  · exact staged_commit _
  · rfl

/-! ### Transactions -/

/-- The draft after some edits that are made as one change: they have been applied one after the
other, and the tokens they edit are marked, and no others. -/
structure Committed (d : Draft) (es : List Edit) (d' : Draft) : Prop where
  texts : d'.texts = es.foldl (Edit.applyTo d.lineEnd) d.texts
  isModified : ∀ i, d'.isModified i = true ↔ d.isModified i = true ∨ ∃ e ∈ es, e.token = i
  /-- Edits count once, and only if there are any. -/
  fixes : d'.fixes = d.fixes + if es = [] then 0 else 1
  staged : d'.staged = none
  fixing : d'.fixing = d.fixing
  lineEnd : d'.lineEnd = d.lineEnd

/-- What a transaction of some edits answers. The first token that does not exist counts before the
first one that has been changed, and with either of them the draft stays as it was. -/
def Transacts (d : Draft) (es : List Edit) (answer : Answer) : Prop :=
  match es.find? fun e => d.cells.size ≤ e.token, es.find? fun e => d.isModified e.token with
  | some e, _ => answer = (.error (.invalidToken e.token), d)
  | none, some e => answer = (.error (.conflict e.token), d)
  | none, none => answer.1 = .ok () ∧ d.Committed es answer.2

theorem fixing_make : (d.make log).fixing = d.fixing := by
  show (d.rollback.writeAll log).fixing = d.fixing
  induction log with
  | nil => rfl
  | cons x log ih => exact ih

theorem committed_make {es : List Edit} (hne : es ≠ [])
    (hlt : ∀ e ∈ es, e.token < d.cells.size)
    (htokens : log.map Prod.fst = (es.map Edit.token).reverse)
    (htexts : d.overlaid log = es.foldl (Edit.applyTo d.lineEnd) d.texts) :
    d.Committed es (d.make log) := by
  constructor
  case texts => rw [texts_make, htexts]
  case isModified =>
    intro i
    have hmem : (∃ x ∈ log, x.1 = i) ↔ ∃ e ∈ es, e.token = i := by
      rw [← List.mem_map, htokens, List.mem_reverse, List.mem_map]
    rw [isModified_make, hmem]
    refine or_congr_right (and_iff_right_of_imp ?_)
    rintro ⟨e, he, rfl⟩
    exact hlt e he
  case fixes => rw [fixes_make, if_neg hne]
  case staged => exact staged_make
  case fixing => exact fixing_make
  case lineEnd => exact lineEnd_make

/-- Staged edits of some tokens, searched from the first one on, are found in the order of the
edits. -/
theorem find?_reverse_of_map_fst {es : List Edit} (p : ℕ → Bool)
    (h : log.map Prod.fst = (es.map Edit.token).reverse) :
    (log.reverse.find? fun x => p x.1).map Prod.fst =
      (es.find? fun e => p e.token).map Edit.token := by
  have hrev : log.reverse.map Prod.fst = es.map Edit.token := by
    rw [List.map_reverse, h, List.reverse_reverse]
  have hfind := congrArg (List.find? p) hrev
  rwa [List.find?_map, List.find?_map] at hfind

/-- A changeset of edits that have all been staged is committed as a whole or not at all. -/
theorem commit_staging {es : List Edit} (hd : d.staged = none)
    (hlt : ∀ e ∈ es, e.token < d.cells.size)
    (htokens : log.map Prod.fst = (es.map Edit.token).reverse)
    (htexts : d.overlaid log = es.foldl (Edit.applyTo d.lineEnd) d.texts) :
    (∃ e, es.find? (fun e => d.isModified e.token) = some e ∧
      (d.staging log).commit = (.error (.conflict e.token), d)) ∨
    es.find? (fun e => d.isModified e.token) = none ∧
      (d.staging log).commit.1 = .ok () ∧ d.Committed es (d.staging log).commit.2 := by
  have hfind := find?_reverse_of_map_fst d.isModified htokens
  rcases commit_cases (d.staging log) with
    ⟨hnone, -⟩ | ⟨_, hlog, ⟨x, hx, hcommit⟩ | ⟨hnew, hcommit⟩⟩
  · cases hnone
  · cases hlog
    rw [show log.reverse.find? (fun x => d.isModified x.1) = some x from hx] at hfind
    obtain ⟨e, he, hex⟩ := Option.map_eq_some_iff.1 hfind.symm
    exact .inl ⟨e, he, by rw [hcommit, hex, rollback_staging hd]⟩
  · cases hlog
    have hnone : log.reverse.find? (fun x => d.isModified x.1) = none :=
      List.find?_eq_none.2 fun x hx => Bool.eq_false_iff.1 (hnew x (List.mem_reverse.1 hx))
    rw [hnone] at hfind
    refine .inr ⟨Option.map_eq_none_iff.1 hfind.symm, ?_⟩
    rcases hcommit with ⟨rfl, hcommit⟩ | ⟨hne, hcommit⟩
    · obtain rfl : es = [] := by simpa using htokens
      rw [hcommit, rollback_staging hd]
      exact ⟨rfl, rfl, by simp, rfl, hd, rfl, rfl⟩
    · rw [hcommit]
      refine ⟨rfl, committed_make ?_ hlt htokens htexts⟩
      rintro rfl
      exact hne (List.map_eq_nil_iff.1 htokens)

theorem transacts_changeset (hd : d.staged = none) (es : List Edit) :
    d.Transacts es ((Step.changeset (es.map .edit)).run d) := by
  rw [run_changeset, changeset_of_staged_eq_none hd]
  rcases runAll_edits d [] es with
    ⟨e, log, hfind, hrun⟩ | ⟨hfind, log, hrun, htokens, htexts⟩
  · rw [hrun, Transacts, hfind]
    exact congrArg _ (rollback_staging hd)
  · rw [List.map_nil, List.append_nil] at htokens
    have hlt : ∀ e ∈ es, e.token < d.cells.size := by simpa using hfind
    rw [hrun, Transacts, hfind]
    rcases commit_staging hd hlt htokens htexts with ⟨e, he, hcommit⟩ | ⟨hnone, hok, hcommit⟩
    · rw [he]
      exact hcommit
    · rw [hnone]
      exact ⟨hok, hcommit⟩

/-- A changeset of one staged edit is committed unless the token has been changed. -/
theorem commit_staging_singleton (hd : d.staged = none) (x : ℕ × Text) :
    (d.staging [x]).commit =
      if d.isModified x.1 then (.error (.conflict x.1), d) else (.ok (), d.make [x]) := by
  rcases commit_cases (d.staging [x]) with
    ⟨hnone, -⟩ | ⟨_, hlog, ⟨y, hy, hcommit⟩ | ⟨hnew, hcommit⟩⟩
  · cases hnone
  · cases hlog
    obtain ⟨hmodified, rfl⟩ : d.isModified x.1 = true ∧ x = y := by
      simpa [List.find?_singleton, isModified, staging] using hy
    rw [hcommit, if_pos hmodified, rollback_staging hd]
  · cases hlog
    have hfresh : d.isModified x.1 = false := hnew x List.mem_cons_self
    rcases hcommit with ⟨hnil, -⟩ | ⟨-, hcommit⟩
    · cases hnil
    · rw [hcommit, hfresh]
      rfl

/-- An edit outside of a changeset is a changeset of its own. -/
theorem run_edit_eq_changeset (hd : d.staged = none) (e : Edit) :
    (Step.edit e).run d = (Step.changeset [.edit e]).run d := by
  have hstaged : (d.staging []).edited e = d.edited e := by
    rw [edited, edited, current?, current?, hd]
    rfl
  rw [run_changeset, changeset_of_staged_eq_none hd, Step.runAll, Step.run, Step.run]
  by_cases hlt : e.token < d.cells.size
  · have hrun : (d.staging []).edit e = (.ok (), d.staging [(e.token, d.edited e)]) := by
      rw [← hstaged]
      exact if_pos hlt
    rw [hrun]
    show d.edit e = (d.staging [(e.token, d.edited e)]).commit
    rw [commit_staging_singleton hd]
    rcases edit_cases d e with ⟨hge, -⟩ | ⟨-, ⟨_, hsome, -⟩ | ⟨-, ⟨hm, hedit⟩ | ⟨hm, hedit⟩⟩⟩
    · exact absurd hlt (not_lt.2 hge)
    · rw [hd] at hsome
      cases hsome
    · rw [hedit, if_pos hm]
    · rw [hedit, hm]
      rfl
  · have hrun : (d.staging []).edit e = (.error (.invalidToken e.token), d.staging []) :=
      if_neg hlt
    rw [hrun, edit, if_neg hlt]
    exact congrArg _ (rollback_staging hd).symm

end Draft

open Draft

/-- **A changeset is a transaction.** Its edits answer as edits of plain texts do, made one after the
other and all or none of them. Whatever else is done in a changeset, it is closed in the end, and an
edit outside of one is a changeset of its own. -/
theorem transaction_of_changeset (d : Draft) (hd : d.staged = none) :
    (∀ es : List Edit, d.Transacts es ((Step.changeset (es.map .edit)).run d)) ∧
    (∀ body : Draft → Answer, (d.changeset body).2.staged = none) ∧
    (∀ steps : List Step, (Step.changeset steps).run d = d.changeset (Step.runAll steps)) ∧
    ∀ e : Edit, (Step.edit e).run d = (Step.changeset [.edit e]).run d :=
  ⟨transacts_changeset hd, staged_changeset hd, run_changeset d, run_edit_eq_changeset hd⟩

/-- Two edits of one number are made together, and an edit that meets a replaced variable takes the
one before it along. -/
theorem transaction_of_number : ∃ f d, SourceFile.parse "a.php" "<?php $a = 1;".toList = .ok f ∧
    d = (ofFile f true).after [.edit (.replace 2 "$b".toList)] ∧ d.staged = none ∧
    d.Committed [.append 6 ['0'], .prepend 6 ['-']]
      ((Step.changeset [.edit (.append 6 ['0']), .edit (.prepend 6 ['-'])]).run d).2 ∧
    ((Step.changeset [.edit (.append 6 ['0']), .edit (.prepend 6 ['-'])]).run d).2.text =
      "<?php $b = -10;".toList ∧
    (Step.changeset [.edit (.replace 6 ['2']), .edit (.appendLineEnd 2)]).run d =
      (.error (.conflict 2), d) := by
  obtain ⟨f, h, hstaged, hsize, hnew, hold, htext⟩ :
      ∃ f, SourceFile.parse "a.php" "<?php $a = 1;".toList = .ok f ∧
        ((ofFile f true).after [.edit (.replace 2 "$b".toList)]).staged = none ∧
        ((ofFile f true).after [.edit (.replace 2 "$b".toList)]).cells.size = 8 ∧
        ((ofFile f true).after [.edit (.replace 2 "$b".toList)]).isModified 6 = false ∧
        ((ofFile f true).after [.edit (.replace 2 "$b".toList)]).isModified 2 = true ∧
        ((Step.changeset [.edit (.append 6 ['0']), .edit (.prepend 6 ['-'])]).run
          ((ofFile f true).after [.edit (.replace 2 "$b".toList)])).2.text =
            "<?php $b = -10;".toList :=
    ⟨_, by cbv, by cbv, by cbv, by cbv, by cbv, by cbv⟩
  obtain ⟨htransacts, -⟩ := transaction_of_changeset _ hstaged
  have hmade := htransacts [.append 6 ['0'], .prepend 6 ['-']]
  have hrefused := htransacts [.replace 6 ['2'], .appendLineEnd 2]
  simp only [Transacts, List.find?_cons, List.find?_nil, Edit.token, hsize, hnew, hold]
    at hmade hrefused
  exact ⟨f, _, h, rfl, hstaged, hmade.2, htext, hrefused⟩

end EntityLint
