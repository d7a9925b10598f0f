import EntityLint.Proofs.Bounds.File
import EntityLint.Proofs.Edit.Invariant
import EntityLint.Report.Reporter
import EntityLint.Rule.BlankLineBeforeReturn

/-!
# Return statements and repairs, with every index checked

* `Guarded.returnFinding?`: the fault of a return statement;
* `Guarded.commit`, `edit`, `run`: operations on the draft of a file;
* `Guarded.reportAll`: the findings of a rule.

The indices that an operation meets are those of the edited token and of the staged edits:
`Draft.Sound` says that these are in range.
-/

namespace EntityLint.Guarded

open Checked

variable {f : SourceFile} {i : ℕ}

/-! ### Return statements -/

/-- The kind of the last token that begins on the line above a token and is neither blank nor a
plain comment. -/
def codeBefore? (f : SourceFile) (i : Nat) : Checked (Option Kind) := do
  let line := (← tokenAt f i).position.line
  let before ← slice f 0 i
  let near := before.reverse.takeWhile fun t => line ≤ t.position.line + 1
  let above := near.filter fun t => t.position.line + 1 == line
  return (above.find? fun t => t.kind != .blank && t.kind != .comment).map Token.kind

/-- Whether a return is the first one to leave the branch that the last keyword of a kind before it
begins, and stands in the same scopes. -/
def leavesBranch (f : SourceFile) (i : Nat) (keyword : Kind) : Checked Bool := do
  match ← previousOfKind? f [keyword] i none false with
  | none => return false
  | some branch =>
    let scopes := (← tokenAt f branch).conditions
    if scopes == (← tokenAt f i).conditions then
      return (← nextOfKind? f [.kwReturn, .kwBreak] (branch + 1) none false) == some i
    else return false

/-- The first of the tokens on a line that lead up to an index. -/
def lineStartFrom (f : SourceFile) (line : Nat) : Nat → Checked Nat
  | 0 => return 0
  | i + 1 => do
    if (← tokenAt f i).position.line == line then lineStartFrom f line i else return i + 1

/-- The first token of those on one line that lead up to a token. -/
def lineStart (f : SourceFile) (i : Nat) : Checked Nat := do
  lineStartFrom f (← tokenAt f i).position.line i

/-- The fault of a return, if it has one. -/
def returnFinding? (f : SourceFile) (i : Nat) : Checked (Option Finding) :=
  andThen (codeBefore? f i) fun last => do
    let ends ← [Kind.kwCase, .kwDefault].anyM (leavesBranch f i)
    if last == .openCurly || last == .colon || ends then return none
    else
      let start ← lineStart f i
      return some {
        token := i
        code := "Missing"
        message := "Missing blank line before return statement"
        fixable := true
        repair := some (.edit (.prependLineEnd start)) }

theorem codeBefore?_eq (h : i < f.tokens.size) :
    codeBefore? f i = .ok (BlankLineBeforeReturn.codeBefore? f i) := by
  obtain ⟨t, ht, htoken⟩ := exists_tokenAt_eq h
  rw [codeBefore?, htoken, ok_bind, slice_eq (Nat.zero_le i) h.le, ok_bind,
    BlankLineBeforeReturn.codeBefore?, ht, SourceFile.slice, Nat.sub_zero, List.drop_zero]
  dsimp only
  rw [Option.map_eq_bind]
  rfl

theorem leavesBranch_eq (h : i < f.tokens.size) (keyword : Kind) :
    leavesBranch f i keyword = .ok (BlankLineBeforeReturn.leavesBranch f i keyword) := by
  rw [leavesBranch, previousOfKind?_eq, ok_bind, BlankLineBeforeReturn.leavesBranch]
  cases hbranch : f.previousOfKind? [keyword] i none false with
  | none => rfl
  | some branch =>
    obtain ⟨t, ht, htoken⟩ := exists_tokenAt_eq h
    obtain ⟨u, hu, hbranch⟩ := exists_tokenAt_eq (SourceFile.previous?_eq_some hbranch).2.1
    have hscopes : (BlankLineBeforeReturn.scopesAt f branch == BlankLineBeforeReturn.scopesAt f i) =
        (u.conditions == t.conditions) := by
      rw [BlankLineBeforeReturn.scopesAt, BlankLineBeforeReturn.scopesAt, ht, hu]
      rfl
    dsimp only [Option.any_some]
    rw [hbranch, ok_bind, htoken, ok_bind, nextOfKind?_eq, hscopes]
    cases u.conditions == t.conditions <;> rfl

theorem lineStartFrom_eq (line : ℕ) (h : i ≤ f.tokens.size) : lineStartFrom f line i =
    .ok (i - ((f.tokens.toList.take i).reverse.takeWhile fun t =>
      some t.position.line == some line).length) := by
  induction i with
  | zero => rfl
  | succ i ih =>
    obtain ⟨t, ht, htoken⟩ := exists_tokenAt_eq (Nat.lt_of_succ_le h)
    rw [lineStartFrom, htoken, ok_bind, ih (Nat.le_of_succ_le h), List.take_add_one,
      Array.getElem?_toList, ht, Option.toList_some, List.reverse_append, List.reverse_singleton,
      List.singleton_append, List.takeWhile_cons]
    have hsame : (some t.position.line == some line) = (t.position.line == line) := rfl
    rw [hsame]
    cases t.position.line == line with
    | true => simp only [if_true, List.length_cons, Nat.add_sub_add_right]
    | false => rfl

theorem lineStart_eq (h : i < f.tokens.size) :
    lineStart f i = .ok (BlankLineBeforeReturn.lineStart f i) := by
  obtain ⟨t, ht, htoken⟩ := exists_tokenAt_eq h
  rw [lineStart, htoken, ok_bind, lineStartFrom_eq _ h.le, BlankLineBeforeReturn.lineStart, ht]
  rfl

/-- **The faults of return statements.** -/
theorem returnFinding?_eq (h : i < f.tokens.size) :
    returnFinding? f i = .ok (BlankLineBeforeReturn.finding? f i) := by
  -- a branch is looked for whatever stands above, and the answer used only where it matters
  refine andThen_eq (codeBefore?_eq h) fun last _ => ?_
  rw [anyM_eq fun keyword _ => leavesBranch_eq h keyword, ok_bind, lineStart_eq h]
  have hends : [Kind.kwCase, .kwDefault].any (BlankLineBeforeReturn.leavesBranch f i) =
    BlankLineBeforeReturn.endsBranch f i := rfl
  rw [hends]
  cases hpassed : last == .openCurly || last == .colon || BlankLineBeforeReturn.endsBranch f i <;> rfl

/-! ### Drafts -/

variable {d : Draft}

/-- Whether a token has been changed. -/
def isModified (d : Draft) (i : Nat) : Checked Bool := Cell.modified <$> item d.cells.toList i

/-- Change the text of a token for good. -/
def write (d : Draft) (i : Nat) (text : Text) : Checked Draft := do
  let _ ← item d.cells.toList i
  return d.write i text

/-- The first staged edit of a token that has been changed. -/
def firstModified? (d : Draft) : List (Nat × Text) → Checked (Option (Nat × Text))
  | [] => return none
  | x :: edits => do if ← isModified d x.1 then return some x else firstModified? d edits

/-- Make the staged edits, unless one of them meets a token that has been changed. -/
def commit (d : Draft) : Checked Draft.Answer :=
  match d.staged with
  | none => return (.error .noChangeset, d)
  | some edits => do
    match ← firstModified? d edits.reverse with
    | some (i, _) => return (.error (.conflict i), d.rollback)
    | none =>
      if edits.isEmpty then return (.ok (), d.rollback)
      else
        let written ← edits.reverse.foldlM (fun d x => write d x.1 x.2) d.rollback
        return (.ok (), { written with fixes := d.fixes + 1 })

/-- Give a token a new text: staged in a changeset, at once outside of one. -/
def put (d : Draft) (i : Nat) (text : Text) : Checked Draft.Answer :=
  match d.staged with
  | some edits => return (.ok (), { d with staged := some ((i, text) :: edits) })
  | none => do
    if ← isModified d i then return (.error (.conflict i), d)
    else
      let written ← write d i text
      return (.ok (), { written with fixes := d.fixes + 1 })

/-- Edit a token. -/
def edit (d : Draft) (e : Edit) : Checked Draft.Answer :=
  if e.token < d.cells.size then
    put d e.token (e.newText d.lineEnd ((d.current? e.token).getD []))
  else return (.error (.invalidToken e.token), d)

mutual

/-- Run a step. -/
def run : Step → Draft → Checked Draft.Answer
  | .openChangeset, d => return d.openChangeset
  | .commit, d => commit d
  | .rollback, d => return (.ok (), d.rollback)
  | .edit e, d => edit d e
  | .changeset steps, d =>
    match d.openChangeset with
    | (.error e, d) => return (.error e, d)
    | (.ok (), d) => do
      match ← runSteps steps d with
      | (.ok (), d) => commit d
      | (.error e, d) => return (.error e, d.rollback)

/-- Run some steps in order, up to the first error. -/
def runSteps : List Step → Draft → Checked Draft.Answer
  | [], d => return (.ok (), d)
  | step :: steps, d => do
    match ← run step d with
    | (.ok (), d) => runSteps steps d
    | (.error e, d) => return (.error e, d)

end

theorem isModified_eq (h : i < d.cells.size) : isModified d i = .ok (d.isModified i) := by
  have hget : d.cells[i]? = some d.cells[i] := Array.getElem?_eq_getElem h
  rw [isModified, item_eq (by rwa [Array.getElem?_toList]), map_ok, Draft.isModified, hget]
  rfl

theorem write_eq (h : i < d.cells.size) (text : Text) : write d i text = .ok (d.write i text) := by
  have hget : d.cells[i]? = some d.cells[i] := Array.getElem?_eq_getElem h
  rw [write, item_eq (by rwa [Array.getElem?_toList])]
  rfl

theorem firstModified?_eq {edits : List (ℕ × Text)} (h : ∀ x ∈ edits, x.1 < d.cells.size) :
    firstModified? d edits = .ok (edits.find? fun x => d.isModified x.1) := by
  induction edits with
  | nil => rfl
  | cons x edits ih =>
    rw [firstModified?, isModified_eq (h x List.mem_cons_self), ok_bind,
      ih fun y hy => h y (List.mem_cons_of_mem x hy), List.find?_cons]
    cases d.isModified x.1 <;> rfl

/-- Edits in range are made in order. -/
theorem writes_eq {edits : List (ℕ × Text)} (h : ∀ x ∈ edits, x.1 < d.cells.size) :
    edits.foldlM (fun d x => write d x.1 x.2) d =
      .ok (edits.foldl (fun d x => d.write x.1 x.2) d) := by
  induction edits generalizing d with
  | nil => rfl
  | cons x edits ih =>
    rw [List.foldlM_cons, write_eq (h x List.mem_cons_self), ok_bind, List.foldl_cons]
    refine ih fun y hy => ?_
    rw [Draft.write, Array.size_setIfInBounds]
    exact h y (List.mem_cons_of_mem x hy)

theorem commit_eq (hd : d.Sound f) : commit d = .ok d.commit := by
  rw [commit, Draft.commit]
  cases hstaged : d.staged with
  | none => rfl
  | some edits =>
    have hlt : ∀ x ∈ edits.reverse, x.1 < d.cells.size := fun x hx =>
      hd.staged_lt x (by rw [hstaged]; exact List.mem_reverse.1 hx)
    dsimp only
    rw [firstModified?_eq hlt, ok_bind]
    cases edits.reverse.find? fun x => d.isModified x.1 with
    | some x => rfl
    | none =>
      dsimp only
      rw [writes_eq (d := d.rollback) hlt, ok_bind, List.foldl_reverse]
      split <;> rfl

theorem edit_eq (d : Draft) (e : Edit) : edit d e = .ok (d.edit e) := by
  rw [edit, Draft.edit]
  split
  · next h =>
    rw [put, Draft.put, isModified_eq h, ok_bind, write_eq h, ok_bind]
    cases d.staged with
    | some edits => rfl
    | none =>
      dsimp only
      split <;> rfl
  · rfl

mutual

/-- A step meets no index that is not there, however deep its changesets are nested. -/
theorem run_eq (s : Step) (d : Draft) (hd : d.Sound f) : run s d = .ok (s.run d) := by
  cases s with
  | openChangeset => rw [run, Step.run]; rfl
  | commit => rw [run, Step.run, commit_eq hd]
  | rollback => rw [run, Step.run]; rfl
  | edit e => rw [run, Step.run, edit_eq]
  | changeset steps =>
    have hopen := hd.of_moves (Draft.moves_openChangeset d)
    rw [run, Step.run]
    rcases hopened : d.openChangeset with ⟨e | _, d₁⟩
    · rfl
    · rw [hopened] at hopen
      have hall := hopen.of_run (moves_runAll steps d₁)
      dsimp only
      rw [runSteps_eq steps d₁ hopen, ok_bind]
      rcases hrun : Step.runAll steps d₁ with ⟨e | _, d₂⟩
      · rfl
      · rw [hrun] at hall
        exact commit_eq hall

theorem runSteps_eq (steps : List Step) (d : Draft) (hd : d.Sound f) :
    runSteps steps d = .ok (Step.runAll steps d) := by
  cases steps with
  | nil => rw [runSteps, Step.runAll]; rfl
  | cons s steps =>
    have hfirst := hd.of_run (moves_run s d)
    rw [runSteps, Step.runAll, run_eq s d hd, ok_bind]
    rcases hrun : s.run d with ⟨e | _, d₁⟩
    · rfl
    · rw [hrun] at hfirst
      exact runSteps_eq steps d₁ hfirst

end

/-! ### Findings -/

/-- The draft after the repair of a finding. -/
def mend (d : Draft) (finding : Finding) : Checked Draft := do
  match finding.repair with
  | some step => if d.fixing then return (← run step d).2 else return d
  | none => return d

/-- Report some findings in order. -/
def reportAll (r : Reporter) (findings : List Finding) : Checked Reporter :=
  findings.foldlM (fun r finding => do
    return { r with
      violations := r.violations ++ [r.violation finding]
      draft := ← mend r.draft finding }) r

theorem mend_eq (hd : d.Sound f) (finding : Finding) :
    mend d finding = .ok (Reporter.mend d finding) ∧ (Reporter.mend d finding).Sound f := by
  rw [mend, Reporter.mend]
  cases finding.repair with
  | none => exact ⟨rfl, hd⟩
  | some step =>
    dsimp only
    split
    · rw [run_eq step d hd]
      exact ⟨rfl, hd.of_run (moves_run step d)⟩
    · exact ⟨rfl, hd⟩

/-- **Findings are reported and mended.** The draft stays sound. -/
theorem reportAll_eq {r : Reporter} (hd : r.draft.Sound f) (findings : List Finding) :
    reportAll r findings = .ok (r.reportAll findings) ∧ (r.reportAll findings).draft.Sound f := by
  rw [reportAll, Reporter.reportAll]
  induction findings generalizing r with
  | nil => exact ⟨rfl, hd⟩
  | cons finding findings ih =>
    obtain ⟨hmend, hsound⟩ := mend_eq hd finding
    rw [List.foldlM_cons, hmend, List.foldl_cons]
    exact ih (r := r.report finding) hsound

end EntityLint.Guarded
