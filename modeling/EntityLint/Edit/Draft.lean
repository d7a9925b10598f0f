import EntityLint.Source.File

/-!
# Drafts: edited token texts

A draft holds the texts of a file's tokens while they are edited. Each token is changed at most
once; edits that belong together are staged in a changeset, which is committed as a whole or not at
all.

* `Edit`, `Step`, `EditError`: what can be asked of a draft and what can go wrong;
* `Draft`, `Draft.ofFile`, `Draft.text`, `Draft.current?`;
* `Draft.openChangeset`, `Draft.commit`, `Draft.rollback`, `Draft.edit`, and `Step.run`, which runs
  any of them.

A step answers with an error or not and with the draft after it.
-/

namespace EntityLint

/-- A change to the text of one token. -/
inductive Edit
  | replace (token : Nat) (text : Text)
  | append (token : Nat) (text : Text)
  | prepend (token : Nat) (text : Text)
  | appendLineEnd (token : Nat)
  | prependLineEnd (token : Nat)
  deriving DecidableEq, Repr

namespace Edit

/-- The token that an edit changes. -/
def token : Edit → Nat
  | replace i _ | append i _ | prepend i _ | appendLineEnd i | prependLineEnd i => i

/-- The text of the token after an edit, in a file with the given line end. -/
def newText (lineEnd : Text) : Edit → Text → Text
  | replace _ text, _ => text
  | append _ text, current => current ++ text
  | prepend _ text, current => text ++ current
  | appendLineEnd _, current => current ++ lineEnd
  | prependLineEnd _, current => lineEnd ++ current

end Edit

/-- Why a step on a draft is refused. -/
inductive EditError
  /-- A changeset is opened while one is open. -/
  | changesetOpen
  /-- A changeset is committed while none is open. -/
  | noChangeset
  /-- The edited token does not exist. -/
  | invalidToken (token : Nat)
  /-- The edited token has been changed before. -/
  | conflict (token : Nat)
  deriving DecidableEq, Repr

/-- The wording of an error. -/
def EditError.message : EditError → String
  | changesetOpen => "a changeset is already open"
  | noChangeset => "no changeset is open"
  | invalidToken token => s!"token {token} does not exist"
  | conflict token => s!"token {token} was already modified by another fix"

/-- The text of a token in a draft, and whether it has been changed. -/
structure Cell where
  text : Text
  modified : Bool
  deriving DecidableEq, Repr

/-- The texts of a file's tokens while they are edited. -/
structure Draft where
  /-- Whether edits are wanted. A draft keeps track of edits either way. -/
  fixing : Bool
  /-- The line end of the file. -/
  lineEnd : Text
  cells : Array Cell
  /-- The edits of the open changeset, if one is open, the latest first. -/
  staged : Option (List (Nat × Text))
  /-- The number of changes made, where a changeset counts once. -/
  fixes : Nat
  deriving DecidableEq, Repr

namespace Draft

/-- The draft of a file before any edit. -/
def ofFile (f : SourceFile) (fixing : Bool) : Draft :=
  ⟨fixing, f.lineEnd, f.tokens.map fun t => ⟨t.text, false⟩, none, 0⟩

/-- The text of the file with all edits made so far. Staged edits are not part of it. -/
def text (d : Draft) : Text := d.cells.toList.flatMap Cell.text

/-- Whether a token has been changed. -/
def isModified (d : Draft) (i : Nat) : Bool := d.cells[i]?.any Cell.modified

/-- The text of a token with the edits staged for it. -/
def current? (d : Draft) (i : Nat) : Option Text :=
  ((d.staged.getD []).lookup i).or (d.cells[i]?.map Cell.text)

/-- Change the text of a token for good. -/
def write (d : Draft) (i : Nat) (text : Text) : Draft :=
  { d with cells := d.cells.setIfInBounds i ⟨text, true⟩ }

/-- What a step answers: whether it was refused, and the draft after it. -/
abbrev Answer := Except EditError Unit × Draft

/-- Open a changeset. -/
def openChangeset (d : Draft) : Answer :=
  match d.staged with
  | some _ => (.error .changesetOpen, d)
  | none => (.ok (), { d with staged := some [] })

/-- Make the staged edits, unless one of them meets a token that has been changed. The changeset is
closed either way. -/
def commit (d : Draft) : Answer :=
  match d.staged with
  | none => (.error .noChangeset, d)
  | some edits =>
    let closed := { d with staged := none }
    match edits.reverse.find? fun (i, _) => d.isModified i with
    | some (i, _) => (.error (.conflict i), closed)
    | none =>
      if edits.isEmpty then (.ok (), closed)
      else
        let written := edits.foldr (fun (i, text) d => d.write i text) closed
        (.ok (), { written with fixes := d.fixes + 1 })

/-- Drop the staged edits. -/
def rollback (d : Draft) : Draft := { d with staged := none }

/-- Give a token a new text: staged in a changeset, at once outside of one. -/
def put (d : Draft) (i : Nat) (text : Text) : Answer :=
  match d.staged with
  | some edits => (.ok (), { d with staged := some ((i, text) :: edits) })
  | none =>
    if d.isModified i then (.error (.conflict i), d)
    else (.ok (), { d.write i text with fixes := d.fixes + 1 })

/-- Edit a token. -/
def edit (d : Draft) (e : Edit) : Answer :=
  if e.token < d.cells.size then d.put e.token (e.newText d.lineEnd ((d.current? e.token).getD []))
  else (.error (.invalidToken e.token), d)

end Draft

/-- A step on a draft. -/
inductive Step
  | openChangeset
  | commit
  | rollback
  | edit (e : Edit)
  /-- Steps in a changeset of their own, rolled back at the first error and else committed. -/
  | changeset (steps : List Step)

mutual

/-- Run a step. -/
def Step.run : Step → Draft → Draft.Answer
  | .openChangeset, d => d.openChangeset
  | .commit, d => d.commit
  | .rollback, d => (.ok (), d.rollback)
  | .edit e, d => d.edit e
  | .changeset steps, d =>
    match d.openChangeset with
    | (.error e, d) => (.error e, d)
    | (.ok (), d) =>
      match Step.runAll steps d with
      | (.ok (), d) => d.commit
      | (.error e, d) => (.error e, d.rollback)

/-- Run some steps in order, up to the first error. -/
def Step.runAll : List Step → Draft → Draft.Answer
  | [], d => (.ok (), d)
  | step :: steps, d =>
    match step.run d with
    | (.ok (), d) => Step.runAll steps d
    | (.error e, d) => (.error e, d)

end

end EntityLint
