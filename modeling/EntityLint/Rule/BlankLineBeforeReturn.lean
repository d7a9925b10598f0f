import EntityLint.Rule.Basic

/-!
# Blank lines before return statements

A blank line stands before a return statement, unless the statement begins a block or a branch, or
ends the branch of a switch. A line that holds only blanks and plain comments counts as blank.

* `BlankLineBeforeReturn.codeBefore?`: what the line above ends with;
* `BlankLineBeforeReturn.endsBranch`: whether a return is the end of a branch;
* `BlankLineBeforeReturn.rule`.
-/

namespace EntityLint.BlankLineBeforeReturn

/-- The kind of the last token that begins on the line above a token and is neither blank nor a
plain comment. -/
def codeBefore? (f : SourceFile) (i : Nat) : Option Kind := do
  let line := (← f.tokens[i]?).position.line
  let near := (f.tokens.toList.take i).reverse.takeWhile fun t => line ≤ t.position.line + 1
  let above := near.filter fun t => t.position.line + 1 == line
  let last ← above.find? fun t => t.kind != .blank && t.kind != .comment
  return last.kind

/-- The scopes around a token. -/
def scopesAt (f : SourceFile) (i : Nat) : Option (List (Nat × Kind)) :=
  f.tokens[i]?.map Token.conditions

/-- Whether a return is the first one to leave the branch that the last keyword of a kind before it
begins, and stands in the same scopes. -/
def leavesBranch (f : SourceFile) (i : Nat) (keyword : Kind) : Bool :=
  (f.previousOfKind? [keyword] i none false).any fun branch =>
    scopesAt f branch == scopesAt f i
      && f.nextOfKind? [.kwReturn, .kwBreak] (branch + 1) none false == some i

/-- Whether a return ends a branch of a switch. -/
def endsBranch (f : SourceFile) (i : Nat) : Bool :=
  [Kind.kwCase, .kwDefault].any (leavesBranch f i)

/-- The first token of those on one line that lead up to a token. -/
def lineStart (f : SourceFile) (i : Nat) : Nat :=
  let line := f.tokens[i]?.map fun t => t.position.line
  let leading := (f.tokens.toList.take i).reverse.takeWhile fun t => some t.position.line == line
  i - leading.length

/-- The fault of a return, if it has one. An empty line is put above to mend it. -/
def finding? (f : SourceFile) (i : Nat) : Option Finding := do
  let last ← codeBefore? f i
  guard !(last == .openCurly || last == .colon || endsBranch f i)
  return {
    token := i
    code := "Missing"
    message := "Missing blank line before return statement"
    fixable := true
    repair := some (.edit (.prependLineEnd (lineStart f i))) }

/-- The rule that a blank line stands before a return. -/
def rule : Rule where
  name := "blank-line-before-return"
  code := "Ormsniff.Formatting.BlankLineBeforeReturn"
  description := "Requires a blank line before return statements"
  findings f := (Rule.tokensOfKind .kwReturn f).filterMap (finding? f)

end EntityLint.BlankLineBeforeReturn
