import EntityLint.Text.Basic

/-!
# Suppressed codes

A comment suppresses a message code by a directive: the word `@codingStandardsIgnoreError`, blanks,
and the code, alone or after the code of the rule that reports it and a point.

* `IgnoreSet`, `IgnoreSet.parse`, `IgnoreSet.contains`.
-/

namespace EntityLint

/-- The message codes that a comment suppresses. -/
structure IgnoreSet where
  codes : List Text
  deriving DecidableEq, Repr

namespace IgnoreSet

/-- The set without codes. -/
def empty : IgnoreSet := ⟨[]⟩

/-- The word that begins a directive. -/
def directive : Text := "@codingStandardsIgnoreError".toList

/-- Characters of a code. -/
def isCodeChar (c : Char) : Bool := c.isAlphanum || c == '_' || c == '.'

/-- The code of a directive without the code of its rule. -/
def localCode (ruleCode code : Text) : Text :=
  (Text.stripLeading? (ruleCode ++ ['.']) code).getD code

/-- The code that stands after blanks at the beginning of a text, and the rest after it. A directive
without blanks after it has no code. -/
def codeAfter (t : Text) : Text × Text :=
  if t.head?.any Text.isBlank then
    let body := Text.trimStart t
    (body.takeWhile isCodeChar, body.dropWhile isCodeChar)
  else ([], t)

theorem length_codeAfter (t : Text) : (codeAfter t).2.length ≤ t.length := by
  unfold codeAfter
  split
  · exact Nat.le_trans (List.dropWhile_sublist _).length_le (List.dropWhile_sublist _).length_le
  · exact Nat.le_refl _

/-- The codes of the directives in a comment, in order. -/
def codesIn (ruleCode comment : Text) : List Text :=
  match h : Text.breakOn directive comment with
  | none => []
  | some (_, after) =>
    have : (codeAfter after).2.length < comment.length := by
      have hle := length_codeAfter after
      have heq := congrArg List.length (Text.append_of_breakOn h)
      have hdir : directive.length = 27 := by decide
      simp only [List.length_append] at heq
      omega
    let codes := codesIn ruleCode (codeAfter after).2
    if (codeAfter after).1.isEmpty then codes
    else localCode ruleCode (codeAfter after).1 :: codes
termination_by comment.length

/-- The codes that a comment suppresses for a rule. -/
def parse (comment ruleCode : Text) : IgnoreSet := ⟨codesIn ruleCode comment⟩

/-- Whether a code is suppressed. -/
def contains (s : IgnoreSet) (code : Text) : Bool := s.codes.contains code

end IgnoreSet

end EntityLint
