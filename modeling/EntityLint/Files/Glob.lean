import EntityLint.Text.Basic

/-!
# Patterns

A pattern is a text in which `?` stands for a character, `*` for a text, `[...]` and `[!...]` for a
character in or out of some ranges, and `**` between slashes for any directories.

* `Glob.Token`, `Glob.parse?`: patterns and their written form;
* `Glob.accepts`: the texts that a pattern stands for.
-/

namespace EntityLint.Glob

/-- A part of a pattern. -/
inductive Token
  | char (c : Char)
  | anyChar
  | anyText
  /-- Any number of directories, each with the slash after it. -/
  | anyDirectories
  /-- A character that is in one of some ranges, or in none of them if it is excluded. -/
  | charIn (excluded : Bool) (ranges : List (Char × Char))
  deriving DecidableEq, Repr

/-! ### Reading patterns -/

/-- The ranges that the text in a pair of brackets writes. -/
def ranges : Text → List (Char × Char)
  | low :: '-' :: high :: t => (low, high) :: ranges t
  | c :: t => (c, c) :: ranges t
  | [] => []

/-- The token of a pair of brackets, and the rest after it. A closing bracket that comes first
stands for itself. -/
def brackets? (t : Text) : Option (Token × Text) :=
  let (excluded, body) := match t with
    | '!' :: body => (true, body)
    | _ => (false, t)
  match body with
  | [] => none
  | first :: more =>
    (Text.breakOn [']'] more).map fun (inner, rest) =>
      (.charIn excluded (ranges (first :: inner)), rest)

/-- The token of some stars and the rest after it. Two stars take in the slash after them and stand
only where a component begins and ends. -/
def stars? (begins : Bool) (count : Nat) (rest : Text) : Option (Token × Text) :=
  match count with
  | 1 => some (.anyText, rest)
  | 2 =>
    match rest with
    | [] => if begins then some (.anyDirectories, []) else none
    | c :: t => if begins && c == '/' then some (.anyDirectories, t) else none
  | _ => none

/-- The token at the beginning of a text, which begins a component or not, and the rest after it. -/
def token? (begins : Bool) : Text → Option (Token × Text)
  | [] => none
  | '?' :: t => some (.anyChar, t)
  | '[' :: t => brackets? t
  | '*' :: t =>
    stars? begins ((t.takeWhile (· == '*')).length + 1) (t.dropWhile (· == '*'))
  | c :: t => some (.char c, t)

/-- Whether a component begins after a token. -/
def beginsAfter : Token → Bool
  | .char c => c == '/'
  | .anyDirectories => true
  | _ => false

/-- The tokens of a text that begins a component or not. -/
def tokens? (begins : Bool) (t : Text) : Option (List Token) :=
  if t.isEmpty then some []
  else
    match token? begins t with
    | none => none
    | some (token, rest) =>
      if _ : rest.length < t.length then
        (tokens? (beginsAfter token) rest).map (token :: ·)
      else none
termination_by t.length

/-- The tokens of a pattern, if it is well formed. -/
def parse? (t : Text) : Option (List Token) := tokens? true t

/-! ### What patterns stand for -/

/-- The ends of a text, beginning with the whole text. -/
def ends : Text → List Text
  | [] => [[]]
  | c :: t => (c :: t) :: ends t

/-- The ends of a text at which a component begins. -/
def componentEnds (t : Text) : List Text :=
  t :: (ends t).filterMap fun
    | '/' :: rest => some rest
    | _ => none

/-- Whether a token stands for a character. -/
def Token.admits (c : Char) : Token → Bool
  | .char d => c == d
  | .anyChar => true
  | .charIn excluded ranges => ranges.any (fun (low, high) => low ≤ c && c ≤ high) != excluded
  | _ => false

/-- Whether a pattern stands for a text. Directories at the end of a pattern stand for all that is
in them. -/
def accepts : List Token → Text → Bool
  | [], t => t.isEmpty
  | [.anyDirectories], _ => true
  | .anyDirectories :: pattern, t => (componentEnds t).any (accepts pattern)
  | .anyText :: pattern, t => (ends t).any (accepts pattern)
  | token :: pattern, c :: t => token.admits c && accepts pattern t
  | _ :: _, [] => false

end EntityLint.Glob
