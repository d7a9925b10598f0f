import EntityLint.Text.Basic

/-!
# Readers

A reader takes a beginning off a text and answers with what it makes of it, or refuses. A refusal
leaves the text as it was for the next choice.

* `Reader.one`, `Reader.run`, `Reader.exactly`, `Reader.atEnd`: characters, runs and given texts;
* `Reader.many`, `Reader.separated`: repetition;
* `Reader.whole?`: reading a text to its end.
-/

namespace EntityLint.Toml

/-- A reader of a beginning of a text. -/
abbrev Reader := StateT Text Option

namespace Reader

/-- One character that satisfies `p`. -/
def one (p : Char → Bool) : Reader Char
  | [] => none
  | c :: t => if p c then some (c, t) else none

/-- The longest run of characters that satisfy `p`. -/
def run (p : Char → Bool) : Reader Text := fun t => some (t.takeWhile p, t.dropWhile p)

/-- The longest run of characters that satisfy `p`, of which there is at least one. -/
def someRun (p : Char → Bool) : Reader Text := do
  let found ← run p
  guard !found.isEmpty
  return found

/-- A given text. -/
def exactly (lead : Text) : Reader Unit := fun t => (Text.stripLeading? lead t).map ((), ·)

/-- The end of the text. -/
def atEnd : Reader Unit
  | [] => some ((), [])
  | _ :: _ => none

/-- What a reader makes of the text, if it does not refuse. -/
def optional (r : Reader α) : Reader (Option α) := (some <$> r) <|> pure none

/-- What a reader makes of the text again and again, until it refuses or takes nothing off. -/
def repeated (r : Reader α) (t : Text) : List α × Text :=
  match r t with
  | none => ([], t)
  | some (a, rest) =>
    if _ : rest.length < t.length then
      let (as, rest) := repeated r rest
      (a :: as, rest)
    else ([], t)
termination_by t.length

/-- What a reader makes of the text again and again. -/
def many (r : Reader α) : Reader (List α) := fun t => some (repeated r t)

/-- Items with separators between them, of which there is at least one. -/
def separated (separator : Reader Unit) (item : Reader α) : Reader (List α) := do
  let first ← item
  let others ← many (separator *> item)
  return first :: others

/-- What a reader makes of a text that it reads to the end. -/
def whole? (r : Reader α) (t : Text) : Option α :=
  match r t with
  | some (a, []) => some a
  | _ => none

end Reader

end EntityLint.Toml
