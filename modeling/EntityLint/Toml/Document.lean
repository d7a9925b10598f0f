import EntityLint.Toml.Quoted
import EntityLint.Toml.Scalar
import EntityLint.Toml.Table

/-!
# Configuration texts

* `keyPath`: keys with points between them;
* `value`: values up to a depth of nesting;
* `statement`, `line`, `statements?`: the statements of a text;
* `parse?`: the table that a text writes.
-/

namespace EntityLint.Toml

/-! ### Keys -/

/-- How many levels of groups or keys are too many. -/
def depthLimit : Nat := 80

/-- Characters of a key without quotes. -/
def isKeyChar (c : Char) : Bool := c.isAlphanum || c == '_' || c == '-'

/-- One key, with blanks around it. -/
def key : Reader Text := do
  let _ ← spaces
  let name ← Reader.someRun isKeyChar <|> quotedLine
  let _ ← spaces
  return name

/-- Keys with points between them: those that lead to the last one, and the last one. -/
def keyPath : Reader (List Text × Text) := do
  let keys ← Reader.separated (Reader.exactly ['.']) key
  guard (keys.length < depthLimit)
  return (keys.dropLast, keys.getLastD [])

/-! ### Values -/

/-- A comment, up to the end of its line. -/
def comment : Reader Unit := do
  Reader.exactly ['#']
  let _ ← Reader.run isLineChar

/-- Blanks, line ends and comments. -/
def gap : Reader Unit := do
  let blank : Reader Unit := do let _ ← Reader.someRun Text.isSpaceOrTab
  let _ ← Reader.many (blank <|> newline <|> (comment *> newline))

/-- A list. A comma may follow its last item. -/
def array (item : Reader Value) : Reader Value := do
  let comma := Reader.exactly [',']
  Reader.exactly ['[']
  let items ← Reader.optional (Reader.separated comma (gap *> item <* gap))
  if items.isSome then
    let _ ← Reader.optional comma
  gap
  Reader.exactly [']']
  return .array (items.getD [])

/-- An entry: a path of keys and a value. -/
def entry (item : Reader Value) : Reader Entry := do
  let (path, key) ← keyPath
  Reader.exactly ['=']
  let _ ← spaces
  let value ← item
  return ⟨path, key, value⟩

/-- A table on one line. -/
def inlineTable (item : Reader Value) : Reader Value := do
  Reader.exactly ['\x7b']
  let entries ← Reader.optional (Reader.separated (Reader.exactly [',']) (entry item <* spaces))
  let _ ← spaces
  Reader.exactly ['\x7d']
  (tableOf? (entries.getD []) : Option Value)

/-- A value without groups. -/
def plainValue : Reader Value := Value.string <$> quotedText <|> scalarReader

/-- A value in which groups are nested up to a depth. -/
def value : Nat → Reader Value
  | 0 => plainValue
  | depth + 1 => array (value depth) <|> inlineTable (value depth) <|> plainValue

/-! ### Statements -/

/-- The header of a table or of one more table of a list. -/
def header : Reader Statement :=
  (do
    Reader.exactly ['[', '[']
    let (path, key) ← keyPath
    Reader.exactly [']', ']']
    return .item path key) <|>
  (do
    Reader.exactly ['[']
    let (path, key) ← keyPath
    Reader.exactly [']']
    return .header path key)

/-- A statement. -/
def statement : Reader Statement := header <|> Statement.entry <$> entry (value (depthLimit - 1))

/-- The end of a line or of the text. -/
def lineEnd : Reader Unit := newline <|> Reader.atEnd

/-- A line, with a statement or without. -/
def line : Reader (Option Statement) := do
  let _ ← spaces
  let found ← Reader.optional statement
  let _ ← spaces
  let _ ← Reader.optional comment
  lineEnd
  return found

/-- The mark that may stand at the beginning of a text. -/
def byteOrderMark : Text := ['\ufeff']

/-- The statements of a text. -/
def statements? (t : Text) : Option (List Statement) :=
  let body := (Text.stripLeading? byteOrderMark t).getD t
  (Reader.whole? (Reader.many line) body).map fun found => found.filterMap id

/-- The fields of the table that a text writes. -/
def parse? (t : Text) : Option (List (Text × Value)) := statements? t >>= build?

end EntityLint.Toml
