import EntityLint.Number.Numeral
import EntityLint.Toml.Reader

/-!
# Quoted texts

A text is quoted with double quotes, in which backslashes begin escapes, or with single quotes, in
which every character stands for itself. Three quotes at each end admit line ends.

* `newline`, `spaces`, `isLineChar`: what lines are made of;
* `escape`, `lineContinuation`;
* `quotedLine`: a quoted text on one line;
* `quotedText`: any quoted text.
-/

namespace EntityLint.Toml

/-- A line end. -/
def newline : Reader Unit := Reader.exactly ['\n'] <|> Reader.exactly ['\r', '\n']

/-- Blanks inside a line. -/
def spaces : Reader Text := Reader.run Text.isSpaceOrTab

/-- Characters that may stand in a line: all but control characters, and tabs. -/
def isLineChar (c : Char) : Bool := c == '\t' || (0x20 ≤ c.toNat && c.toNat != 0x7F)

/-! ### Escapes -/

/-- The character whose number is written with a fixed count of hexadecimal digits. -/
def codePoint (count : Nat) : Reader Char := fun t =>
  let digits := t.take count
  let n := Numeral.valueIn 16 digits
  if digits.length = count ∧ digits.all (Numeral.isDigitIn 16) ∧ n.isValidChar then
    some (Char.ofNat n, t.drop count)
  else none

/-- The character that an escape of one letter stands for. -/
def shortEscape? : Char → Option Char
  | 'b' => some '\x08'
  | 't' => some '\t'
  | 'n' => some '\n'
  | 'f' => some '\x0c'
  | 'r' => some '\r'
  | '"' => some '"'
  | '\\' => some '\\'
  | _ => none

/-- An escape, which stands for one character. -/
def escape : Reader Text := do
  Reader.exactly ['\\']
  let letter ← Reader.one fun _ => true
  if letter = 'u' then List.singleton <$> codePoint 4
  else if letter = 'U' then List.singleton <$> codePoint 8
  else (shortEscape? letter).map List.singleton

/-- A backslash at the end of a line, with the blanks and line ends after it. It stands for
nothing. -/
def lineContinuation : Reader Text := do
  Reader.exactly ['\\']
  let _ ← spaces
  newline
  let _ ← Reader.many (newline <|> (do let _ ← Reader.someRun Text.isSpaceOrTab))
  return []

/-! ### One line -/

/-- A run of characters that stand for themselves between quotes of a kind. -/
def plainRun (quote : Char) : Reader Text :=
  Reader.someRun fun c => isLineChar c && c != quote && !(quote == '"' && c == '\\')

/-- A text between quotes of a kind, on one line. -/
def quotedWith (quote : Char) : Reader Text := do
  Reader.exactly [quote]
  let parts ← Reader.many (if quote = '"' then plainRun quote <|> escape else plainRun quote)
  Reader.exactly [quote]
  return parts.flatten

/-- A quoted text on one line. -/
def quotedLine : Reader Text := quotedWith '"' <|> quotedWith '\''

/-! ### Several lines -/

/-- One or two quotes that are not followed by another, which stand for themselves. -/
def innerQuotes (quote : Char) : Reader Text := do
  let quotes ← Reader.someRun (· == quote)
  guard (quotes.length < 3)
  return quotes

/-- Three quotes that end a text, and up to two in front of them, which stand for themselves. -/
def closingQuotes (quote : Char) : Reader Text := do
  let quotes ← Reader.run (· == quote)
  guard (3 ≤ quotes.length ∧ quotes.length ≤ 5)
  return quotes.drop 3

/-- A part of a text of several lines. Every line end stands for a line feed. -/
def linesPart (quote : Char) : Reader Text :=
  let ordinary := plainRun quote <|> (do newline; return ['\n']) <|> innerQuotes quote
  if quote = '"' then ordinary <|> lineContinuation <|> escape else ordinary

/-- A text between three quotes of a kind. A line end at its beginning does not count. -/
def quotedLinesWith (quote : Char) : Reader Text := do
  Reader.exactly [quote, quote, quote]
  let _ ← Reader.optional newline
  let parts ← Reader.many (linesPart quote)
  let last ← closingQuotes quote
  return parts.flatten ++ last

/-- A quoted text. -/
def quotedText : Reader Text := quotedLinesWith '"' <|> quotedLinesWith '\'' <|> quotedLine

end EntityLint.Toml
