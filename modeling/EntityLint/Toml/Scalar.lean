import EntityLint.Toml.Value

/-!
# Numbers, truth values and dates

A value that is not quoted and not a group is a run of letters, digits and a few signs.

* `grouped?`: digits with single underscores between them;
* `integer?`, `float?`, `special?`: numbers;
* `scalar?`: the value of a run.
-/

namespace EntityLint.Toml

/-- The digits of a text in which single underscores may stand between digits. -/
def grouped? (isDigit : Char → Bool) (t : Text) : Option Text :=
  let groups := Text.pieces '_' t
  if groups.all fun g => !g.isEmpty && g.all isDigit then some groups.flatten else none

/-- The digits of a decimal numeral, which has no zeros in front. -/
def decimalDigits? (t : Text) : Option Text := do
  guard (t.head? ≠ some '0' ∨ t = ['0'])
  grouped? Char.isDigit t

/-! ### Whole numbers -/

/-- The base that the beginning of a numeral announces. -/
def baseOf? : Text → Option (Nat × Text)
  | '0' :: 'x' :: t => some (16, t)
  | '0' :: 'o' :: t => some (8, t)
  | '0' :: 'b' :: t => some (2, t)
  | _ => none

/-- The whole number that a text writes, if it fits in 64 bits. Only decimal numerals have a
sign. -/
def integer? (t : Text) : Option Int := do
  let n : Int ← match baseOf? t with
    | some (base, digits) =>
      (grouped? (Numeral.isDigitIn base) digits).map fun ds => (Numeral.valueIn base ds : Int)
    | none =>
      let (negative, digits) := Numeral.sign t
      (decimalDigits? digits).map fun ds =>
        if negative then -(Numeral.value ds : Int) else Numeral.value ds
  guard (Numeral.inWord n)
  return n

/-! ### Numbers with a fraction or an exponent -/

/-- The exponent that a text writes. -/
def exponentOf? (t : Text) : Option Int := do
  let (negative, digits) := Numeral.sign t
  let ds ← grouped? Char.isDigit digits
  return if negative then -(Numeral.value ds : Int) else Numeral.value ds

/-- The parts of a text before and after the first character that satisfies `p`, if there is one. -/
def cutAt (p : Char → Bool) (t : Text) : Text × Option Text :=
  match t.dropWhile (!p ·) with
  | [] => (t, none)
  | _ :: rest => (t.takeWhile (!p ·), some rest)

/-- The number that a text with a fraction, an exponent or both writes. -/
def decimal? (t : Text) : Option Numeral.Decimal := do
  let (negative, body) := Numeral.sign t
  let (mantissa, exponent) := cutAt (fun c => c == 'e' || c == 'E') body
  let (whole, fraction) := cutAt (· == '.') mantissa
  guard (exponent.isSome ∨ fraction.isSome)
  let wholeDigits ← decimalDigits? whole
  let fractionDigits ← fraction.elim (some []) (grouped? Char.isDigit)
  let power ← exponent.elim (some 0) exponentOf?
  return ⟨negative, Numeral.value (wholeDigits ++ fractionDigits), power - fractionDigits.length⟩

/-- The number that a text with a fraction, an exponent or both stands for. Of the numbers that are
too large only the negative ones stand for something. -/
def float? (t : Text) : Option Real := do
  let d ← decimal? t
  match d.toBinary64? with
  | some x => return .finite x
  | none => if d.negative then return .infinite true else none

/-- The number that is written as a word. -/
def special? (t : Text) : Option Real :=
  let (negative, word) := Numeral.sign t
  if word = "inf".toList then some (.infinite negative)
  else if word = "nan".toList then some .undefined
  else none

/-! ### Scalars -/

/-- The truth value that a text writes. -/
def boolean? (t : Text) : Option Bool :=
  if t = "true".toList then some true
  else if t = "false".toList then some false
  else none

/-- The value of a run. -/
def scalar? (t : Text) : Option Value :=
  (boolean? t).map .boolean <|> (Datetime.read? t).map .datetime <|> (integer? t).map .integer
    <|> (float? t).map .float <|> (special? t).map .float

/-- Characters of a run. -/
def isScalarChar (c : Char) : Bool := c.isAlphanum || "_+.:-".toList.contains c

/-- The run at the beginning of a text. A space between a date and a digit belongs to it. -/
def scalarRun : Reader Text := do
  let token ← Reader.someRun isScalarChar
  let clock ← Reader.optional do
    guard (Reader.whole? Date.reader token).isSome
    Reader.exactly [' ']
    let hour ← Reader.one Char.isDigit
    let rest ← Reader.run isScalarChar
    return ' ' :: hour :: rest
  return token ++ clock.getD []

/-- The value that a text begins with, where it is neither quoted nor a group. -/
def scalarReader : Reader Value := do
  let token ← scalarRun
  (scalar? token : Option Value)

end EntityLint.Toml
