import EntityLint.Number.Numeral
import EntityLint.Toml.Reader

/-!
# Dates and times

* `Date`, `Time`, `Offset`, `Datetime`, each with a reader and a text;
* `Datetime.read?`.

The text of a date and time is not always the one that it was read from: it has a capital `T`
between them, up to nine digits of a second, and an offset of no minutes is positive.
-/

namespace EntityLint.Toml

/-- A number below a bound with a fixed number of digits. -/
def fixedDigits (count bound : Nat) : Reader Nat := fun t =>
  let digits := t.take count
  if digits.length = count ∧ digits.all Char.isDigit ∧ Numeral.value digits < bound then
    some (Numeral.value digits, t.drop count)
  else none

/-- The text of a number with zeros in front up to a width. -/
def padded (width n : Nat) : Text :=
  let digits := (toString n).toList
  List.replicate (width - digits.length) '0' ++ digits

/-! ### Dates -/

/-- A day of a calendar. -/
structure Date where
  year : Nat
  month : Nat
  day : Nat
  deriving DecidableEq, Repr

namespace Date

/-- Whether a year has a twenty-ninth of February. -/
def isLeapYear (year : Nat) : Bool := year % 4 == 0 && (year % 100 != 0 || year % 400 == 0)

/-- The number of days of a month. -/
def daysOf (year month : Nat) : Nat :=
  if month = 2 then (if isLeapYear year then 29 else 28)
  else if month ∈ [4, 6, 9, 11] then 30
  else 31

/-- The date that a text begins with. -/
def reader : Reader Date := do
  let year ← fixedDigits 4 10000
  Reader.exactly ['-']
  let month ← fixedDigits 2 13
  Reader.exactly ['-']
  let day ← fixedDigits 2 32
  guard (1 ≤ month ∧ 1 ≤ day ∧ day ≤ daysOf year month)
  return ⟨year, month, day⟩

/-- The text of a date. -/
def text (d : Date) : Text := padded 4 d.year ++ '-' :: (padded 2 d.month ++ '-' :: padded 2 d.day)

end Date

/-! ### Times -/

/-- A time of a day. A minute may have a second more than sixty. -/
structure Time where
  hour : Nat
  minute : Nat
  second : Nat
  nanosecond : Nat
  deriving DecidableEq, Repr

namespace Time

/-- The nanoseconds of the digits of a fraction. Digits after the ninth are dropped. -/
def nanoseconds (digits : Text) : Nat :=
  Numeral.value (digits.take 9) * Nat.pow 10 (9 - digits.length)

/-- The time that a text begins with. -/
def reader : Reader Time := do
  let hour ← fixedDigits 2 24
  Reader.exactly [':']
  let minute ← fixedDigits 2 60
  Reader.exactly [':']
  let second ← fixedDigits 2 61
  let fraction ← Reader.optional (Reader.exactly ['.'] *> Reader.someRun Char.isDigit)
  return ⟨hour, minute, second, fraction.elim 0 nanoseconds⟩

/-- The text of a time, with a fraction if there is one, which does not end in a zero. -/
def text (t : Time) : Text :=
  let fraction :=
    if t.nanosecond = 0 then []
    else '.' :: Text.dropEndWhile (· == '0') (padded 9 t.nanosecond)
  padded 2 t.hour ++ ':' :: (padded 2 t.minute ++ ':' :: padded 2 t.second) ++ fraction

end Time

/-! ### Offsets -/

/-- How far a clock is from universal time. -/
inductive Offset
  | none
  | minutes (n : Int)
  deriving DecidableEq, Repr

namespace Offset

/-- The offset that a text begins with. -/
def reader : Reader Offset :=
  (do
    let _ ← Reader.one fun c => c == 'Z' || c == 'z'
    return none) <|>
  (do
    let sign ← Reader.one fun c => c == '+' || c == '-'
    let hours ← fixedDigits 2 24
    Reader.exactly [':']
    let rest ← fixedDigits 2 60
    let n : Int := hours * 60 + rest
    return minutes (if sign = '-' then -n else n))

/-- The text of an offset. -/
def text : Offset → Text
  | none => ['Z']
  | minutes n =>
    let size := n.natAbs
    (if n < 0 then '-' else '+') :: (padded 2 (size / 60) ++ ':' :: padded 2 (size % 60))

end Offset

/-! ### Dates with times -/

/-- A date, a time of a day, or both, of a local clock or of one whose offset is known. -/
inductive Datetime
  | date (d : Date)
  | time (t : Time)
  | both (d : Date) (t : Time) (offset : Option Offset)
  deriving DecidableEq, Repr

namespace Datetime

/-- What may stand between a date and a time. -/
def isSeparator (c : Char) : Bool := c == 'T' || c == 't' || c == ' '

/-- A date, or a date and a time. -/
def dateReader : Reader Datetime := do
  let d ← Date.reader
  let clock ← Reader.optional do
    let _ ← Reader.one isSeparator
    let t ← Time.reader
    let offset ← Reader.optional Offset.reader
    return both d t offset
  return clock.getD (date d)

/-- The date, the time or both that a text writes. -/
def read? (t : Text) : Option Datetime :=
  Reader.whole? dateReader t <|> Reader.whole? (time <$> Time.reader) t

/-- The text of a date, a time or both. -/
def text : Datetime → Text
  | date d => d.text
  | time t => t.text
  | both d t offset => d.text ++ 'T' :: (t.text ++ offset.elim [] Offset.text)

end Datetime

end EntityLint.Toml
