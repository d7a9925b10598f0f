import EntityLint.Number.Binary64
import EntityLint.Text.Basic

/-!
# Numerals

Reading decimal numerals.

* `Numeral.natural?`, `Numeral.signed?`, `Numeral.valueIn`: whole numbers;
* `Numeral.Decimal`, `Numeral.decimal?`: numbers with a fraction or an exponent;
* `Numeral.inWord`, `Numeral.saturate`: whole numbers of 64 bits with a sign.
-/

namespace EntityLint.Numeral

/-- The value of a digit. -/
def digit (c : Char) : Nat := c.toNat - '0'.toNat

/-- The value of some digits. -/
def value (digits : Text) : Nat := digits.foldl (fun n c => 10 * n + digit c) 0

/-- The number that some digits write. -/
def natural? (t : Text) : Option Nat :=
  if !t.isEmpty && t.all Char.isDigit then some (value t) else none

/-- The value of a digit in a base of at most 36, where letters follow the digits. -/
def digitIn (c : Char) : Nat :=
  if c.isDigit then digit c else c.toLower.toNat - 'a'.toNat + 10

/-- Whether a character is a digit in a base of at most 36. -/
def isDigitIn (base : Nat) (c : Char) : Bool := c.isAlphanum && digitIn c < base

/-- The value of some digits in a base. -/
def valueIn (base : Nat) (digits : Text) : Nat := digits.foldl (fun n c => base * n + digitIn c) 0

/-- The sign that begins a text, true for a minus, and the rest. -/
def sign (t : Text) : Bool × Text :=
  match t with
  | '-' :: rest => (true, rest)
  | '+' :: rest => (false, rest)
  | _ => (false, t)

/-- The number that some digits with an optional sign write. -/
def signed? (t : Text) : Option Int :=
  let (negative, digits) := sign t
  (natural? digits).map fun n => if negative then -n else n

/-- The first number that does not fit in 64 bits with a sign. -/
def wordBound : Int := Int.ofNat (Nat.pow 2 63)

/-- Whether a number fits in 64 bits with a sign. -/
def inWord (n : Int) : Bool := decide (-wordBound ≤ n ∧ n < wordBound)

/-- The nearest number that fits in 64 bits with a sign. -/
def saturate (n : Int) : Int :=
  if n < -wordBound then -wordBound else if n < wordBound then n else wordBound - 1

/-- A decimal number `digits · 10 ^ power` with a sign. -/
structure Decimal where
  negative : Bool
  digits : Nat
  power : Int
  deriving DecidableEq, Repr

/-- The nearest binary number, unless it is too large. -/
def Decimal.toBinary64? (d : Decimal) : Option Binary64 :=
  Binary64.ofDecimal? d.negative d.digits d.power

/-- The exponent that follows the digits of a numeral, zero if nothing follows. -/
def exponent? : Text → Option Int
  | [] => some 0
  | c :: t => if c = 'e' ∨ c = 'E' then signed? t else none

/-- The number written with an optional sign, digits with at most one point among them or around
them, and an optional exponent. -/
def decimal? (t : Text) : Option Decimal := do
  let (negative, rest) := sign t
  let whole := rest.takeWhile Char.isDigit
  let rest := rest.dropWhile Char.isDigit
  let (fraction, rest) := match rest with
    | '.' :: rest => (rest.takeWhile Char.isDigit, rest.dropWhile Char.isDigit)
    | _ => ([], rest)
  let digits ← natural? (whole ++ fraction)
  let power ← exponent? rest
  return ⟨negative, digits, power - fraction.length⟩

end EntityLint.Numeral
