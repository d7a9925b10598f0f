import EntityLint.Number.Binary64

/-!
# The shortest digits of a binary number

* `Binary64.Interval`, `Binary64.interval`: the reals that round to a number;
* `Binary64.shortest`: the fewest decimal digits that read back as the number;
* `Binary64.text`: digits around a point where that is short, with an exponent elsewhere.
-/

namespace EntityLint.Binary64

/-- A number and the bounds of the reals that round to it, all in units of `2 ^ unit`. The bounds
round to the number themselves if they are included. -/
structure Interval where
  low : Nat
  mid : Nat
  high : Nat
  unit : Int
  included : Bool
  deriving DecidableEq, Repr

/-- The reals that round to a number. Below a power of two the next number is only half as far. -/
def interval (x : Binary64) : Interval :=
  let narrow := x.mantissa = Nat.pow 2 52 ∧ -1074 < x.exponent
  ⟨4 * x.mantissa - (if narrow then 1 else 2), 4 * x.mantissa, 4 * x.mantissa + 2,
    x.exponent - 2, x.mantissa % 2 = 0⟩

/-- What a count of units amounts to in steps of `10 ^ power`, as a fraction. -/
def inSteps (count : Nat) (unit power : Int) : Nat × Nat :=
  let (a, b) :=
    if 0 ≤ unit then (count * Nat.pow 2 unit.toNat, 1) else (count, Nat.pow 2 (-unit).toNat)
  if 0 ≤ power then (a, b * Nat.pow 10 power.toNat) else (a * Nat.pow 10 (-power).toNat, b)

/-- Whether a number of units is at least `10 ^ power`. -/
def reaches (count : Nat) (unit power : Int) : Bool :=
  let (a, b) := inSteps count unit power
  b ≤ a

/-- The greatest power of ten that a positive number of units reaches. -/
def leadingPower (count : Nat) (unit : Int) : Int :=
  let guess := ((Nat.log2 count : Int) + unit) * 30103 / 100000
  if reaches count unit (guess + 1) then guess + 1
  else if reaches count unit guess then guess
  else guess - 1

/-- The digits of an interval in steps of `10 ^ power`: of the two neighbours of the number the one
that lies in the interval, the nearer one if both do, and the greater one if both are as near. -/
def digitsAt? (i : Interval) (power : Int) : Option Nat :=
  let (mid, step) := inSteps i.mid i.unit power
  let (low, _) := inSteps i.low i.unit power
  let (high, _) := inSteps i.high i.unit power
  let below := mid / step
  let above := below + 1
  let lowIn := if i.included then low ≤ below * step else low < below * step
  let highIn := if i.included then above * step ≤ high else above * step < high
  if lowIn ∧ highIn then
    some (if mid - below * step < above * step - mid then below else above)
  else if lowIn then some below
  else if highIn then some above
  else none

/-- The first of the next `count` grids, from the coarsest on, that has digits in an interval. -/
def firstGrid (i : Interval) (power : Int) : Nat → Nat × Int
  | 0 => (i.mid, 0)
  | count + 1 =>
    match digitsAt? i power with
    | some digits => (digits, power)
    | none => firstGrid i (power - 1) count

/-- Digits without zeros at their end, of which there are at most `count`, and their power. -/
def withoutZeros (digits : Nat) (power : Int) : Nat → Nat × Int
  | 0 => (digits, power)
  | count + 1 =>
    if digits % 10 = 0 ∧ digits ≠ 0 then withoutZeros (digits / 10) (power + 1) count
    else (digits, power)

/-- The fewest digits that read back as a positive number, and the power of ten of the last one.
Seventeen are always enough. -/
def shortest (x : Binary64) : Nat × Int :=
  let i := x.interval
  let (digits, power) := firstGrid i (leadingPower i.mid i.unit) 17
  withoutZeros digits power 17

/-- The text of a number: positional from `0.0001` on and below `10 ^ 16`, always with a point, and
elsewhere with one digit before the point and an exponent. -/
def text (x : Binary64) : String :=
  let sign := if x.negative then "-" else ""
  if x.mantissa = 0 then sign ++ "0.0"
  else
    let (digits, power) := x.shortest
    let ds := (toString digits).toList
    let lead := power + ds.length - 1
    let body : List Char :=
      if lead < -4 ∨ 15 < lead then
        let fraction := if ds.length = 1 then [] else '.' :: ds.drop 1
        ds.take 1 ++ fraction ++ 'e' :: (toString lead).toList
      else if 0 ≤ power then ds ++ List.replicate power.toNat '0' ++ ['.', '0']
      else if 0 ≤ lead then
        ds.take (lead.toNat + 1) ++ '.' :: ds.drop (lead.toNat + 1)
      else '0' :: '.' :: (List.replicate (-lead - 1).toNat '0' ++ ds)
    sign ++ String.ofList body

end EntityLint.Binary64
