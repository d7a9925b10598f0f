/-!
# Binary floating point numbers

The finite numbers of the format with 53 binary digits and exponents from −1074 to 971, and the
rounding of a decimal number to them.

* `Binary64`, `Binary64.truncate`;
* `Binary64.ofRatio?`, `Binary64.ofDecimal?`: the nearest number, an even one where two are as near.
-/

namespace EntityLint

/-- The number `mantissa · 2 ^ exponent`, with a sign. -/
structure Binary64 where
  negative : Bool
  mantissa : Nat
  exponent : Int
  deriving DecidableEq, Repr

namespace Binary64

/-- The quotient of two naturals, rounded to the nearest natural and to the even one of two. -/
def divideToEven (a b : Nat) : Nat :=
  let q := a / b
  let r := a % b
  if b < 2 * r ∨ (2 * r = b ∧ q % 2 = 1) then q + 1 else q

/-- The quotient `a / (b · 2 ^ e)` as a fraction of naturals. -/
def scale (a b : Nat) (e : Int) : Nat × Nat :=
  if 0 ≤ e then (a, b * Nat.pow 2 e.toNat) else (a * Nat.pow 2 (-e).toNat, b)

/-- The binary exponent at which `a / b` has 53 digits before the point, and not less than the
smallest exponent. -/
def exponentFor (a b : Nat) : Int :=
  let guess : Int := (Nat.log2 a : Int) - Nat.log2 b - 52
  let (n, d) := scale a b guess
  let exact :=
    if n / d < Nat.pow 2 52 then guess - 1
    else if Nat.pow 2 53 ≤ n / d then guess + 1
    else guess
  if exact < -1074 then -1074 else exact

/-- The number nearest to `a / b`, unless it is too large. -/
def ofRatio? (negative : Bool) (a b : Nat) : Option Binary64 :=
  if a = 0 then some ⟨negative, 0, 0⟩
  else
    let e := exponentFor a b
    let (n, d) := scale a b e
    let m := divideToEven n d
    let (m, e) := if m = Nat.pow 2 53 then (Nat.pow 2 52, e + 1) else (m, e)
    if 971 < e then none else some ⟨negative, m, e⟩

/-- The number nearest to `digits · 10 ^ power`, unless it is too large. Powers so far out that the
answer is known are not multiplied out. -/
def ofDecimal? (negative : Bool) (digits : Nat) (power : Int) : Option Binary64 :=
  let size : Int := Nat.log2 digits + 1
  if digits = 0 then some ⟨negative, 0, 0⟩
  else if 1100 < size + 3 * power ∧ 0 < power then none
  else if size + 3 * power < -1100 ∧ power < 0 then some ⟨negative, 0, 0⟩
  else if 0 ≤ power then ofRatio? negative (digits * Nat.pow 10 power.toNat) 1
  else ofRatio? negative digits (Nat.pow 10 (-power).toNat)

/-- The integer part. -/
def truncate (x : Binary64) : Int :=
  let n : Nat := if 0 ≤ x.exponent then x.mantissa * Nat.pow 2 x.exponent.toNat
    else x.mantissa / Nat.pow 2 (-x.exponent).toNat
  if x.negative then -n else n

end Binary64

end EntityLint
