/-!
# Decimal text of binary floats

A finite double is `m * 2 ^ q`. It is written in positional notation, without an exponent:
with all of its digits if it is a whole number, else with the fewest digits that read back as
the same double. Of two such decimals with equally many digits the nearer one is written, and
the larger one if they are equally near.

All comparisons are made in whole numbers.

## Main definitions

* `Dyadic64` — a positive finite double as `m * 2 ^ q`
* `Dyadic64.readsBack` — the decimals that round to the double
* `Dyadic64.shortest` — the decimal with the fewest digits among them
* `positional` — the notation without an exponent
-/

namespace SharedArrays

/-- A positive finite double, as significand and exponent. -/
structure Dyadic64 where
  /-- The significand, below `2 ^ 53`. -/
  m : Nat
  /-- The exponent of the last bit, at least `-1074`. -/
  q : Int
deriving DecidableEq, Repr

/-- A decimal `digits * 10 ^ exponent`. -/
structure Decimal where
  digits : Nat
  exponent : Int
deriving DecidableEq, Repr

/-- The number of digits of `n` in base ten. -/
def digitCount (n : Nat) : Nat := (Nat.toDigits 10 n).length

/-- The fraction `a * b ^ e` as numerator and denominator. -/
def scaled (a b : Nat) (e : Int) : Nat × Nat :=
  if 0 ≤ e then (a * b.pow e.toNat, 1) else (a, b.pow (-e).toNat)

namespace Dyadic64

/-- The double as a fraction. -/
def fraction (v : Dyadic64) : Nat × Nat := scaled v.m 2 v.q

/-- A whole number. -/
def isWhole (v : Dyadic64) : Bool := v.fraction.1 % v.fraction.2 == 0

/-- The whole part. -/
def floor (v : Dyadic64) : Nat := v.fraction.1 / v.fraction.2

/-- Four times the significand, less and plus half of the distance to the two neighbours. Below a
power of two the neighbour is only half as far away. -/
def bounds (v : Dyadic64) : Nat × Nat :=
  (if v.m = Nat.pow 2 52 ∧ v.q ≠ -1074 then 4 * v.m - 1 else 4 * v.m - 2, 4 * v.m + 2)

/-- The decimal rounds to the double: it lies between the midpoints to the two neighbours, which
belong to the double if its significand is even. -/
def readsBack (v : Dyadic64) (d : Decimal) : Bool :=
  let (n, den) := scaled d.digits 10 d.exponent
  -- The bounds count quarters of the last bit.
  let (lo, hi) := v.bounds
  let (loNum, unit) := scaled lo 2 (v.q - 2)
  let (hiNum, _) := scaled hi 2 (v.q - 2)
  if v.m % 2 = 0 then loNum * den ≤ n * unit ∧ n * unit ≤ hiNum * den
  else loNum * den < n * unit ∧ n * unit < hiNum * den

/-- The number of digits in front of the point; for a number below one, less the zeros that
follow the point. -/
def magnitude (v : Dyadic64) : Int :=
  let (n, den) := v.fraction
  if den ≤ n then digitCount (n / den) else 1 - (digitCount (den / n) : Int)

/-- The decimals with the last digit at `10 ^ k` that enclose the double. -/
def neighbours (v : Dyadic64) (k : Int) : Decimal × Decimal :=
  let (n, den) := v.fraction
  let (unit, part) := scaled 1 10 k
  let d := n * part / (den * unit)
  (⟨d, k⟩, ⟨d + 1, k⟩)

/-- The double is nearer to the lower one of its two neighbours at `10 ^ k`. -/
def isNearLower (v : Dyadic64) (k : Int) : Bool :=
  let (n, den) := v.fraction
  let (unit, part) := scaled 1 10 k
  2 * (n * part % (den * unit)) < den * unit

/-- The decimal with the last digit at `10 ^ k` that reads back as the double, the nearer one if
there are two. -/
def candidate? (v : Dyadic64) (k : Int) : Option Decimal :=
  let (lower, upper) := v.neighbours k
  match v.readsBack lower, v.readsBack upper with
  | true, true => some (if v.isNearLower k then lower else upper)
  | true, false => some lower
  | false, true => some upper
  | false, false => none

/-- The decimal with the fewest digits that reads back as the double. Seventeen always suffice.
The upper neighbour of a number that starts with 9 can be a power of ten, whose zero is
dropped. -/
def shortest (v : Dyadic64) : Decimal :=
  let d := ((List.range 17).findSome? fun (n : Nat) => v.candidate? (v.magnitude - 1 - n)).getD
    (v.neighbours (v.magnitude - 17)).1
  if d.digits % 10 = 0 then ⟨d.digits / 10, d.exponent + 1⟩ else d

end Dyadic64

/-- A decimal in positional notation. -/
def positional (d : Decimal) : String :=
  let digits := toString d.digits
  if 0 ≤ d.exponent then digits ++ "".pushn '0' d.exponent.toNat
  else
    let places := (-d.exponent).toNat
    let padded := "".pushn '0' (places + 1 - digits.length) ++ digits
    let front := padded.length - places
    String.ofList (padded.toList.take front) ++ "." ++ String.ofList (padded.toList.drop front)

/-- The text of a finite double without its sign: whole numbers with all digits and one zero
after the point, others with the fewest digits. -/
def Dyadic64.text (v : Dyadic64) : String :=
  if v.isWhole then toString v.floor ++ ".0" else positional v.shortest

end SharedArrays
