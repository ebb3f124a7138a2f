import Nya.Number.Binary

/-!
# The fewest digits that read back

A decimal reads back as a number when it lies between the midpoints to the number's two neighbours.
`shortest` finds, for `m * 2 ^ q`, the decimal with the fewest digits that reads back, and among
those the nearest one.

For each count of digits from one to seventeen the decimals with that many digits form a grid, and
only the two grid points around the value need a test: if any grid point lies in the interval, one
of these two does. Seventeen digits always suffice.

All quantities are fractions `numerator / denominator` of natural numbers.
-/

namespace Nya.Number

/-- Which of two equally near decimals is taken. -/
inductive Tie where
  | up
  | even
  deriving DecidableEq, Repr

/-- The decimal number `digits * 10 ^ exponent`. -/
structure Decimal where
  digits : Nat
  exponent : Int
  deriving DecidableEq, Repr

/-- The interval of the reals that round to one number, with the number itself. -/
structure Interval where
  /-- Common denominator of the three numerators. -/
  scale : Nat
  low : Nat
  value : Nat
  high : Nat
  /-- Whether the two ends belong to the interval. -/
  closed : Bool

/--
The interval around `m * 2 ^ q`. The gap below a power of two is half the gap above it, except at
the smallest exponent. A midpoint rounds to the even significand.
-/
def Interval.around (m : Nat) (q : Int) : Interval :=
  let up := Nat.pow 2 (q - 2).toNat
  let below := if m = Nat.pow 2 52 ∧ minExponent < q then 1 else 2
  { scale := Nat.pow 2 (2 - q).toNat
    low := (4 * m - below) * up
    value := 4 * m * up
    high := (4 * m + 2) * up
    closed := m % 2 == 0 }

/-- Whether the fraction `n / d` lies in the interval. -/
def Interval.contains (i : Interval) (n d : Nat) : Bool :=
  if i.closed then i.low * d ≤ n * i.scale && n * i.scale ≤ i.high * d
  else i.low * d < n * i.scale && n * i.scale < i.high * d

/-- The exponent of the leading decimal digit of `n / d`, for positive `n` and `d`. -/
def leadingExponent (n d : Nat) : Int :=
  let guess : Int := (Nat.toDigits 10 n).length - (Nat.toDigits 10 d).length
  if d * Nat.pow 10 guess.toNat ≤ n * Nat.pow 10 (-guess).toNat then guess else guess - 1

/--
The best decimal on the grid of the multiples of `10 ^ e`: of the two grid points around the value,
those inside the interval, and of two the nearer one.
-/
def onGrid (tie : Tie) (i : Interval) (e : Int) : Option Decimal :=
  let mul := Nat.pow 10 e.toNat
  let div := Nat.pow 10 (-e).toNat
  let d := i.value * div / (i.scale * mul)
  let hasLower := i.contains (d * mul) div
  let hasUpper := i.contains ((d + 1) * mul) div
  let twice := 2 * i.value * div
  let middle := (2 * d + 1) * (i.scale * mul)
  let preferUpper := twice > middle || twice == middle && (tie == .up || d % 2 == 1)
  if hasLower && hasUpper then some ⟨if preferUpper then d + 1 else d, e⟩
  else if hasUpper then some ⟨d + 1, e⟩
  else if hasLower then some ⟨d, e⟩
  else none

/-- The first grid that has a decimal in the interval, from the grid of `10 ^ e` to finer ones. -/
def firstGrid (tie : Tie) (i : Interval) (e : Int) : Nat → Decimal
  | 0 => ⟨i.value / i.scale, 0⟩
  | n + 1 =>
    match onGrid tie i e with
    | some decimal => decimal
    | none => firstGrid tie i (e - 1) n

/-- Drops the zeros at the end of the digits. -/
def Decimal.trimmed (d : Decimal) : Decimal :=
  let ds := Nat.toDigits 10 d.digits
  let trailing := (ds.reverse.takeWhile (· == '0')).length
  ⟨d.digits / Nat.pow 10 trailing, d.exponent + trailing⟩

/-- The shortest decimal that reads back as `m * 2 ^ q`, for a positive significand. -/
def shortest (tie : Tie) (m : Nat) (q : Int) : Decimal :=
  let i := Interval.around m q
  (firstGrid tie i (leadingExponent i.value i.scale) 17).trimmed

end Nya.Number
