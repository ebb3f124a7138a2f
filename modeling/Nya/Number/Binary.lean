/-!
# Binary64 numbers taken apart

Every finite number is `significand * 2 ^ exponent`, up to its sign. This module reads that pair
off the bits, builds a number back from a pair, and computes the two operations that need the exact
pair: the value of an integral number, and the remainder of a division.

All arithmetic here is on `Nat` and `Int`, so nothing is rounded.
-/

namespace Nya.Number

/-! ## Reading the bits -/

/-- What the bits of a number say once the sign is set aside. -/
inductive Shape where
  | nan
  | infinite
  | finite (significand : Nat) (exponent : Int)
  deriving DecidableEq, Repr

/-- The top bit. It is set for negative zero, too. -/
def isNegative (x : Float) : Bool :=
  x.toBits.toNat / Nat.pow 2 63 == 1

/-- The smallest exponent, that of the subnormal numbers. -/
def minExponent : Int := -1074

/-- Sorts a number and reads off its significand and exponent. -/
def shape (x : Float) : Shape :=
  let biased : Nat := x.toBits.toNat / Nat.pow 2 52 % Nat.pow 2 11
  let fraction : Nat := x.toBits.toNat % Nat.pow 2 52
  if biased = 2047 then
    if fraction = 0 then .infinite else .nan
  else if biased = 0 then .finite fraction minExponent
  else .finite (Nat.pow 2 52 + fraction) (biased + minExponent - 1)

/-- Not a number. -/
def isNaN (x : Float) : Bool := shape x == .nan

/-! ## Building a number -/

/--
The number `± significand * 2 ^ exponent`, for a significand below `2 ^ 53` and an exponent of at
least `minExponent`. The significand is first shifted up as far as the format allows, so that each
value has one pair.
-/
def ofParts (negative : Bool) (significand : Nat) (exponent : Int) : Float :=
  let room := (exponent - minExponent).toNat
  let shift := if significand = 0 then room else min (52 - significand.log2) room
  let m := significand * Nat.pow 2 shift
  let biased := if m < Nat.pow 2 52 then 0 else room - shift + 1
  let sign := if negative then Nat.pow 2 63 else 0
  Float.ofBits (UInt64.ofNat (sign + biased * Nat.pow 2 52 + m % Nat.pow 2 52))

/-! ## Exact operations -/

/-- The integer that a finite number equals, if it equals one. -/
def integer? (x : Float) : Option Int :=
  match shape x with
  | .finite m q =>
    let magnitude? : Option Nat :=
      if 0 ≤ q then some (m * Nat.pow 2 q.toNat)
      else if m % Nat.pow 2 (-q).toNat = 0 then some (m / Nat.pow 2 (-q).toNat)
      else none
    magnitude?.map fun n => if isNegative x then -(n : Int) else n
  | _ => none

/--
The remainder of the division that truncates its quotient: it has the sign of the dividend and is
exact. There is none for an infinite dividend or a zero divisor, and an infinite divisor leaves the
dividend as it is.
-/
def remainder (x y : Float) : Float :=
  match shape x, shape y with
  | .finite m p, .finite n q =>
    if n = 0 then 0.0 / 0.0
    else
      let e := min p q
      ofParts (isNegative x) (m * Nat.pow 2 (p - e).toNat % (n * Nat.pow 2 (q - e).toNat)) e
  | .finite _ _, .infinite => x
  | _, _ => 0.0 / 0.0

end Nya.Number
