import Nya.Number.Shortest

/-!
# Numbers as text

Three layouts of a number occur: the plain one (every digit written out, never an exponent), the
one of values at run time, which writes an integral number as an integer, and the one of token
listings. A fourth, for JSON, has an exponent for very small and very large numbers.
-/

namespace Nya.Number

/-! ## Digits in place -/

/-- The decimal digits of a natural number, most significant first. -/
def digitsOf (n : Nat) : String := String.ofList (Nat.toDigits 10 n)

/-- A run of zeros. -/
def zeros (n : Nat) : String := String.ofList (List.replicate n '0')

/-- Writes a decimal without an exponent: zeros fill the places up to the point. -/
def Decimal.positional (d : Decimal) : String :=
  let ds := Nat.toDigits 10 d.digits
  let places := (-d.exponent).toNat
  if places = 0 then String.ofList ds ++ zeros d.exponent.toNat
  else if places < ds.length then
    String.ofList (ds.take (ds.length - places)) ++ "." ++
      String.ofList (ds.drop (ds.length - places))
  else "0." ++ zeros (places - ds.length) ++ String.ofList ds

/-- The exponent of the leading digit. -/
def Decimal.leading (d : Decimal) : Int :=
  d.exponent + (Nat.toDigits 10 d.digits).length - 1

/-- Writes a decimal with one digit before the point and a signed exponent. -/
def Decimal.scientific (d : Decimal) : String :=
  let ds := Nat.toDigits 10 d.digits
  let mantissa :=
    if ds.length ≤ 1 then String.ofList ds
    else String.ofList (ds.take 1) ++ "." ++ String.ofList (ds.drop 1)
  let e := d.leading
  mantissa ++ "e" ++ (if e < 0 then "-" else "+") ++ digitsOf e.natAbs

/-- Puts a minus sign in front of a negative number. -/
def signed (x : Float) (text : String) : String :=
  if isNegative x then "-" ++ text else text

/-! ## Layouts -/

/-- The plain layout: the shortest digits that read back, never an exponent. -/
def plain (x : Float) : String :=
  match shape x with
  | .nan => "NaN"
  | .infinite => signed x "inf"
  | .finite 0 _ => signed x "0"
  | .finite m q => signed x (shortest .up m q).positional

/-- Magnitudes from here on are never written as integers. -/
def integerLimit : Nat := Nat.pow 2 63

/-- The integer that is written in place of an integral number of moderate size. -/
def moderateInteger? (x : Float) : Option Int :=
  (integer? x).filter fun n => n.natAbs < integerLimit

/-- Writes an integer in decimal. -/
def integerText (n : Int) : String :=
  if n < 0 then "-" ++ digitsOf n.natAbs else digitsOf n.natAbs

/-- The layout of values at run time: integers as integers, negative zero as `-0`. -/
def text (x : Float) : String :=
  match moderateInteger? x with
  | some n => if n = 0 && isNegative x then "-0" else integerText n
  | none => plain x

/-- The layout of token listings: integers have a `.0`, and zero has no sign. -/
def listing (x : Float) : String :=
  match moderateInteger? x with
  | some n => integerText n ++ ".0"
  | none => plain x

/--
The layout of JSON: between `10 ^ -5` and `10 ^ 16` without an exponent and with a point, outside
with an exponent. JSON has no infinities and no NaN, so these are `null`.
-/
def json (x : Float) : String :=
  match shape x with
  | .nan | .infinite => "null"
  | .finite 0 _ => signed x "0.0"
  | .finite m q =>
    let d := shortest .even m q
    if -5 ≤ d.leading && d.leading < 16 then
      signed x (if 0 ≤ d.exponent then d.positional ++ ".0" else d.positional)
    else signed x d.scientific

end Nya.Number
