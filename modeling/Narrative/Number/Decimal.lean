import Narrative.Number.Single

/-!
# Decimal texts of 32-bit numbers

`shortest` finds the decimal with the fewest digits that rounds back to a given
number: it walks the decimal grids from coarse to fine and stops at the first
one with a point among the reals that round to the number. Of two such points
the nearer one is taken; a tie is settled by the layout. The two layouts say how
digits and exponent become text: `Layout.wire` in documents, which always shows
a point or an exponent, and `Layout.plain` in messages, which never shows an
exponent.
-/

namespace Narrative.Number

/-- The number `digits * 10 ^ exponent`. -/
structure Decimal where
  digits : Nat
  exponent : Int
deriving DecidableEq

/-- Which of two equally near digits is taken. -/
inductive Tie where
  | toEven
  | up
deriving DecidableEq

/-- The reals that round to one number, in units of `2 ^ exponent` with `value` inside. -/
structure Interval where
  low : Nat
  value : Nat
  high : Nat
  exponent : Int
  /-- Whether the ends themselves round to the number. -/
  closed : Bool

namespace Interval

/-- The interval of a positive finite number. -/
def ofSingle (x : Single) : Interval :=
  let value := x.toBinary
  { low := 4 * value.significand - (if x.isBinadeStart then 1 else 2)
    value := 4 * value.significand
    high := 4 * value.significand + 2
    exponent := value.exponent - 2
    closed := value.significand % 2 == 0 }

/-- Size of one unit of the interval over one unit of the decimal grid, as a quotient. -/
def scale (interval : Interval) (grid : Int) : Nat × Nat :=
  (Nat.pow 2 interval.exponent.toNat * Nat.pow 10 (-grid).toNat,
   Nat.pow 2 (-interval.exponent).toNat * Nat.pow 10 grid.toNat)

/-- Whether the point `digits * 10 ^ grid` rounds to the number. -/
def contains (interval : Interval) (grid : Int) (digits : Nat) : Bool :=
  let (up, down) := interval.scale grid
  let point := digits * down
  if interval.closed then
    decide (interval.low * up ≤ point) && decide (point ≤ interval.high * up)
  else decide (interval.low * up < point) && decide (point < interval.high * up)

/-- The nearest point of a grid that rounds to the number, if the grid has one. -/
def point? (interval : Interval) (tie : Tie) (grid : Int) : Option Nat :=
  let (up, down) := interval.scale grid
  let below := interval.value * up / down
  let twice := 2 * (interval.value * up % down)
  match interval.contains grid below, interval.contains grid (below + 1) with
  | false, false => none
  | true, false => some below
  | false, true => some (below + 1)
  | true, true =>
    if twice < down then some below
    else if down < twice then some (below + 1)
    else match tie with
      | .toEven => some (below + below % 2)
      | .up => some (below + 1)

/-- The first hit on the grids `10 ^ (finest + n)`, …, `10 ^ finest`. -/
def firstPoint (interval : Interval) (tie : Tie) (finest : Int) : Nat → Decimal
  | 0 => ⟨(interval.point? tie finest).getD 0, finest⟩
  | n + 1 =>
    match interval.point? tie (finest + (n + 1 : Nat)) with
    | some digits => ⟨digits, finest + (n + 1 : Nat)⟩
    | none => firstPoint interval tie finest n

end Interval

/-- The shortest decimal that rounds to a positive finite number. -/
def shortest (tie : Tie) (x : Single) : Decimal :=
  (Interval.ofSingle x).firstPoint tie (-46) 85

/-- How decimals are laid out as text. -/
structure Layout where
  tie : Tie
  /-- Places before the point up to which a number is written positionally. -/
  integerPlaces : Int → Bool
  /-- Leading zeros after the point up to which a number is written positionally. -/
  fractionPlaces : Int → Bool
  /-- What follows the digits of an integer. -/
  integerTail : String

namespace Layout

def zeros (n : Nat) : String := String.ofList (List.replicate n '0')

/-- Digits with a point after the first, and the exponent of the first digit. -/
def scientific (digits : String) (exponent : Int) : String :=
  match digits.toList with
  | [] => ""
  | first :: [] => String.singleton first ++ "e" ++ exponent.repr
  | first :: rest =>
    String.singleton first ++ "." ++ String.ofList rest ++ "e" ++ exponent.repr

/-- The text of a positive decimal. -/
def render (layout : Layout) (x : Decimal) : String :=
  let digits := x.digits.repr
  let point : Int := (digits.length : Int) + x.exponent
  if 0 ≤ x.exponent ∧ layout.integerPlaces point then
    digits ++ zeros x.exponent.toNat ++ layout.integerTail
  else if x.exponent < 0 ∧ 0 < point ∧ layout.integerPlaces point then
    String.ofList (digits.toList.take point.toNat) ++ "."
      ++ String.ofList (digits.toList.drop point.toNat)
  else if point ≤ 0 ∧ layout.fractionPlaces point then
    "0." ++ zeros (-point).toNat ++ digits
  else scientific digits (point - 1)

/-- Documents write at most thirteen places before the point and five zeros after it. -/
def wire : Layout :=
  { tie := .toEven
    integerPlaces := fun places => decide (places ≤ 13)
    fractionPlaces := fun places => decide (-6 < places)
    integerTail := ".0" }

/-- Messages write every place and no exponent. -/
def plain : Layout :=
  { tie := .up
    integerPlaces := fun _ => true
    fractionPlaces := fun _ => true
    integerTail := "" }

end Layout

end Narrative.Number

namespace Narrative.Single

open Narrative.Number

/-- The text of the absolute value of a finite number. -/
def magnitudeText (layout : Layout) (x : Single) : String :=
  if x.isZero then "0" ++ layout.integerTail else layout.render (shortest layout.tie x)

/-- The text of a finite number. -/
def finiteText (layout : Layout) (x : Single) : String :=
  (if x.isNegative then "-" else "") ++ magnitudeText layout x

/-- The text of a number in a document: NaN is zero, and an infinity the last finite number. -/
def wireText (x : Single) : String :=
  if x.isNaN then "0.0"
  else if x.isInfinite then finiteText .wire (if x.isNegative then least else greatest)
  else finiteText .wire x

/-- The text of a number in a message. -/
def plainText (x : Single) : String :=
  if x.isNaN then "NaN"
  else if x.isInfinite then (if x.isNegative then "-inf" else "inf")
  else finiteText .plain x

end Narrative.Single
