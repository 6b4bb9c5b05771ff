import Narrative.Json.Octets
import Narrative.Json.Value

/-!
# JSON numbers

A number without fraction and exponent is an integer as long as it fits 64 bits,
and then it has to fit 32 bits as well; every other number is a float. A float
is worked out in two roundings: significant digits that fit 64 bits are scaled by
one rounded power of ten in the 64-bit format, and the result is rounded to 32
bits. A number whose 64-bit form would be infinite is refused, one too small to
represent is zero.
-/

namespace Narrative.Json.Numeral

open Narrative.Number

/-- Integers beyond this bound are not kept exactly. -/
def wordBound : Nat := 18446744073709551616

/-- Takes digits as long as the number they spell stays below the bound; returns the digits left. -/
def absorb : Nat → Octets → Nat × Octets
  | significand, [] => (significand, [])
  | significand, d :: rest =>
    if significand * 10 + Octet.digit d < wordBound then
      absorb (significand * 10 + Octet.digit d) rest
    else (significand, d :: rest)

/-- The greatest power of ten that the 64-bit format holds. -/
def greatestPower : Nat := 308

/-- A power of ten up to the greatest one, rounded to 64 bits. -/
def powerOfTen (exponent : Nat) : Binary := (binary64.round (Nat.pow 10 exponent) 1).getD .zero

/-- The product of two numbers, rounded to 64 bits. -/
def multiply (x y : Binary) : Option Binary :=
  binary64.round (x.numerator * y.numerator) (x.denominator * y.denominator)

/-- The quotient of two numbers, rounded to 64 bits. -/
def divide (x y : Binary) : Option Binary :=
  binary64.round (x.numerator * y.denominator) (x.denominator * y.numerator)

/-- A number divided by the greatest power of ten, over and over. -/
def divideDown (x : Binary) : (times : Nat) → Option Binary
  | 0 => some x
  | times + 1 =>
    if x.significand = 0 then some x
    else match divide x (powerOfTen greatestPower) with
      | none => none
      | some quotient => divideDown quotient times

/-- A number times `10 ^ exponent`; `none` beyond the finite range. -/
def scaleBy (x : Binary) (exponent : Int) : Option Binary :=
  let places := exponent.natAbs
  if exponent < 0 then
    let times := (places - 1) / greatestPower
    (divideDown x times).bind fun y => divide y (powerOfTen (places - greatestPower * times))
  else if places ≤ greatestPower then multiply x (powerOfTen places)
  else if x.significand = 0 then some x
  else none

/-- The float `± significand * 10 ^ exponent`. -/
def toSingle? (negative : Bool) (significand : Nat) (exponent : Int) : Option Single := do
  let x ← binary64.round significand 1
  let scaled ← scaleBy x exponent
  some (Single.ofQuotient negative scaled.numerator scaled.denominator)

/-- A number that is written as a float. -/
def ofFloat (negative : Bool) (significand : Nat) (exponent : Int) : Except ReadError Json :=
  match toSingle? negative significand exponent with
  | some value => .ok (.float value)
  | none => .error .malformed

/-- A number that is written as an integer below the bound. -/
def ofInteger (negative : Bool) (magnitude : Nat) : Except ReadError Json :=
  if negative then
    if magnitude = 0 ∨ 9223372036854775808 < magnitude then ofFloat true magnitude 0
    else if magnitude ≤ 2147483648 then .ok (.int (Int32.ofInt (-magnitude)))
    else .error (.integerRange (-magnitude))
  else if magnitude ≤ 2147483647 then .ok (.int (Int32.ofNat magnitude))
  else .error (.integerRange magnitude)

/-- The digits of an integer part: a single zero, or a run that does not start with one. -/
def wholeDigits : Octets → Except ReadError (Front Octets)
  | [] => .error .endOfText
  | d :: rest =>
    if d = Octet.zero then
      match rest with
      | next :: _ => if Octet.isDigit next then .error .malformed else .ok ([d], rest)
      | [] => .ok ([d], rest)
    else if Octet.isDigit d then
      .ok (d :: rest.takeWhile Octet.isDigit, rest.dropWhile Octet.isDigit)
    else .error .malformed

/-- The digits of a fraction or an exponent, at least one. -/
def someDigits (input : Octets) : Except ReadError (Front Octets) :=
  match input with
  | [] => .error .endOfText
  | d :: _ =>
    if Octet.isDigit d then
      .ok (input.takeWhile Octet.isDigit, input.dropWhile Octet.isDigit)
    else .error .malformed

def isExponentMark (b : UInt8) : Bool := b == Octet.ofChar 'e' || b == Octet.ofChar 'E'

/-- The number that digits spell. -/
def valueOf (digits : Octets) : Nat := digits.foldl (fun n d => n * 10 + Octet.digit d) 0

/-- What follows an exponent mark: an optional sign and digits. -/
def exponentPart : Octets → Except ReadError (Front Int)
  | [] => .error .endOfText
  | b :: rest =>
    if b = Octet.minus then do
      let (digits, rest) ← someDigits rest
      .ok (-(valueOf digits : Int), rest)
    else do
      let (digits, rest) ← someDigits (if b = Octet.plus then rest else b :: rest)
      .ok ((valueOf digits : Int), rest)

/-- Ends a float: an exponent mark adds to the exponent that the digits have. -/
def withExponent (negative : Bool) (significand : Nat) (exponent : Int) (input : Octets) :
    Except ReadError (Front Json) :=
  match input with
  | b :: rest =>
    if isExponentMark b then do
      let (shift, rest) ← exponentPart rest
      let value ← ofFloat negative significand (exponent + shift)
      .ok (value, rest)
    else do
      let value ← ofFloat negative significand exponent
      .ok (value, input)
  | [] => do
    let value ← ofFloat negative significand exponent
    .ok (value, [])

/-- A number after its sign. -/
def read (negative : Bool) (input : Octets) : Except ReadError (Front Json) := do
  let (whole, rest) ← wholeDigits input
  let (significand, dropped) := absorb 0 whole
  match rest with
  | b :: after =>
    if b = Octet.point then
      let (fraction, rest) ← someDigits after
      let (significand, ignored) := absorb significand fraction
      withExponent negative significand
        ((dropped.length : Int) - ((fraction.length - ignored.length : Nat) : Int)) rest
    else if isExponentMark b || !dropped.isEmpty then
      withExponent negative significand dropped.length rest
    else
      let value ← ofInteger negative significand
      .ok (value, rest)
  | [] =>
    if dropped.isEmpty then
      let value ← ofInteger negative significand
      .ok (value, [])
    else withExponent negative significand dropped.length []

end Narrative.Json.Numeral
