/-!
# Rounding to a binary format

A binary format keeps a bounded number of significant bits and a bounded range
of exponents. `Format.round` takes an exact quotient of natural numbers to the
nearest value of the format, a tie going to the even significand, and answers
`none` when the nearest value would be infinite. All arithmetic is exact; no
machine floating point is used.
-/

namespace Narrative.Number

/-- The exact number `significand * 2 ^ exponent`. -/
structure Binary where
  significand : Nat
  exponent : Int
deriving DecidableEq

namespace Binary

def zero : Binary := ⟨0, 0⟩

/-- Numerator of the number as a quotient of natural numbers. -/
def numerator (x : Binary) : Nat := x.significand <<< x.exponent.toNat

/-- Denominator of the number as a quotient of natural numbers. -/
def denominator (x : Binary) : Nat := 1 <<< (-x.exponent).toNat

end Binary

/-- A binary format, given by its significant bits and the exponents of its last place. -/
structure Format where
  precision : Nat
  leastExponent : Int
  greatestExponent : Int

/-- Values of 32 bits. -/
def binary32 : Format := ⟨24, -149, 104⟩

/-- Values of 64 bits. -/
def binary64 : Format := ⟨53, -1074, 971⟩

/-- The integer nearest to `num / den`, a tie going to the even one. -/
def nearest (num den : Nat) : Nat :=
  let quotient := num / den
  let twice := 2 * (num % den)
  if twice < den then quotient
  else if den < twice then quotient + 1
  else quotient + quotient % 2

/-- The integer nearest to `num / den` in units of `2 ^ exponent`. -/
def nearestInUnits (num den : Nat) (exponent : Int) : Nat :=
  nearest (num <<< (-exponent).toNat) (den <<< exponent.toNat)

namespace Format

/-- Exponent of the last place kept for `num / den`, a bit wider than the format at most once. -/
def lastPlace (format : Format) (num den : Nat) : Int :=
  let estimate : Int := (num.log2 : Int) - (den.log2 : Int) - (format.precision : Int)
  let place := if estimate < format.leastExponent then format.leastExponent else estimate
  let floor := (num <<< (-place).toNat) / (den <<< place.toNat)
  if floor < 1 <<< format.precision then place else place + 1

/-- The value of the format nearest to `num / den`; `none` beyond the greatest finite value. -/
def round (format : Format) (num den : Nat) : Option Binary :=
  if num = 0 then some .zero
  else
    let place := format.lastPlace num den
    let significand := nearestInUnits num den place
    let value : Binary :=
      if significand < 1 <<< format.precision then ⟨significand, place⟩
      else ⟨significand / 2, place + 1⟩
    if format.greatestExponent < value.exponent then none else some value

end Format

end Narrative.Number
