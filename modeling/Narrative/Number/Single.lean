import Narrative.Number.Rounding

/-!
# Numbers of 32 bits

A `Single` is the bit pattern of a 32-bit floating-point number. Two patterns
are the same value of this type only when all bits agree; `Single.equal` is the
numeric comparison, under which the two zeros are equal and no NaN equals
itself.
-/

namespace Narrative

/-- A 32-bit floating-point number, by its bits. -/
structure Single where
  bits : UInt32
deriving DecidableEq

namespace Single

def signBit : UInt32 := 0x80000000

def infinityBits : UInt32 := 0x7f800000

/-- The bits without the sign. -/
def magnitude (x : Single) : UInt32 := x.bits &&& 0x7fffffff

def isNegative (x : Single) : Bool := x.bits &&& signBit != 0

def isNaN (x : Single) : Bool := infinityBits < x.magnitude

def isInfinite (x : Single) : Bool := x.magnitude == infinityBits

def isZero (x : Single) : Bool := x.magnitude == 0

/-- The same number with the other sign. -/
def negate (x : Single) : Single := ⟨x.bits ^^^ signBit⟩

/-- Numeric equality: NaN equals nothing, and the two zeros are equal. -/
def equal (x y : Single) : Bool :=
  !x.isNaN && !y.isNaN && (x.bits == y.bits || (x.isZero && y.isZero))

/-- The greatest finite number. -/
def greatest : Single := ⟨0x7f7fffff⟩

/-- The least finite number. -/
def least : Single := ⟨0xff7fffff⟩

/-- The absolute value of a finite number. -/
def toBinary (x : Single) : Number.Binary :=
  let exponent := (x.magnitude >>> 23).toNat
  let fraction := (x.magnitude &&& 0x7fffff).toNat
  if exponent = 0 then ⟨fraction, -149⟩
  else ⟨fraction + 0x800000, (exponent : Int) - 150⟩

/-- Whether the next smaller number is half as far away as the next greater one. -/
def isBinadeStart (x : Single) : Bool :=
  (x.magnitude &&& 0x7fffff) == 0 && (1 : UInt32) < x.magnitude >>> 23

/-- Puts a sign before a magnitude. -/
def withSign (negative : Bool) (magnitude : UInt32) : Single :=
  ⟨if negative then magnitude ||| signBit else magnitude⟩

/-- The number nearest to `± num / den`; infinite beyond the finite range. -/
def ofQuotient (negative : Bool) (num den : Nat) : Single :=
  match Number.binary32.round num den with
  | none => withSign negative infinityBits
  | some value =>
    if value.significand = 0 then withSign negative 0
    else withSign negative
      (UInt32.ofNat ((value.exponent + 149).toNat * 0x800000 + value.significand))

/-- The number nearest to an integer. -/
def ofInt (n : Int) : Single := ofQuotient (decide (n < 0)) n.natAbs 1

end Single

end Narrative
