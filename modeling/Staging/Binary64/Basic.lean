namespace Staging

/-- A floating-point number of 64 bits; a finite one is a count of units of 2 ^ -1074. -/
structure Binary64 where
  bits : UInt64
  deriving DecidableEq

namespace Binary64

def word (x : Binary64) : Nat := x.bits.toNat

/-- The weight of the sign bit in the pattern. -/
def signBit : Nat := 0x8000000000000000

/-- The weight of the lowest exponent bit; the significand of a normal number has it too. -/
def hiddenBit : Nat := 0x10000000000000

def isNegative (x : Binary64) : Bool := signBit ≤ x.word

def exponentField (x : Binary64) : Nat := x.word / hiddenBit % 2048

def fraction (x : Binary64) : Nat := x.word % hiddenBit

def isFinite (x : Binary64) : Bool := x.exponentField != 2047

def isNaN (x : Binary64) : Bool := x.exponentField == 2047 && x.fraction != 0

def isInfinite (x : Binary64) : Bool := x.exponentField == 2047 && x.fraction == 0

/-- Either of the two zeros. -/
def isZero (x : Binary64) : Bool := x.word % signBit == 0

def significand (x : Binary64) : Nat :=
  if x.exponentField = 0 then x.fraction else x.fraction + hiddenBit

/-- The power of two that the significand counts, in units of 2 ^ -1074. -/
def power (x : Binary64) : Nat := x.exponentField - 1

/-- The magnitude of a finite number in units of 2 ^ -1074. -/
def scaled (x : Binary64) : Nat := x.significand <<< x.power

/-- The units in one. -/
def unit : Nat := 1 <<< 1074

/-- Numeric equality: a NaN differs from everything, the two zeros are equal. -/
def equal (x y : Binary64) : Bool :=
  !x.isNaN && !y.isNaN && (x == y || x.isZero && y.isZero)

/-- The integer that a number is, if it is one of 64 bits with sign. -/
def toInt? (x : Binary64) : Option Int :=
  if x.isFinite && x.scaled % unit == 0 then
    let n : Int := if x.isNegative then -(x.scaled / unit : Nat) else (x.scaled / unit : Nat)
    if Int64.minValue.toInt ≤ n ∧ n ≤ Int64.maxValue.toInt then some n else none
  else none

def nan : Binary64 := ⟨0x7ff8000000000000⟩

def infinityWord : Nat := 0x7ff0000000000000

end Binary64

end Staging
