import Staging.Binary64.Basic
import Staging.Decimal.Integer
import Staging.Decimal.Shortest

namespace Staging.Binary64

open Decimal

/-- The nearest whole number to `num / den`; of two, the even one. -/
def roundDiv (num den : Nat) : Nat :=
  let q := num / den
  let r := num % den
  if 2 * r < den then q else if den < 2 * r then q + 1 else q + q % 2

/-- The pattern of the number nearest to `num / den`, without its sign. A significand that
rounding carries to 2 ^ 53 carries into the exponent field. -/
def nearestWord (num den : Nat) : Nat :=
  let power := (num * unit / den).log2 - 52
  min (power * hiddenBit + roundDiv (num * unit) (den <<< power)) infinityWord

def withSign (negative : Bool) (magnitude : Nat) : Binary64 :=
  ⟨UInt64.ofNat (magnitude + if negative then signBit else 0)⟩

/-- Exponents far outside the range of the format are settled without their powers of ten. -/
def ofScientific (negative : Bool) (d : Scientific) : Binary64 :=
  let order := (Nat.toDigits 10 d.coefficient).length + d.exponent
  withSign negative <|
    if d.coefficient = 0 ∨ order < -400 then 0
    else if 400 < order then infinityWord
    else nearestWord (d.coefficient * tenTo d.exponent.toNat) (tenTo (-d.exponent).toNat)

/-- An exponent part, or nothing. -/
def readExponent? : List Char → Option Int
  | [] => some 0
  | c :: cs => if c = 'e' ∨ c = 'E' then readInt? cs else none

/-- Digits with a point among or around them, then an exponent; one digit at least. -/
def readScientific? (cs : List Char) : Option Scientific :=
  let whole := cs.takeWhile Char.isDigit
  let (part, rest) :=
    match cs.dropWhile Char.isDigit with
    | '.' :: r => (r.takeWhile Char.isDigit, r.dropWhile Char.isDigit)
    | r => ([], r)
  if whole.isEmpty && part.isEmpty then none
  else (readExponent? rest).map fun e => ⟨Nat.ofDigitChars 10 (whole ++ part) 0, e - part.length⟩

def readUnsigned? (negative : Bool) (cs : List Char) : Option Binary64 :=
  let name := String.ofList (cs.map Char.toLower)
  if name = "inf" ∨ name = "infinity" then some (withSign negative infinityWord)
  else if name = "nan" then some (withSign negative nan.word)
  else (readScientific? cs).map (ofScientific negative)

/-- Either sign, then a number, an infinity or a NaN in letters of either case. -/
def read? : List Char → Option Binary64
  | '-' :: cs => readUnsigned? true cs
  | '+' :: cs => readUnsigned? false cs
  | cs => readUnsigned? false cs

end Staging.Binary64
