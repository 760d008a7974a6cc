import Staging.Binary64.Basic
import Staging.Decimal.Shortest

namespace Staging

namespace Binary64

open Decimal

/-- The reals that round to a finite number other than zero. Just above a power of two the
neighbour below is half as far as the one above; an even significand takes the ends in. -/
def span (x : Binary64) : Span where
  low := 4 * x.scaled - if x.fraction = 0 ∧ 1 < x.exponentField then 1 <<< x.power else 2 <<< x.power
  value := 4 * x.scaled
  high := 4 * x.scaled + 2 <<< x.power
  den := 4 * unit
  closed := x.significand % 2 == 0

/-- Seventeen digits tell any two numbers apart. -/
def shortest (x : Binary64) : Scientific :=
  if x.isZero then ⟨0, 0⟩ else (x.span.shortest? 17).getD (x.span.below (x.span.order - 17))

/-- How a decimal is laid out. `least` and `most` bound the position of the point, counted from
the first digit, for which positional form is used; `fractionDigits` is the least number of
digits after the point there. -/
structure Layout where
  least : Option Int
  most : Option Int
  fractionDigits : Nat

/-- Positional throughout, and no point without digits after it. -/
def plain : Layout := ⟨none, none, 0⟩

/-- From a ten-thousandth up to below 10 ^ 16 positional, with a digit after the point; exponent
form elsewhere. -/
def scientific : Layout := ⟨some (-3), some 16, 1⟩

namespace Layout

def isPositional (l : Layout) (point : Int) : Bool :=
  l.least.all (· ≤ point) && l.most.all (point ≤ ·)

/-- Digits with the point after the first `point` of them. -/
def positional (l : Layout) (digits : List Char) (point : Int) : List Char :=
  let whole := digits.take point.toNat ++ List.replicate (point.toNat - digits.length) '0'
  let part := List.replicate (-point).toNat '0' ++ digits.drop point.toNat
  let part := part ++ List.replicate (l.fractionDigits - part.length) '0'
  (if whole.isEmpty then ['0'] else whole) ++ if part.isEmpty then [] else '.' :: part

/-- One digit before the point. -/
def exponential (digits : List Char) (point : Int) : List Char :=
  let part := digits.drop 1
  digits.take 1 ++ (if part.isEmpty then [] else '.' :: part) ++ 'e' :: (toString (point - 1)).toList

def layOut (l : Layout) (d : Scientific) : List Char :=
  let digits := Nat.toDigits 10 d.coefficient
  let point := digits.length + d.exponent
  if d.coefficient = 0 then l.positional digits 1
  else if l.isPositional point then l.positional digits point
  else exponential digits point

end Layout

/-- A minus sign for every negative number, zero included; a NaN has no sign. -/
def text (l : Layout) (x : Binary64) : String :=
  if x.isNaN then "NaN" else
    (if x.isNegative then "-" else "") ++
      if x.isInfinite then "inf" else String.ofList (l.layOut x.shortest)

end Binary64

end Staging
