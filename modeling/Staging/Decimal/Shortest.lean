namespace Staging.Decimal

/-- Ten to a power. -/
def tenTo (n : Nat) : Nat := Nat.pow 10 n

/-- The number coefficient · 10 ^ exponent. -/
structure Scientific where
  coefficient : Nat
  exponent : Int
  deriving DecidableEq

namespace Scientific

/-- The next point of the same decimal grid. -/
def next (d : Scientific) : Scientific :=
  { d with coefficient := d.coefficient + 1 }

/-- The same number without zeros at the end of its coefficient. -/
def trimZeros (d : Scientific) : Scientific :=
  if d.coefficient ≠ 0 ∧ d.coefficient % 10 = 0 then
    trimZeros ⟨d.coefficient / 10, d.exponent + 1⟩
  else d
termination_by d.coefficient
decreasing_by omega

end Scientific

/-- The rationals from `low` to `high` around `value`, over the common denominator `den`; `closed`
says whether the ends belong to it. -/
structure Span where
  low : Nat
  value : Nat
  high : Nat
  den : Nat
  closed : Bool

namespace Span

/-- The decimal `d` times `den` and `bound`, both scaled to whole numbers, for comparison. -/
def weigh (s : Span) (d : Scientific) (bound : Nat) : Nat × Nat :=
  (d.coefficient * s.den * tenTo d.exponent.toNat, bound * tenTo (-d.exponent).toNat)

def contains (s : Span) (d : Scientific) : Bool :=
  let (x, low) := s.weigh d s.low
  let (y, high) := s.weigh d s.high
  if s.closed then low ≤ x && y ≤ high else low < x && y < high

/-- The greatest point of the grid of 10 ^ exponent that is not above the value. -/
def below (s : Span) (exponent : Int) : Scientific :=
  ⟨s.value * tenTo (-exponent).toNat / (s.den * tenTo exponent.toNat), exponent⟩

/-- Whether the value lies nearer to `d.next` than to `d`; the middle counts as nearer. -/
def nearerNext (s : Span) (d : Scientific) : Bool :=
  let (twice, value) := s.weigh { d with coefficient := 2 * d.coefficient + 1 } (2 * s.value)
  twice ≤ value

/-- The point of a grid that is in the span, the nearer one if the value has two neighbours
there. -/
def pick? (s : Span) (exponent : Int) : Option Scientific :=
  let d := s.below exponent
  match s.contains d, s.contains d.next with
  | true, true => some (if s.nearerNext d then d.next else d)
  | true, false => some d
  | false, true => some d.next
  | false, false => none

/-- The least `k` with value < 10 ^ k. -/
def order (s : Span) : Int :=
  let k : Int := (Nat.toDigits 10 s.value).length - (Nat.toDigits 10 s.den).length
  if s.den * tenTo k.toNat ≤ s.value * tenTo (-k).toNat then k + 1 else k

/-- Grids are tried from the coarsest, `most` of them. -/
def shortest? (s : Span) (most : Nat) : Option Scientific :=
  (List.range most).findSome? (fun (n : Nat) => s.pick? (s.order - 1 - n)) |>.map .trimZeros

end Span

end Staging.Decimal
