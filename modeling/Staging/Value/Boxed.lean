import Staging.Value.Equality
import Staging.Value.Text

namespace Staging

namespace Value

mutual

/-- Equality of value and kind throughout. -/
def sameAs : Value → Value → Bool
  | .tuple a, .tuple b => sameAsAll a b
  | v, w => v.kind == w.kind && v.equal w

def sameAsAll : List Value → List Value → Bool
  | [], [] => true
  | v :: vs, w :: ws => sameAs v w && sameAsAll vs ws
  | _, _ => false

end

end Value

/-- A value with a hash, told apart by its kinds as well as its contents. -/
structure Boxed where
  value : Value
  hashable : value.isHashable

namespace Boxed

def of? (v : Value) : Option Boxed :=
  if h : v.isHashable then some ⟨v, h⟩ else none

/-- The kind that keeps a value from being boxed: its own or that of an item within. -/
def obstacle? (v : Value) : Option Value.Kind :=
  match v.feed with
  | .ok _ => none
  | .error k => some k

/-- Says why a value cannot be boxed. -/
def refusal (obstacle : Value.Kind) : String := s!"unhashable type: '{obstacle.name}'"

def equal (a b : Boxed) : Bool := a.value.sameAs b.value

def shown (cells : Cells) (b : Boxed) : String :=
  s!"HashBox({b.value.shown cells}: {b.value.kind.name})"

end Boxed

/-- Sets up to an equality that need not hold of an element and itself: such an element is new
every time. -/
def insertNew {α : Type} (same : α → α → Bool) (x : α) (xs : List α) : List α :=
  if xs.any (same x) then xs else xs ++ [x]

end Staging
