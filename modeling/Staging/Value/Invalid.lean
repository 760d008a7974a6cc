import Staging.Value.Path

namespace Staging

inductive InvalidKind where
  | nan | infinity
  deriving DecidableEq

namespace InvalidKind

def name : InvalidKind → String
  | .nan => "nan"
  | .infinity => "inf"

end InvalidKind

/-- Which values to look for. -/
structure InvalidChecks where
  nans : Bool
  infinities : Bool
  deriving DecidableEq

namespace InvalidChecks

def any (c : InvalidChecks) : Bool := c.nans || c.infinities

def number? (c : InvalidChecks) (x : Binary64) : Option InvalidKind :=
  if c.nans && x.isNaN then some .nan
  else if c.infinities && x.isInfinite then some .infinity
  else none

/-- Only tensors of floats are looked into. -/
def tensor? (c : InvalidChecks) (t : Tensor) : Option InvalidKind :=
  if t.type.element.isFloat then t.data.findSome? c.number? else none

def leaf? (c : InvalidChecks) (cells : Cells) : Value → Option InvalidKind
  | .float x => c.number? x
  | .tensor t => c.tensor? t
  | .ref cell => c.tensor? (cells.read cell)
  | _ => none

/-- The first invalid value among the leaves. -/
def value? (c : InvalidChecks) (cells : Cells) (v : Value) : Option InvalidKind :=
  v.leaves.findSome? (c.leaf? cells)

end InvalidChecks

/-- An invalid value in what a function returned. -/
structure InvalidValue where
  function : String
  kind : InvalidKind
  deriving DecidableEq

namespace InvalidValue

def text (i : InvalidValue) : String :=
  "invalid value (" ++ i.kind.name ++ ") encountered in " ++ i.function

end InvalidValue

/-- The first invalid value in the output of a function, under the checks that are on. -/
def InvalidChecks.output? (c : InvalidChecks) (cells : Cells) (function : String) (output : Value) :
    Option InvalidValue :=
  (c.value? cells output).map fun kind => ⟨function, kind⟩

end Staging
