import Staging.Error

namespace Staging

inductive IndexSpec where
  | one (i : Int)
  | many (is : List Int)
  deriving DecidableEq

def IndexSpec.toList : IndexSpec → List Int
  | .one i => [i]
  | .many is => is

namespace Value

def toIndex (v : Value) : Except Error Int :=
  match v.asIndex? with
  | some i => .ok i
  | none => .error (.notAnIndex v.kind)

def itemIndices : Value → Except Error (List Int)
  | .tuple items => items.mapM toIndex
  | .list items => items.mapM toIndex
  | v => .error (.notIndices v)

def toIndexSpec (v : Value) : Except Error IndexSpec :=
  match v.asIndex? with
  | some i => .ok (.one i)
  | none => v.itemIndices.map .many

def toIndices (v : Value) : Except Error (List Int) :=
  v.toIndexSpec.map (·.toList)

def toName (v : Value) : Except Error String :=
  match v.asText? with
  | some s => .ok s
  | none => .error (.notAName v)

def toNames : Value → Except Error (List String)
  | .str s => .ok [s]
  | .tuple items => items.mapM toName
  | .list items => items.mapM toName
  | v => .error (.notNames v)

end Value

/-- A role that may be left unset. -/
def readGiven {α : Type} (f : Value → Except Error α) : Option Value → Except Error (Option α)
  | none => .ok none
  | some v => (f v).map some

end Staging
