import Staging.Cells
import Staging.Entries

namespace Staging

inductive Value where
  | absent
  | bool (b : Bool)
  | int (n : Int64)
  | float (x : Binary64)
  | str (s : String)
  | tuple (items : List Value)
  | list (items : List Value)
  | dict (entries : List (String × Value))
  | tensor (t : Tensor)
  | ref (cell : CellId)

namespace Value

instance : Inhabited Value := ⟨.absent⟩

inductive Kind where
  | absent | bool | int | float | str | tuple | list | dict | tensor | ref
  deriving DecidableEq

def Kind.name : Kind → String
  | .absent => "NoneType"
  | .bool => "bool"
  | .int => "int"
  | .float => "float"
  | .str => "str"
  | .tuple => "tuple"
  | .list => "list"
  | .dict => "dict"
  | .tensor => "Array"
  | .ref => "Ref"

def kind : Value → Kind
  | .absent => .absent
  | .bool _ => .bool
  | .int _ => .int
  | .float _ => .float
  | .str _ => .str
  | .tuple _ => .tuple
  | .list _ => .list
  | .dict _ => .dict
  | .tensor _ => .tensor
  | .ref _ => .ref

/-- A dict from pairs in any order; later pairs win. -/
def ofEntries (pairs : List (String × Value)) : Value := .dict (Entries.ofList pairs)

/-- Integers and booleans serve as indices. -/
def asIndex? : Value → Option Int
  | .int n => some n.toInt
  | .bool b => some b.toInt
  | _ => none

def asText? : Value → Option String
  | .str s => some s
  | _ => none

mutual

/-- Every dict at every depth keeps its keys in ascending order. -/
def WellFormed : Value → Prop
  | .tuple items => WellFormedAll items
  | .list items => WellFormedAll items
  | .dict entries => Entries.Ascending entries ∧ WellFormedEntries entries
  | _ => True

def WellFormedAll : List Value → Prop
  | [] => True
  | v :: vs => WellFormed v ∧ WellFormedAll vs

def WellFormedEntries : List (String × Value) → Prop
  | [] => True
  | (_, v) :: es => WellFormed v ∧ WellFormedEntries es

end

end Value

end Staging
