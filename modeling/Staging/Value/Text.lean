import Staging.Binary64.Text
import Staging.Text.Dump
import Staging.Value.Basic

namespace Staging

namespace Binary64

/-- An integer of 64 bits is written out with one digit after the point, any other number with
the fewest digits. -/
def shown (x : Binary64) : String :=
  match x.toInt? with
  | some n => (if x.isNegative then "-" else "") ++ toString n.natAbs ++ ".0"
  | none => x.text plain

def dump (x : Binary64) : Text.Dump := .word (x.text scientific)

end Binary64

namespace Tensor

def shown (t : Tensor) : String := "Array(" ++ t.type.text ++ ")"

def elementDump : ElementType → Text.Dump
  | .float16 => .word "Float16"
  | .float32 => .word "Float32"
  | .float64 => .word "Float64"
  | .int32 => .word "Int32"
  | .int64 => .word "Int64"
  | .uint32 => .word "Uint32"
  | .bool => .word "Bool"

def dump (t : Tensor) : Text.Dump :=
  .record "ArrayValue"
    [("dtype", elementDump t.type.element), ("shape", .list (t.type.shape.map .nat)),
      ("data", .list (t.data.map Binary64.dump))] true

end Tensor

namespace Value

/-- Apostrophes around text; none within is escaped. -/
def apostrophed (s : String) : String := "'" ++ s ++ "'"

mutual

def shown (cells : Cells) : Value → String
  | .absent => "None"
  | .bool b => if b then "True" else "False"
  | .int n => toString n.toInt
  | .float x => x.shown
  | .str s => apostrophed s
  | .tuple [v] => "(" ++ shown cells v ++ ",)"
  | .tuple items => "(" ++ ", ".intercalate (shownAll cells items) ++ ")"
  | .list items => "[" ++ ", ".intercalate (shownAll cells items) ++ "]"
  | .dict entries => "\x7b" ++ ", ".intercalate (shownEntries cells entries) ++ "\x7d"
  | .tensor t => t.shown
  | .ref cell => (cells.read cell).type.refText

def shownAll (cells : Cells) : List Value → List String
  | [] => []
  | v :: vs => shown cells v :: shownAll cells vs

def shownEntries (cells : Cells) : List (String × Value) → List String
  | [] => []
  | (k, v) :: es => (apostrophed k ++ ": " ++ shown cells v) :: shownEntries cells es

end

mutual

def dump (cells : Cells) : Value → Text.Dump
  | .absent => .word "None"
  | .bool b => .applied "Bool" [.bool b]
  | .int n => .applied "Int" [.int n.toInt]
  | .float x => .applied "Float" [x.dump]
  | .str s => .applied "Str" [.text s]
  | .tuple items => .applied "Tuple" [.list (dumpAll cells items)]
  | .list items => .applied "List" [.list (dumpAll cells items)]
  | .dict entries => .applied "Dict" [.map (dumpEntries cells entries)]
  | .tensor t => .applied "Array" [t.dump]
  | .ref cell =>
    let lock := .record "RwLock" [("data", (cells.read cell).dump), ("poisoned", .bool false)] false
    .applied "Ref" [.record "MutableRef" [("cell", lock)] true]

def dumpAll (cells : Cells) : List Value → List Text.Dump
  | [] => []
  | v :: vs => dump cells v :: dumpAll cells vs

def dumpEntries (cells : Cells) : List (String × Value) → List (String × Text.Dump)
  | [] => []
  | (k, v) :: es => (k, dump cells v) :: dumpEntries cells es

end

end Value

end Staging
