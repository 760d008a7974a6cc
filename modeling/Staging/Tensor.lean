import Staging.Binary64.Basic

namespace Staging

inductive ElementType where
  | float16 | float32 | float64 | int32 | int64 | uint32 | bool
  deriving DecidableEq

namespace ElementType

def isFloat : ElementType → Bool
  | .float16 | .float32 | .float64 => true
  | _ => false

def name : ElementType → String
  | .float16 => "float16"
  | .float32 => "float32"
  | .float64 => "float64"
  | .int32 => "int32"
  | .int64 => "int64"
  | .uint32 => "uint32"
  | .bool => "bool"

def shortName : ElementType → String
  | .float16 => "f16"
  | .float32 => "f32"
  | .float64 => "f64"
  | .int32 => "i32"
  | .int64 => "i64"
  | .uint32 => "u32"
  | .bool => "bool"

end ElementType

/-- All that is known of a tensor before its elements are. -/
structure TensorType where
  element : ElementType
  shape : List Nat
  deriving DecidableEq

namespace TensorType

/-- The number of elements: the product of the dimensions. -/
def size (t : TensorType) : Nat := t.shape.foldr (· * ·) 1

/-- The element type and the dimensions, such as f32[2,3]. -/
def text (t : TensorType) : String :=
  t.element.shortName ++ "[" ++ ",".intercalate (t.shape.map toString) ++ "]"

def refText (t : TensorType) : String :=
  "Ref\x7b" ++ t.text ++ "\x7d"

end TensorType

/-- The elements in row-major order, as 64-bit numbers whatever the element type says. -/
structure Tensor where
  type : TensorType
  data : List Binary64
  full : data.length = type.size

namespace Tensor

/-- The elements must fill the shape. -/
def ofData? (type : TensorType) (data : List Binary64) : Option Tensor :=
  if h : data.length = type.size then some ⟨type, data, h⟩ else none

def scalar (x : Binary64) : Tensor := ⟨⟨.float32, []⟩, [x], rfl⟩

/-- Elements are compared as numbers, so a tensor with a NaN differs from itself. -/
def equal (a b : Tensor) : Bool :=
  a.type == b.type && a.data.isEqv b.data Binary64.equal

end Tensor

/-- A tensor and the buffer its elements are kept in; copies keep the buffer. -/
structure Buffered where
  buffer : Nat
  tensor : Tensor

namespace Buffered

def sameBuffer (a b : Buffered) : Bool := a.buffer == b.buffer

end Buffered

end Staging
