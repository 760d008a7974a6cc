import Staging.Value.Basic

namespace Staging

/-- What is left of a value when scalars keep their kind only, and tensors and cells their type. -/
inductive AbstractValue where
  | scalar (kind : Value.Kind)
  | tensor (type : TensorType)
  | ref (type : TensorType)
  | tuple (items : List AbstractValue)
  | list (items : List AbstractValue)
  | dict (entries : List (String × AbstractValue))

namespace AbstractValue

mutual

def same : AbstractValue → AbstractValue → Bool
  | .scalar k, .scalar l => k == l
  | .tensor t, .tensor u => t == u
  | .ref t, .ref u => t == u
  | .tuple a, .tuple b => sameAll a b
  | .list a, .list b => sameAll a b
  | .dict a, .dict b => sameEntries a b
  | _, _ => false

def sameAll : List AbstractValue → List AbstractValue → Bool
  | [], [] => true
  | a :: as, b :: bs => same a b && sameAll as bs
  | _, _ => false

def sameEntries : List (String × AbstractValue) → List (String × AbstractValue) → Bool
  | [], [] => true
  | (k, a) :: as, (l, b) :: bs => k == l && same a b && sameEntries as bs
  | _, _ => false

end

mutual

theorem same_iff : ∀ {a b : AbstractValue}, same a b = true ↔ a = b
  | .scalar _, b => by cases b <;> simp [same]
  | .tensor _, b => by cases b <;> simp [same]
  | .ref _, b => by cases b <;> simp [same]
  | .tuple _, b => by cases b <;> simp [same, sameAll_iff]
  | .list _, b => by cases b <;> simp [same, sameAll_iff]
  | .dict _, b => by cases b <;> simp [same, sameEntries_iff]

theorem sameAll_iff : ∀ {as bs : List AbstractValue}, sameAll as bs = true ↔ as = bs
  | [], bs => by cases bs <;> simp [sameAll]
  | _ :: _, [] => by simp [sameAll]
  | a :: as, b :: bs => by simp [sameAll, @same_iff a, @sameAll_iff as]

theorem sameEntries_iff : ∀ {as bs : List (String × AbstractValue)},
    sameEntries as bs = true ↔ as = bs
  | [], bs => by cases bs <;> simp [sameEntries]
  | _ :: _, [] => by simp [sameEntries]
  | (_, a) :: as, (_, b) :: bs => by
    simp [sameEntries, @same_iff a, @sameEntries_iff as]

end

instance : DecidableEq AbstractValue := fun _ _ => decidable_of_iff _ same_iff

end AbstractValue

namespace Value

mutual

def abstract (cells : Cells) : Value → AbstractValue
  | .tuple items => .tuple (abstractAll cells items)
  | .list items => .list (abstractAll cells items)
  | .dict entries => .dict (abstractEntries cells entries)
  | .tensor t => .tensor t.type
  | .ref cell => .ref (cells.read cell).type
  | v => .scalar v.kind

def abstractAll (cells : Cells) : List Value → List AbstractValue
  | [] => []
  | v :: vs => abstract cells v :: abstractAll cells vs

def abstractEntries (cells : Cells) : List (String × Value) → List (String × AbstractValue)
  | [] => []
  | (k, v) :: es => (k, abstract cells v) :: abstractEntries cells es

end

end Value

namespace AbstractValue

mutual

/-- Tuples and lists look alike. -/
def text : AbstractValue → String
  | .scalar kind => kind.name
  | .tensor type => type.text
  | .ref type => type.refText
  | .tuple items => "(" ++ ", ".intercalate (texts items) ++ ")"
  | .list items => "(" ++ ", ".intercalate (texts items) ++ ")"
  | .dict entries => "\x7b" ++ ", ".intercalate (entryTexts entries) ++ "\x7d"

def texts : List AbstractValue → List String
  | [] => []
  | a :: rest => text a :: texts rest

def entryTexts : List (String × AbstractValue) → List String
  | [] => []
  | (k, a) :: rest => (k ++ ": " ++ text a) :: entryTexts rest

end

end AbstractValue

end Staging
