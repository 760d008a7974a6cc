import Staging.Value.Basic

namespace Staging.Value

/-- One step into a container. -/
inductive Step where
  | item (index : Nat)
  | entry (key : String)
  deriving DecidableEq

abbrev Path := List Step

namespace Step

def text : Step → String
  | .item i => "[" ++ toString i ++ "]"
  | .entry k => "['" ++ k ++ "']"

def follow? : Step → Value → Option Value
  | .item i, .tuple items => items[i]?
  | .item i, .list items => items[i]?
  | .entry k, .dict entries => entries.lookup k
  | _, _ => none

end Step

def Path.text (p : Path) : String := String.join (p.map Step.text)

/-- The value a path leads to. -/
def Path.follow? (p : Path) (v : Value) : Option Value :=
  p.foldlM (fun v step => step.follow? v) v

def under (step : Step) (found : List (Path × Value)) : List (Path × Value) :=
  found.map fun (p, leaf) => (step :: p, leaf)

mutual

def leafPaths : Value → List (Path × Value)
  | .absent => []
  | .tuple items => itemPaths 0 items
  | .list items => itemPaths 0 items
  | .dict entries => entryPaths entries
  | leaf => [([], leaf)]

def itemPaths (index : Nat) : List Value → List (Path × Value)
  | [] => []
  | v :: vs => under (.item index) (leafPaths v) ++ itemPaths (index + 1) vs

def entryPaths : List (String × Value) → List (Path × Value)
  | [] => []
  | (k, v) :: es => under (.entry k) (leafPaths v) ++ entryPaths es

end

mutual

def numLeaves : Value → Nat
  | .absent => 0
  | .tuple items => numLeavesAll items
  | .list items => numLeavesAll items
  | .dict entries => numLeavesEntries entries
  | _ => 1

def numLeavesAll : List Value → Nat
  | [] => 0
  | v :: vs => numLeaves v + numLeavesAll vs

def numLeavesEntries : List (String × Value) → Nat
  | [] => 0
  | (_, v) :: es => numLeaves v + numLeavesEntries es

end

def leaves (v : Value) : List Value := v.leafPaths.map Prod.snd

mutual

theorem length_leafPaths : ∀ v : Value, v.leafPaths.length = v.numLeaves
  | .tuple items => by rw [leafPaths, numLeaves, length_itemPaths]
  | .list items => by rw [leafPaths, numLeaves, length_itemPaths]
  | .dict entries => by rw [leafPaths, numLeaves, length_entryPaths]
  | .absent | .bool _ | .int _ | .float _ | .str _ | .tensor _ | .ref _ => rfl

theorem length_itemPaths : ∀ (index : Nat) (vs : List Value),
    (itemPaths index vs).length = numLeavesAll vs
  | _, [] => rfl
  | index, v :: vs => by
    simp [itemPaths, numLeavesAll, under, length_leafPaths v, length_itemPaths (index + 1) vs]

theorem length_entryPaths : ∀ es : List (String × Value),
    (entryPaths es).length = numLeavesEntries es
  | [] => rfl
  | (k, v) :: es => by
    simp [entryPaths, numLeavesEntries, under, length_leafPaths v, length_entryPaths es]

end

end Staging.Value
