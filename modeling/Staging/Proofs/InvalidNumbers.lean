import Staging.Proofs.Leaves
import Staging.Value.Invalid

namespace Staging

def Tensor.floats (t : Tensor) : List Binary64 :=
  if t.type.element.isFloat then t.data else []

namespace Value

/-- The floating-point numbers in a leaf. A cell has those of the tensor that it holds. -/
def numbers (cells : Cells) : Value → List Binary64
  | .float x => [x]
  | .tensor t => t.floats
  | .ref cell => (cells.read cell).floats
  | _ => []

def allNumbers (cells : Cells) (v : Value) : List Binary64 := v.leaves.flatMap (numbers cells)

theorem mem_allNumbers {cells : Cells} {v : Value} {x : Binary64} :
    x ∈ v.allNumbers cells ↔ ∃ leaf, HasLeaf v leaf ∧ x ∈ leaf.numbers cells := by
  simp only [allNumbers, List.mem_flatMap, mem_leaves]

end Value

def InvalidKind.of (x : Binary64) : InvalidKind := if x.isNaN then .nan else .infinity

theorem Binary64.not_isInfinite_of_isNaN {x : Binary64} (h : x.isNaN = true) :
    x.isInfinite = false := by
  simp only [isNaN, Bool.and_eq_true, bne_iff_ne] at h
  simp [isInfinite, h.2]

namespace InvalidChecks

variable {checks : InvalidChecks} {cells : Cells} {v : Value} {x : Binary64}

/-- Whether a number is one to look for. -/
def Flags (checks : InvalidChecks) (x : Binary64) : Prop :=
  checks.nans = true ∧ x.isNaN = true ∨ checks.infinities = true ∧ x.isInfinite = true

/-- Some leaf, at any depth, has a number to look for. -/
def Finds (checks : InvalidChecks) (cells : Cells) (v : Value) : Prop :=
  ∃ leaf, v.HasLeaf leaf ∧ ∃ x ∈ leaf.numbers cells, checks.Flags x

def FindsFirst (checks : InvalidChecks) (cells : Cells) (v : Value) (x : Binary64) : Prop :=
  ∃ before after, v.allNumbers cells = before ++ x :: after ∧ checks.Flags x ∧
    ∀ y ∈ before, ¬ checks.Flags y

theorem FindsFirst.finds (h : checks.FindsFirst cells v x) : checks.Finds cells v := by
  obtain ⟨before, after, hv, hx, -⟩ := h
  obtain ⟨leaf, hleaf, hmem⟩ := Value.mem_allNumbers.mp (hv ▸ by simp : x ∈ v.allNumbers cells)
  exact ⟨leaf, hleaf, x, hmem, hx⟩

theorem number?_some {kind : InvalidKind} :
    checks.number? x = some kind ↔ checks.Flags x ∧ InvalidKind.of x = kind := by
  cases hn : x.isNaN with
  | true =>
    have hi := Binary64.not_isInfinite_of_isNaN hn
    simp [number?, Flags, InvalidKind.of, hn, hi]
  | false => simp [number?, Flags, InvalidKind.of, hn, and_assoc]

theorem number?_none : checks.number? x = none ↔ ¬ checks.Flags x := by
  simp [Option.eq_none_iff_forall_ne_some, number?_some]

theorem tensor?_eq (t : Tensor) : checks.tensor? t = t.floats.findSome? checks.number? := by
  rw [tensor?, Tensor.floats]
  split <;> rfl

theorem leaf?_eq (v : Value) :
    checks.leaf? cells v = (v.numbers cells).findSome? checks.number? := by
  cases v with
  | tensor t => exact tensor?_eq t
  | ref cell => exact tensor?_eq (cells.read cell)
  | float x => cases h : checks.number? x <;> simp [leaf?, Value.numbers, h]
  | _ => rfl

/-- Looking into one leaf after the other is going through all their numbers. -/
theorem value?_eq (v : Value) :
    checks.value? cells v = (v.allNumbers cells).findSome? checks.number? := by
  rw [value?, funext leaf?_eq, Value.allNumbers]
  simp only [← List.head?_filterMap]
  rw [List.filterMap_flatMap, List.head?_flatMap, List.head?_filterMap]

theorem value?_some {kind : InvalidKind} :
    checks.value? cells v = some kind ↔ ∃ x, checks.FindsFirst cells v x ∧
      InvalidKind.of x = kind := by
  rw [value?_eq, List.findSome?_eq_some_iff]
  simp only [number?_some, number?_none, FindsFirst]
  constructor
  · rintro ⟨before, x, after, hv, ⟨hx, hkind⟩, hbefore⟩
    exact ⟨x, ⟨before, after, hv, hx, hbefore⟩, hkind⟩
  · rintro ⟨x, ⟨before, after, hv, hx, hbefore⟩, hkind⟩
    exact ⟨before, x, after, hv, ⟨hx, hkind⟩, hbefore⟩

theorem value?_none : checks.value? cells v = none ↔ ¬ checks.Finds cells v := by
  rw [value?_eq, List.findSome?_eq_none_iff]
  simp only [number?_none, Value.mem_allNumbers, Finds]
  constructor
  · rintro h ⟨leaf, hleaf, x, hx, hflags⟩
    exact h x ⟨leaf, hleaf, hx⟩ hflags
  · rintro h x ⟨leaf, hleaf, hx⟩ hflags
    exact h ⟨leaf, hleaf, x, hx, hflags⟩

theorem output?_some {function : String} {found : InvalidValue} :
    checks.output? cells function v = some found ↔
      ∃ x, checks.FindsFirst cells v x ∧ found = ⟨function, .of x⟩ := by
  simp only [output?, Option.map_eq_some_iff, value?_some]
  constructor
  · rintro ⟨_, ⟨x, hx, rfl⟩, rfl⟩
    exact ⟨x, hx, rfl⟩
  · rintro ⟨x, hx, rfl⟩
    exact ⟨_, ⟨x, hx, rfl⟩, rfl⟩

theorem output?_none {function : String} :
    checks.output? cells function v = none ↔ ¬ checks.Finds cells v := by
  rw [output?, Option.map_eq_none_iff, value?_none]

end InvalidChecks

end Staging
