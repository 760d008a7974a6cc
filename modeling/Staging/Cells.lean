import Staging.Tensor

namespace Staging

abbrev CellId := Nat

/-- What every mutable cell holds. -/
structure Cells where
  read : CellId → Tensor

namespace Cells

def write (cells : Cells) (cell : CellId) (t : Tensor) : Cells :=
  ⟨fun c => if c = cell then t else cells.read c⟩

@[simp] theorem read_write (cells : Cells) (cell : CellId) (t : Tensor) :
    (cells.write cell t).read cell = t := by simp [write]

theorem read_write_of_ne (cells : Cells) {cell c : CellId} (t : Tensor) (h : c ≠ cell) :
    (cells.write cell t).read c = cells.read c := by simp [write, h]

end Cells

end Staging
