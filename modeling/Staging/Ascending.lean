namespace Staging

variable {α : Type} [LT α] [DecidableLT α]

def insertAscending (x : α) : List α → List α
  | [] => [x]
  | y :: ys =>
    if x < y then x :: y :: ys else if y < x then y :: insertAscending x ys else y :: ys

/-- The members of a list in ascending order, each once. -/
def ascending (xs : List α) : List α :=
  xs.foldr insertAscending []

section Laws

variable [LE α] [Std.IsLinearOrder α] [Std.LawfulOrderLT α]

theorem mem_insertAscending {x y : α} {ys : List α} :
    x ∈ insertAscending y ys ↔ x = y ∨ x ∈ ys := by
  induction ys with
  | nil => simp [insertAscending]
  | cons z ys ih =>
    rw [insertAscending]
    split
    · simp
    · split
      · simp only [List.mem_cons, ih]; exact or_left_comm
      · have hz : y = z := by
          rcases Std.lt_trichotomy y z with h | h | h <;> simp_all
        simp [hz]

theorem mem_ascending {x : α} {xs : List α} : x ∈ ascending xs ↔ x ∈ xs := by
  induction xs with
  | nil => simp [ascending]
  | cons y ys ih =>
    simp only [ascending, List.foldr_cons] at ih ⊢
    rw [mem_insertAscending, ih, List.mem_cons]

theorem insertAscending_pairwise {y : α} {ys : List α} (h : ys.Pairwise (· < ·)) :
    (insertAscending y ys).Pairwise (· < ·) := by
  induction ys with
  | nil => simp [insertAscending]
  | cons z ys ih =>
    obtain ⟨hz, hs⟩ := List.pairwise_cons.mp h
    rw [insertAscending]
    split
    · rename_i hlt
      refine List.pairwise_cons.mpr ⟨fun w hw => ?_, h⟩
      rcases List.mem_cons.mp hw with rfl | hw
      · exact hlt
      · exact Std.lt_trans hlt (hz w hw)
    · split
      · rename_i hlt
        refine List.pairwise_cons.mpr ⟨fun w hw => ?_, ih hs⟩
        rcases mem_insertAscending.mp hw with rfl | hw
        · exact hlt
        · exact hz w hw
      · exact h

theorem ascending_pairwise (xs : List α) : (ascending xs).Pairwise (· < ·) := by
  induction xs with
  | nil => simp [ascending]
  | cons y ys ih => exact insertAscending_pairwise ih

end Laws

end Staging
