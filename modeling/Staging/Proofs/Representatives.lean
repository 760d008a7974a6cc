import Mathlib.Data.Set.Card

namespace Staging

variable {α : Type} {R : α → α → Prop} {xs reps : List α} {x y : α}

/-- The classes of a relation among the members of a list. -/
def classes (R : α → α → Prop) (xs : List α) : Set (Set α) :=
  {C | ∃ x ∈ xs, C = {y | y ∈ xs ∧ R x y}}

/-- An equivalence as far as the members of a list go. -/
structure EquivalenceOn (R : α → α → Prop) (xs : List α) : Prop where
  refl : ∀ x ∈ xs, R x x
  symm : ∀ x ∈ xs, ∀ y ∈ xs, R x y → R y x
  trans : ∀ x ∈ xs, ∀ y ∈ xs, ∀ z ∈ xs, R x y → R y z → R x z

/-- One member of every class. -/
structure Represents (R : α → α → Prop) (xs reps : List α) : Prop where
  member : ∀ r ∈ reps, r ∈ xs
  apart : reps.Pairwise fun r r' => ¬ R r r'
  covers : ∀ x ∈ xs, ∃ r ∈ reps, R r x

namespace EquivalenceOn

theorem class_eq (h : EquivalenceOn R xs) (hx : x ∈ xs) (hy : y ∈ xs) (hr : R x y) :
    {z | z ∈ xs ∧ R x z} = {z | z ∈ xs ∧ R y z} := by
  ext z
  constructor
  · rintro ⟨hz, hxz⟩
    exact ⟨hz, h.trans y hy x hx z hz (h.symm x hx y hy hr) hxz⟩
  · rintro ⟨hz, hyz⟩
    exact ⟨hz, h.trans x hx y hy z hz hr hyz⟩

end EquivalenceOn

namespace Represents

theorem nil : Represents R [] [] :=
  ⟨fun _ h => h, .nil, fun _ h => by cases h⟩

/-- A member of a class that is represented. -/
theorem found (h : Represents R xs reps) {r : α} (hr : r ∈ reps) (hx : R r x) :
    Represents R (xs ++ [x]) reps := by
  refine ⟨fun r hr => List.mem_append_left _ (h.member r hr), h.apart, fun y hy => ?_⟩
  rcases List.mem_append.mp hy with hy | hy
  · exact h.covers y hy
  · rw [List.mem_singleton.mp hy]
    exact ⟨r, hr, hx⟩

/-- The first member of a class. -/
theorem new (h : Represents R xs reps) (hx : R x x) (hn : ∀ r ∈ reps, ¬ R r x) :
    Represents R (xs ++ [x]) (reps ++ [x]) := by
  refine ⟨fun r hr => ?_, ?_, fun y hy => ?_⟩
  · rcases List.mem_append.mp hr with hr | hr
    · exact List.mem_append_left _ (h.member r hr)
    · exact List.mem_append_right _ hr
  · refine List.pairwise_append.mpr ⟨h.apart, List.pairwise_singleton _ _, ?_⟩
    intro r hr y hy
    rw [List.mem_singleton.mp hy]
    exact hn r hr
  · rcases List.mem_append.mp hy with hy | hy
    · obtain ⟨r, hr, hry⟩ := h.covers y hy
      exact ⟨r, List.mem_append_left _ hr, hry⟩
    · rw [List.mem_singleton.mp hy]
      exact ⟨x, by simp, hx⟩

/-- No class has two representatives. -/
theorem unique (h : Represents R xs reps) (hR : EquivalenceOn R xs) {r r' : α} (hr : r ∈ reps)
    (hr' : r' ∈ reps) (he : R r r') : r = r' := by
  have hapart : reps.Pairwise fun a b => ¬ R a b ∧ ¬ R b a :=
    h.apart.imp_of_mem fun ha hb hn =>
      ⟨hn, fun hba => hn (hR.symm _ (h.member _ hb) _ (h.member _ ha) hba)⟩
  have : Std.Symm fun a b : α => ¬ R a b ∧ ¬ R b a := ⟨fun _ _ hab => hab.symm⟩
  by_contra hne
  exact (hapart.forall hr hr' hne).1 he

theorem ncard_classes (h : Represents R xs reps) (hR : EquivalenceOn R xs) :
    (classes R xs).ncard = reps.length := by
  classical
  let inClass (x : α) : Set α := {y | y ∈ xs ∧ R x y}
  have hclasses : classes R xs = ((reps.map inClass).toFinset : Set (Set α)) := by
    ext C
    simp only [classes, Set.mem_ofPred_eq, List.coe_toFinset, List.mem_map]
    constructor
    · rintro ⟨x, hx, rfl⟩
      obtain ⟨r, hr, hrx⟩ := h.covers x hx
      exact ⟨r, hr, hR.class_eq (h.member r hr) hx hrx⟩
    · rintro ⟨r, hr, rfl⟩
      exact ⟨r, h.member r hr, rfl⟩
  have hnodup : (reps.map inClass).Nodup := by
    refine List.pairwise_map.mpr (h.apart.imp_of_mem fun {r r'} _ hr' hn he => hn ?_)
    have hself : r' ∈ inClass r' := ⟨h.member r' hr', hR.refl r' (h.member r' hr')⟩
    rw [← he] at hself
    exact hself.2
  rw [hclasses, Set.ncard_coe_finset, List.toFinset_card_of_nodup hnodup, List.length_map]

end Represents

end Staging
