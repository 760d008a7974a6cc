import Staging.Proofs.Leaves
import Staging.Proofs.Likeness

namespace Staging

theorem and_three_comm {a b c d e f : Prop} :
    (a ∧ b ∧ c) ∧ d ∧ e ∧ f ↔ (a ∧ d) ∧ (b ∧ e) ∧ c ∧ f := by
  rw [and_and_and_comm, and_and_and_comm (a := b)]

namespace Value

/-- The same kind at every level of nesting. -/
inductive SameKinds : Value → Value → Prop where
  | plain {v w : Value} (hv : v.kind ≠ .tuple ∧ v.kind ≠ .list ∧ v.kind ≠ .dict)
    (h : v.kind = w.kind) : SameKinds v w
  | tuple {vs ws : List Value} (h : List.Forall₂ SameKinds vs ws) :
    SameKinds (.tuple vs) (.tuple ws)
  | list {vs ws : List Value} (h : List.Forall₂ SameKinds vs ws) :
    SameKinds (.list vs) (.list ws)
  | dict {es fs : List (String × Value)} (h : List.Forall₂ (fun e f => SameKinds e.2 f.2) es fs) :
    SameKinds (.dict es) (.dict fs)

/-- Equal, with the same kind at every level of nesting. -/
def Matches (v w : Value) : Prop := v.equal w = true ∧ SameKinds v w

theorem SameKinds.kind_eq {v w : Value} (h : SameKinds v w) : v.kind = w.kind := by
  cases h with
  | plain _ h => exact h
  | tuple | list | dict => rfl

@[simp] theorem sameKinds_tuple {vs ws : List Value} :
    SameKinds (.tuple vs) (.tuple ws) ↔ List.Forall₂ SameKinds vs ws := by
  constructor
  · intro h
    cases h with
    | plain hv => exact absurd rfl hv.1
    | tuple h => exact h
  · exact .tuple

theorem forall₂_matches {vs ws : List Value} : List.Forall₂ Matches vs ws ↔
    equalAll vs ws = true ∧ List.Forall₂ SameKinds vs ws := by
  induction vs generalizing ws with
  | nil => cases ws <;> simp [equalAll]
  | cons v vs ih =>
    cases ws with
    | nil => simp [equalAll]
    | cons w ws =>
      rw [List.forall₂_cons, List.forall₂_cons, ih, Matches, equalAll, Bool.and_eq_true]
      exact and_and_and_comm

mutual

/-- What boxes compare is equality, and the kinds at every level. -/
theorem sameAs_iff : ∀ {v w : Value}, v.isHashable = true → (v.sameAs w = true ↔ v.Matches w)
  | .tuple vs, w, hv => by
    rw [isHashable_tuple] at hv
    cases w with
    | tuple ws =>
      rw [sameAs, Matches, equal, sameKinds_tuple, sameAsAll_iff_matches hv, forall₂_matches]
    | _ =>
      refine iff_of_false (by simp [sameAs, kind]) fun h => ?_
      cases h.2.kind_eq
  | .absent, w, _ | .bool _, w, _ | .int _, w, _ | .float _, w, _ | .str _, w, _ => by
    rw [sameAs, Bool.and_eq_true, beq_iff_eq, Matches, and_comm]
    · refine and_congr_right fun _ => ⟨.plain (by simp [kind]), SameKinds.kind_eq⟩
    · simp
  | .list _, _, hv | .dict _, _, hv | .tensor _, _, hv | .ref _, _, hv => by
    simp [isHashable, feed, Except.isOk, Except.toBool] at hv

theorem sameAsAll_iff_matches : ∀ {vs ws : List Value}, vs.all isHashable = true →
    (sameAsAll vs ws = true ↔ List.Forall₂ Matches vs ws)
  | [], [], _ => by simp [sameAsAll]
  | [], _ :: _, _ | _ :: _, [], _ => by simp [sameAsAll]
  | v :: vs, w :: ws, hv => by
    rw [List.all_cons, Bool.and_eq_true] at hv
    rw [sameAsAll, Bool.and_eq_true, sameAs_iff hv.1, sameAsAll_iff_matches hv.2, List.forall₂_cons]

end

/-- The numbers in a leaf itself; those in cells are not its own. -/
def ownNumbers : Value → List Binary64
  | .float x => [x]
  | .tensor t => t.data
  | _ => []

/-- Some leaf has a NaN, at any depth. -/
def HasNaN (v : Value) : Prop := ∃ leaf, v.HasLeaf leaf ∧ ∃ x ∈ leaf.ownNumbers, x.isNaN = true

theorem hasNaN_of_isLeaf {v : Value} (h : v.isLeaf = true) :
    v.HasNaN ↔ ∃ x ∈ v.ownNumbers, x.isNaN = true := by
  simp [HasNaN, ← mem_leaves, leaves_of_isLeaf h]

theorem not_hasNaN_of_isLeaf {v : Value} (h : v.isLeaf = true) (hn : v.ownNumbers = []) :
    ¬ v.HasNaN := by
  rw [hasNaN_of_isLeaf h, hn]
  simp

@[simp] theorem hasNaN_float {x : Binary64} : (Value.float x).HasNaN ↔ x.isNaN = true :=
  (hasNaN_of_isLeaf rfl).trans (by simp [ownNumbers])

@[simp] theorem not_hasNaN_bool {b : Bool} : ¬ (Value.bool b).HasNaN :=
  not_hasNaN_of_isLeaf rfl rfl

@[simp] theorem not_hasNaN_int {n : Int64} : ¬ (Value.int n).HasNaN :=
  not_hasNaN_of_isLeaf rfl rfl

@[simp] theorem not_hasNaN_str {s : String} : ¬ (Value.str s).HasNaN :=
  not_hasNaN_of_isLeaf rfl rfl

@[simp] theorem not_hasNaN_absent : ¬ Value.absent.HasNaN := by
  simp [HasNaN, ← mem_leaves]

@[simp] theorem hasNaN_tuple {vs : List Value} : (Value.tuple vs).HasNaN ↔ ∃ v ∈ vs, v.HasNaN := by
  simp only [HasNaN, ← mem_leaves, leaves_tuple, List.mem_flatMap]
  constructor
  · rintro ⟨leaf, ⟨v, hv, hleaf⟩, h⟩
    exact ⟨v, hv, leaf, hleaf, h⟩
  · rintro ⟨v, hv, leaf, hleaf, h⟩
    exact ⟨leaf, ⟨v, hv, hleaf⟩, h⟩

mutual

/-- With positive zeros only, on their own or within tuples. -/
def unsigned : Value → Value
  | .float x => .float (if x.isZero then ⟨0⟩ else x)
  | .tuple vs => .tuple (unsignedAll vs)
  | v => v

def unsignedAll : List Value → List Value
  | [] => []
  | v :: vs => unsigned v :: unsignedAll vs

end

theorem unsignedAll_eq_map (vs : List Value) : unsignedAll vs = vs.map unsigned := by
  induction vs with
  | nil => rfl
  | cons v vs ih => rw [unsignedAll, ih, List.map_cons]

/-- Floats are equal if they are the same but for the signs of zeros, and no NaNs. -/
theorem equal_floats_iff {x y : Binary64} : x.equal y = true ↔
    (if x.isZero then ⟨0⟩ else x) = (if y.isZero then ⟨0⟩ else y) ∧ x.isNaN = false ∧
      y.isNaN = false := by
  have hzero : (⟨0⟩ : Binary64).isZero = true := by decide
  have hsame : (x == y || x.isZero && y.isZero) = true ↔
      (if x.isZero then ⟨0⟩ else x) = (if y.isZero then ⟨0⟩ else y) := by
    cases hx : x.isZero <;> cases hy : y.isZero
    · simp
    · have hne : x ≠ ⟨0⟩ := fun h => by rw [h, hzero] at hx; cases hx
      have hxy : x ≠ y := fun h => by rw [h, hy] at hx; cases hx
      simp [hne, hxy]
    · have hne : ⟨0⟩ ≠ y := fun h => by rw [← h, hzero] at hy; cases hy
      have hxy : x ≠ y := fun h => by rw [h, hy] at hx; cases hx
      simp [hne, hxy]
    · simp
  rw [Binary64.equal, Bool.and_eq_true, hsame, Bool.and_eq_true, Bool.not_eq_true',
    Bool.not_eq_true', and_comm]

mutual

/-- Values with a hash match exactly if they are the same but for the signs of zeros, and have no
NaN in them. -/
theorem sameAs_iff_unsigned : ∀ {v w : Value}, v.isHashable = true →
    (v.sameAs w = true ↔ v.unsigned = w.unsigned ∧ ¬ v.HasNaN ∧ ¬ w.HasNaN)
  | .absent, w, _ => by
    cases w <;> simp [sameAs, kind, equal, unsigned]
  | .bool b, w, _ => by
    cases w <;> simp [sameAs, kind, equal, number?, Number.equal, unsigned]
    rename_i c
    cases b <;> cases c <;> simp
  | .int n, w, _ => by
    cases w <;> simp [sameAs, kind, equal, number?, Number.equal, unsigned, Int64.toInt_inj]
  | .float x, w, _ => by
    cases w <;> simp [sameAs, kind, equal, number?, Number.equal, unsigned, equal_floats_iff]
  | .str s, w, _ => by
    cases w <;> simp [sameAs, kind, equal, unsigned]
  | .tuple vs, w, hv => by
    rw [isHashable_tuple] at hv
    cases w with
    | tuple ws =>
      rw [sameAs, sameAsAll_iff_unsigned hv, unsigned, unsigned, tuple.injEq, hasNaN_tuple,
        hasNaN_tuple]
    | _ => simp [sameAs, kind, unsigned]
  | .list _, _, hv | .dict _, _, hv | .tensor _, _, hv | .ref _, _, hv => by
    simp [isHashable, feed, Except.isOk, Except.toBool] at hv

theorem sameAsAll_iff_unsigned : ∀ {vs ws : List Value}, vs.all isHashable = true →
    (sameAsAll vs ws = true ↔ unsignedAll vs = unsignedAll ws ∧ (¬ ∃ v ∈ vs, v.HasNaN) ∧
      ¬ ∃ w ∈ ws, w.HasNaN)
  | [], [], _ => by simp [sameAsAll]
  | [], _ :: _, _ | _ :: _, [], _ => by simp [sameAsAll, unsignedAll]
  | v :: vs, w :: ws, hv => by
    rw [List.all_cons, Bool.and_eq_true] at hv
    rw [sameAsAll, Bool.and_eq_true, sameAs_iff_unsigned hv.1, sameAsAll_iff_unsigned hv.2]
    simp only [unsignedAll, List.cons.injEq, List.exists_mem_cons_iff, not_or]
    exact and_three_comm

end

/-- Lists of values with a hash match one by one exactly if they are the same but for the signs of
zeros, and no value in them has a NaN. -/
theorem forall₂_matches_iff {vs ws : List Value} (hv : ∀ v ∈ vs, v.isHashable = true) :
    List.Forall₂ Matches vs ws ↔ vs.map unsigned = ws.map unsigned ∧ (∀ v ∈ vs, ¬ v.HasNaN) ∧
      ∀ w ∈ ws, ¬ w.HasNaN := by
  have hall : vs.all isHashable = true := List.all_eq_true.mpr hv
  rw [← sameAsAll_iff_matches hall, sameAsAll_iff_unsigned hall]
  simp [unsignedAll_eq_map]

section Equivalence

variable {us vs ws : List Value} (hv : ∀ v ∈ vs, v.isHashable = true)

include hv

theorem matches_refl (hn : ∀ v ∈ vs, ¬ v.HasNaN) : List.Forall₂ Matches vs vs :=
  (forall₂_matches_iff hv).mpr ⟨rfl, hn, hn⟩

theorem matches_symm (hu : ∀ u ∈ us, u.isHashable = true) (h : List.Forall₂ Matches us vs) :
    List.Forall₂ Matches vs us := by
  obtain ⟨heq, hnu, hnv⟩ := (forall₂_matches_iff hu).mp h
  exact (forall₂_matches_iff hv).mpr ⟨heq.symm, hnv, hnu⟩

theorem matches_trans (hu : ∀ u ∈ us, u.isHashable = true) (h : List.Forall₂ Matches us vs)
    (h' : List.Forall₂ Matches vs ws) : List.Forall₂ Matches us ws := by
  obtain ⟨heq, hnu, -⟩ := (forall₂_matches_iff hu).mp h
  obtain ⟨heq', -, hnw⟩ := (forall₂_matches_iff hv).mp h'
  exact (forall₂_matches_iff hu).mpr ⟨heq.trans heq', hnu, hnw⟩

end Equivalence

mutual

/-- Whether a value has a hash depends on its kinds alone. -/
theorem SameKinds.isHashable : ∀ {v w : Value}, SameKinds v w → v.isHashable = true →
    w.isHashable = true
  | .tuple vs, w, h, hv => by
    cases h with
    | plain hplain => exact absurd rfl hplain.1
    | tuple h =>
      rw [isHashable_tuple] at hv ⊢
      exact allHashable_of_sameKinds h hv
  | .absent, w, h, _ | .bool _, w, h, _ | .int _, w, h, _ | .float _, w, h, _
  | .str _, w, h, _ => by
    have hkind := h.kind_eq
    cases w <;> first | rfl | cases hkind
  | .list _, _, _, hv | .dict _, _, _, hv | .tensor _, _, _, hv | .ref _, _, _, hv => by
    simp [Value.isHashable, feed, Except.isOk, Except.toBool] at hv

theorem allHashable_of_sameKinds : ∀ {vs ws : List Value}, List.Forall₂ SameKinds vs ws →
    vs.all Value.isHashable = true → ws.all Value.isHashable = true
  | [], _, h, _ => by
    cases h
    rfl
  | v :: vs, _, h, hv => by
    obtain ⟨w, ws, hw, hws, rfl⟩ := List.forall₂_cons_left_iff.mp h
    rw [List.all_cons, Bool.and_eq_true] at hv ⊢
    exact ⟨hw.isHashable hv.1, allHashable_of_sameKinds hws hv.2⟩

end

theorem hashable_of_matches {vs ws : List Value} (h : List.Forall₂ Matches vs ws)
    (hv : ∀ v ∈ vs, v.isHashable = true) : ∀ w ∈ ws, w.isHashable = true :=
  List.all_eq_true.mp
    (allHashable_of_sameKinds (forall₂_matches.mp h).2 (List.all_eq_true.mpr hv))

end Value

theorem Boxed.equal_iff_matches {a b : Boxed} : a.equal b = true ↔ a.value.Matches b.value :=
  Value.sameAs_iff a.hashable

end Staging
