import Mathlib.Data.List.Forall2
import Staging.Value.Boxed

namespace Staging

namespace Value

/-- The same but for the signs of zeros, on their own or within tuples. -/
inductive Alike : Value → Value → Prop where
  | refl (v : Value) : Alike v v
  | zeros {x y : Binary64} : x.isZero → y.isZero → Alike (.float x) (.float y)
  | tuple {vs ws : List Value} : List.Forall₂ Alike vs ws → Alike (.tuple vs) (.tuple ws)

@[simp] theorem isHashable_tuple (vs : List Value) :
    (Value.tuple vs).isHashable = vs.all isHashable := by
  have hall : ∀ ws : List Value, (feedAll ws).isOk = ws.all isHashable := by
    intro ws
    induction ws with
    | nil => rfl
    | cons w ws ih =>
      rw [List.all_cons, ← ih, feedAll, isHashable]
      cases feed w <;> cases feedAll ws <;> rfl
  rw [← hall, isHashable, feed]
  cases feedAll vs <;> rfl

theorem alike_of_equal_floats {x y : Binary64} (h : x.equal y = true) :
    Alike (.float x) (.float y) := by
  simp only [Binary64.equal, Bool.and_eq_true, Bool.or_eq_true, beq_iff_eq] at h
  obtain ⟨-, rfl | ⟨hx, hy⟩⟩ := h
  · exact .refl _
  · exact .zeros hx hy

mutual

theorem alike_of_sameAs : ∀ {v w : Value}, v.isHashable = true → v.sameAs w = true → Alike v w
  | .absent, w, _, h => by
    cases w <;> simp [sameAs, kind] at h
    exact .refl _
  | .bool b, w, _, h => by
    cases w <;> simp [sameAs, kind, equal, number?, Number.equal] at h
    rename_i c
    have hbc : b = c := by cases b <;> cases c <;> simp_all
    exact hbc ▸ .refl _
  | .int n, w, _, h => by
    cases w <;> simp [sameAs, kind, equal, number?, Number.equal] at h
    exact Int64.toInt_inj.mp h ▸ .refl _
  | .float x, w, _, h => by
    cases w <;> simp [sameAs, kind, equal, number?, Number.equal] at h
    exact alike_of_equal_floats h
  | .str s, w, _, h => by
    cases w <;> simp [sameAs, kind, equal] at h
    exact h ▸ .refl _
  | .tuple vs, w, hv, h => by
    cases w <;> simp [sameAs, kind] at h
    rw [isHashable_tuple] at hv
    exact .tuple (alikeAll_of_sameAsAll hv h)
  | .list _, _, hv, _ | .dict _, _, hv, _ | .tensor _, _, hv, _ | .ref _, _, hv, _ => by
    simp [isHashable, feed, Except.isOk, Except.toBool] at hv

theorem alikeAll_of_sameAsAll : ∀ {vs ws : List Value}, vs.all isHashable = true →
    sameAsAll vs ws = true → List.Forall₂ Alike vs ws
  | [], [], _, _ => .nil
  | [], _ :: _, _, h | _ :: _, [], _, h => by simp [sameAsAll] at h
  | v :: vs, w :: ws, hv, h => by
    rw [List.all_cons, Bool.and_eq_true] at hv
    rw [sameAsAll, Bool.and_eq_true] at h
    exact .cons (alike_of_sameAs hv.1 h.1) (alikeAll_of_sameAsAll hv.2 h.2)

end

end Value

/-- What equal boxes hold. -/
theorem Boxed.alike_of_equal {a b : Boxed} (h : a.equal b = true) : a.value.Alike b.value :=
  Value.alike_of_sameAs a.hashable h

end Staging
