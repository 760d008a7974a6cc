import Mathlib.Algebra.Order.Ring.Nat
import Mathlib.Tactic.GCongr
import Mathlib.Tactic.Ring
import Staging.Binary64.Basic

namespace Staging.Binary64

variable {x y : Binary64} {n : Int}

theorem word_lt (x : Binary64) : x.word < 2 * signBit := x.bits.toNat_lt

theorem fraction_lt (x : Binary64) : x.fraction < hiddenBit := Nat.mod_lt _ (by decide)

/-- The fields of a pattern below its sign bit. -/
theorem word_mod_signBit (x : Binary64) :
    x.word % signBit = x.exponentField * hiddenBit + x.fraction := by
  unfold exponentField fraction signBit hiddenBit
  omega

/-- The sign bit is on top of the fields. -/
theorem word_eq (x : Binary64) :
    x.word = (if x.isNegative then signBit else 0) + x.word % signBit := by
  have hlt := x.word_lt
  by_cases h : signBit ≤ x.word
  · rw [isNegative, decide_eq_true h, if_pos rfl, Nat.mod_eq_sub_mod h,
      Nat.mod_eq_of_lt (by omega)]
    omega
  · rw [isNegative, decide_eq_false h, if_neg Bool.false_ne_true, Nat.mod_eq_of_lt (by omega),
      Nat.zero_add]

theorem scaled_eq (x : Binary64) : x.scaled = x.significand * 2 ^ x.power := Nat.shiftLeft_eq _ _

theorem scaled_lt (x : Binary64) : x.scaled < hiddenBit * 2 ^ x.exponentField := by
  have hf := x.fraction_lt
  rw [scaled_eq]
  cases he : x.exponentField with
  | zero => simpa [significand, power, he] using hf
  | succ e =>
    have hs : x.significand < 2 * hiddenBit := by
      rw [significand, if_neg (by omega)]
      omega
    calc x.significand * 2 ^ x.power < 2 * hiddenBit * 2 ^ e := by
          rw [power, he, Nat.add_sub_cancel]
          exact Nat.mul_lt_mul_of_pos_right hs (Nat.two_pow_pos e)
      _ = hiddenBit * 2 ^ (e + 1) := by ring

/-- Numbers whose exponent field is not zero are normal. -/
theorem le_scaled (h : x.exponentField ≠ 0) :
    hiddenBit * 2 ^ (x.exponentField - 1) ≤ x.scaled := by
  rw [scaled_eq, significand, if_neg h, power]
  gcongr
  exact Nat.le_add_left _ _

theorem scaled_lt_scaled (h : x.exponentField < y.exponentField) : x.scaled < y.scaled :=
  calc x.scaled < hiddenBit * 2 ^ x.exponentField := x.scaled_lt
    _ ≤ hiddenBit * 2 ^ (y.exponentField - 1) := by
      gcongr
      · decide
      · omega
    _ ≤ y.scaled := le_scaled (by omega)

/-- The magnitude of a number fixes the fields of its pattern. -/
theorem fields_eq (h : x.scaled = y.scaled) :
    x.exponentField = y.exponentField ∧ x.fraction = y.fraction := by
  have he : x.exponentField = y.exponentField := by
    rcases Nat.lt_trichotomy x.exponentField y.exponentField with hlt | heq | hgt
    · exact absurd h (scaled_lt_scaled hlt).ne
    · exact heq
    · exact absurd h (scaled_lt_scaled hgt).ne'
  refine ⟨he, ?_⟩
  rw [scaled_eq, scaled_eq, power, power, he] at h
  have hs : x.significand = y.significand := Nat.eq_of_mul_eq_mul_right (Nat.two_pow_pos _) h
  rw [significand, significand, he] at hs
  split at hs
  · exact hs
  · exact Nat.add_right_cancel hs

/-- The magnitude of a number and its sign are all of it. -/
theorem eq_of_scaled_eq (hs : x.scaled = y.scaled) (hn : x.isNegative = y.isNegative) : x = y := by
  obtain ⟨he, hf⟩ := fields_eq hs
  have hw : x.word = y.word := by
    rw [word_eq x, word_eq y, word_mod_signBit, word_mod_signBit, he, hf, hn]
  obtain ⟨w⟩ := x
  obtain ⟨v⟩ := y
  exact congrArg Binary64.mk (UInt64.toNat_inj.mp hw)

theorem scaled_eq_zero_iff : x.scaled = 0 ↔ x.isZero = true := by
  have hzero : (⟨0⟩ : Binary64).scaled = 0 := by decide
  rw [isZero, beq_iff_eq]
  constructor
  · intro h
    obtain ⟨he, hf⟩ := fields_eq (h.trans hzero.symm)
    rw [word_mod_signBit, he, hf]
    rfl
  · intro h
    rw [word_mod_signBit, Nat.add_eq_zero_iff, Nat.mul_eq_zero] at h
    obtain ⟨he, hf⟩ := h
    have he : x.exponentField = 0 := he.resolve_right (by decide)
    rw [scaled_eq, significand, if_pos he, hf, Nat.zero_mul]

/-- What the integer that a number is says of the number. -/
theorem toInt?_eq_some (h : x.toInt? = some n) :
    x.isFinite = true ∧ x.scaled = unit * n.natAbs ∧ (n ≠ 0 → x.isNegative = decide (n < 0)) ∧
      Int64.minValue.toInt ≤ n ∧ n ≤ Int64.maxValue.toInt := by
  unfold toInt? at h
  split at h
  · rename_i hx
    obtain ⟨hfinite, hwhole⟩ := Bool.and_eq_true_iff.mp hx
    have hscaled : x.scaled = unit * (x.scaled / unit) :=
      (Nat.mul_div_cancel' (Nat.dvd_of_mod_eq_zero (beq_iff_eq.mp hwhole))).symm
    generalize x.scaled / unit = q at h hscaled
    generalize hm : (if x.isNegative = true then -(q : Int) else q) = m at h
    dsimp only at h
    split at h
    · rename_i hrange
      obtain rfl := Option.some.inj h
      refine ⟨hfinite, ?_, fun hne => ?_, hrange⟩
      · rw [hscaled, ← hm]
        split <;> simp
      · cases hneg : x.isNegative with
        | true =>
          rw [hneg, if_pos rfl] at hm
          exact (decide_eq_true (by omega)).symm
        | false =>
          rw [hneg, if_neg Bool.false_ne_true] at hm
          exact (decide_eq_false (by omega)).symm
    · cases h
  · cases h

theorem toInt?_of_isZero (h : x.isZero = true) : x.toInt? = some 0 := by
  have hs := scaled_eq_zero_iff.mpr h
  have hfinite : x.isFinite = true := by
    rw [isZero, beq_iff_eq, word_mod_signBit, Nat.add_eq_zero_iff, Nat.mul_eq_zero] at h
    rw [isFinite, h.1.resolve_right (by decide)]
    rfl
  rw [toInt?, hfinite, hs]
  cases x.isNegative <;> rfl

theorem isNaN_eq_false_of_isFinite (h : x.isFinite = true) : x.isNaN = false := by
  simp only [isFinite, bne_iff_ne] at h
  simp [isNaN, h]

/-- Numbers that are the same integer are equal. -/
theorem equal_of_toInt? (hx : x.toInt? = some n) (hy : y.toInt? = some n) : x.equal y = true := by
  obtain ⟨hxf, hxs, hxn, -⟩ := toInt?_eq_some hx
  obtain ⟨hyf, hys, hyn, -⟩ := toInt?_eq_some hy
  rw [equal, isNaN_eq_false_of_isFinite hxf, isNaN_eq_false_of_isFinite hyf]
  by_cases hn : n = 0
  · rw [hn, Int.natAbs_zero, Nat.mul_zero, scaled_eq_zero_iff] at hxs hys
    simp [hxs, hys]
  · have heq : x = y := eq_of_scaled_eq (hxs.trans hys.symm) ((hxn hn).trans (hyn hn).symm)
    simp [heq]

/-- Equal numbers are the same integer or none. -/
theorem toInt?_congr (h : x.equal y = true) : x.toInt? = y.toInt? := by
  simp only [equal, Bool.and_eq_true, Bool.or_eq_true, beq_iff_eq] at h
  rcases h.2 with rfl | ⟨hx, hy⟩
  · rfl
  · rw [toInt?_of_isZero hx, toInt?_of_isZero hy]

end Staging.Binary64
