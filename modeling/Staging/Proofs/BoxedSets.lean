import Staging.Value.BoxedSet
import Staging.Proofs.EqualValues
import Staging.Proofs.Representatives

namespace Staging

open Value

namespace Boxed

variable {a b c : Boxed}

theorem feed_eq (b : Boxed) : b.value.feed = .ok b.writes := by
  have h := b.hashable
  rw [isHashable] at h
  rw [writes]
  cases hf : b.value.feed with
  | ok writes => rfl
  | error k =>
    rw [hf] at h
    cases h

theorem equal_iff_unsigned : a.equal b = true ↔
    a.value.unsigned = b.value.unsigned ∧ ¬ a.value.HasNaN ∧ ¬ b.value.HasNaN :=
  sameAs_iff_unsigned a.hashable

theorem equal_self (h : ¬ a.value.HasNaN) : a.equal a = true :=
  equal_iff_unsigned.mpr ⟨rfl, h, h⟩

theorem equal_symm (h : a.equal b = true) : b.equal a = true := by
  obtain ⟨heq, ha, hb⟩ := equal_iff_unsigned.mp h
  exact equal_iff_unsigned.mpr ⟨heq.symm, hb, ha⟩

theorem equal_trans (hab : a.equal b = true) (hbc : b.equal c = true) : a.equal c = true := by
  obtain ⟨hab, ha, -⟩ := equal_iff_unsigned.mp hab
  obtain ⟨hbc, -, hc⟩ := equal_iff_unsigned.mp hbc
  exact equal_iff_unsigned.mpr ⟨hab.trans hbc, ha, hc⟩

theorem writes_of_equal (h : a.equal b = true) : a.writes = b.writes := by
  have hfeed := feed_of_equal (equal_iff_matches.mp h).1
  rw [feed_eq, feed_eq] at hfeed
  exact Except.ok.inj hfeed

end Boxed

namespace Hashing

variable {hashing : Hashing} {a b : Boxed} {put set boxes : List Boxed}

theorem hash_of_equal (h : a.equal b = true) : hashing.hash a = hashing.hash b := by
  rw [hash, Boxed.writes_of_equal h, hash]

/-- Going by the hashes first leaves no equal box out. -/
theorem finds_eq : hashing.finds a b = a.equal b := by
  rw [finds, Bool.and_eq_right_iff_imp]
  intro h
  rw [hash_of_equal h, hashing.meets_self]

/-- The elements of a set are one each of what was put in, up to equality of boxes. -/
def Holds (put set : List Boxed) : Prop :=
  Represents Matches (put.map Boxed.value) (set.map Boxed.value)

theorem Holds.insert (h : Holds put set) (hb : ¬ b.value.HasNaN) :
    Holds (put ++ [b]) (hashing.insert set b) := by
  have hfound : set.any (hashing.finds b) = true ↔ ∃ a ∈ set, b.equal a = true := by
    simp only [List.any_eq_true, finds_eq]
  rw [Holds, List.map_append, List.map_singleton, Hashing.insert, insertNew]
  split
  · rename_i hin
    obtain ⟨a, ha, heq⟩ := hfound.mp hin
    exact Represents.found h (List.mem_map_of_mem ha)
      (Boxed.equal_iff_matches.mp (Boxed.equal_symm heq))
  · rename_i hout
    rw [List.map_append, List.map_singleton]
    refine Represents.new h (Boxed.equal_iff_matches.mp (Boxed.equal_self hb)) ?_
    intro v hv hm
    obtain ⟨a, ha, rfl⟩ := List.mem_map.mp hv
    exact hout (hfound.mpr ⟨a, ha, Boxed.equal_symm (Boxed.equal_iff_matches.mpr hm)⟩)

theorem Holds.insertAll (h : Holds put set) (hb : ∀ b ∈ boxes, ¬ b.value.HasNaN) :
    Holds (put ++ boxes) (boxes.foldl hashing.insert set) := by
  induction boxes generalizing put set with
  | nil => rwa [List.append_nil]
  | cons b boxes ih =>
    obtain ⟨hfirst, hrest⟩ := List.forall_mem_cons.mp hb
    rw [List.foldl_cons, ← List.singleton_append, ← List.append_assoc]
    exact ih (h.insert hfirst) hrest

theorem matches_equivalence (hb : ∀ b ∈ boxes, ¬ b.value.HasNaN) :
    EquivalenceOn Matches (boxes.map Boxed.value) where
  refl v hv := by
    obtain ⟨b, h, rfl⟩ := List.mem_map.mp hv
    exact Boxed.equal_iff_matches.mp (Boxed.equal_self (hb b h))
  symm v hv w hw h := by
    obtain ⟨a, -, rfl⟩ := List.mem_map.mp hv
    obtain ⟨b, -, rfl⟩ := List.mem_map.mp hw
    exact Boxed.equal_iff_matches.mp (Boxed.equal_symm (Boxed.equal_iff_matches.mpr h))
  trans u hu v hv w hw h h' := by
    obtain ⟨a, -, rfl⟩ := List.mem_map.mp hu
    obtain ⟨b, -, rfl⟩ := List.mem_map.mp hv
    obtain ⟨c, -, rfl⟩ := List.mem_map.mp hw
    exact Boxed.equal_iff_matches.mp
      (Boxed.equal_trans (Boxed.equal_iff_matches.mpr h) (Boxed.equal_iff_matches.mpr h'))

theorem length_setOf (hb : ∀ b ∈ boxes, ¬ b.value.HasNaN) :
    (hashing.setOf boxes).length = (classes Matches (boxes.map Boxed.value)).ncard := by
  have hnone : Holds [] [] := .nil
  have hholds : Holds boxes (hashing.setOf boxes) := hnone.insertAll hb
  rw [hholds.ncard_classes (matches_equivalence hb), List.length_map]

end Hashing

/-- Boxes are equal exactly if their values are, with the same kinds at every level. That goes both
ways and from each box to the next, and holds of a box and itself unless a NaN is in it; equal boxes
have equal hashes; and a set that boxes without NaNs were put in has as many elements as there are
values among them that differ, or have different kinds at some level. -/
theorem Boxed.keys_lawful (hashing : Hashing) :
    (∀ a b : Boxed, a.equal b = true ↔
      a.value.equal b.value = true ∧ SameKinds a.value b.value) ∧
    (∀ a b : Boxed, a.equal b = true → b.equal a = true) ∧
    (∀ a b c : Boxed, a.equal b = true → b.equal c = true → a.equal c = true) ∧
    (∀ a : Boxed, ¬ a.value.HasNaN → a.equal a = true) ∧
    (∀ a b : Boxed, a.equal b = true → hashing.hash a = hashing.hash b) ∧
    ∀ boxes : List Boxed, (∀ b ∈ boxes, ¬ b.value.HasNaN) →
      (hashing.setOf boxes).length = (classes Matches (boxes.map Boxed.value)).ncard :=
  ⟨fun _ _ => equal_iff_matches, fun _ _ => equal_symm, fun _ _ _ => equal_trans,
    fun _ => equal_self, fun _ _ => Hashing.hash_of_equal, fun _ => Hashing.length_setOf⟩

/-- Numbers that are equal are three elements where they have three kinds, also within a tuple; the
two zeros are one. -/
theorem Boxed.keys_lawful_numbers :
    let one : Boxed := ⟨.int 1, rfl⟩
    let yes : Boxed := ⟨.bool true, rfl⟩
    let zero : Boxed := ⟨.float ⟨0⟩, rfl⟩
    let negative : Boxed := ⟨.float ⟨0x8000000000000000⟩, rfl⟩
    let boxes : List Boxed := [one, yes, ⟨.float ⟨0x3FF0000000000000⟩, rfl⟩, ⟨.tuple [.int 1], rfl⟩,
      zero, ⟨.tuple [.bool true], rfl⟩, negative, one]
    (one.value.equal yes.value = true ∧ zero.equal negative = true ∧
      ∀ b ∈ boxes, ¬ b.value.HasNaN) ∧
      ¬ SameKinds one.value yes.value ∧ negative.equal zero = true ∧
      (classes Matches (boxes.map Boxed.value)).ncard = 6 := by
  intro one yes zero negative boxes
  have hequal : one.value.equal yes.value = true := by decide
  have hapart : one.equal yes = false := by decide
  have hzeros : zero.equal negative = true := by decide
  have hnan : ∀ b ∈ boxes, ¬ b.value.HasNaN := by
    have hself : ∀ b ∈ boxes, b.value.equal b.value = true := by decide
    exact fun b hb => (equal_iff_canonical.mp (hself b hb)).2.1
  let hashing : Hashing := ⟨fun writes => writes.length.toUInt64, (· == ·), beq_self_eq_true⟩
  obtain ⟨hiff, hsymm, -, -, -, hsize⟩ := keys_lawful hashing
  refine ⟨⟨hequal, hzeros, hnan⟩, fun hkinds => ?_, hsymm zero negative hzeros, ?_⟩
  · rw [(hiff one yes).mpr ⟨hequal, hkinds⟩] at hapart
    cases hapart
  · rw [← hsize boxes hnan]
    decide

end Staging
