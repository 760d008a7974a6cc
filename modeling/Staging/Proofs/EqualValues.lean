import Staging.Proofs.Matching
import Staging.Proofs.WholeNumbers

namespace Staging

/-- Lists compared item by item, where items are equal exactly if they come to the same form. -/
theorem isEqv_iff_map {α β : Type} {same : α → α → Bool} {form : α → β} {bad : α → Prop}
    (h : ∀ a b, same a b = true ↔ form a = form b ∧ ¬ bad a ∧ ¬ bad b) {as bs : List α} :
    as.isEqv bs same = true ↔
      as.map form = bs.map form ∧ (¬ ∃ a ∈ as, bad a) ∧ ¬ ∃ b ∈ bs, bad b := by
  induction as generalizing bs with
  | nil => cases bs <;> simp [List.isEqv]
  | cons a as ih =>
    cases bs with
    | nil => simp [List.isEqv]
    | cons b bs =>
      rw [List.isEqv_cons_cons, Bool.and_eq_true, h, ih]
      simp only [List.map_cons, List.cons.injEq, List.exists_mem_cons_iff, not_or]
      exact and_three_comm

/-- With positive zeros only. -/
def Tensor.unsigned (t : Tensor) : Tensor where
  type := t.type
  data := t.data.map fun x => if x.isZero then ⟨0⟩ else x
  full := by rw [List.length_map, t.full]

theorem Tensor.unsigned_eq_iff {t u : Tensor} : t.unsigned = u.unsigned ↔ t.type = u.type ∧
    (t.data.map fun x => if x.isZero then ⟨0⟩ else x) =
      u.data.map fun x => if x.isZero then ⟨0⟩ else x := by
  rw [unsigned, unsigned, mk.injEq]

theorem Tensor.equal_iff {t u : Tensor} : t.equal u = true ↔ t.unsigned = u.unsigned ∧
    (¬ ∃ x ∈ t.data, x.isNaN = true) ∧ ¬ ∃ x ∈ u.data, x.isNaN = true := by
  have hfloats : ∀ x y : Binary64, x.equal y = true ↔
      (if x.isZero then ⟨0⟩ else x) = (if y.isZero then ⟨0⟩ else y) ∧ ¬ x.isNaN = true ∧
        ¬ y.isNaN = true := by
    intro x y
    rw [Value.equal_floats_iff, Bool.not_eq_true, Bool.not_eq_true]
  rw [equal, Bool.and_eq_true, beq_iff_eq, isEqv_iff_map hfloats, unsigned_eq_iff, and_assoc]

namespace Value

mutual

/-- The form that equal values come to. -/
def canonical : Value → Value
  | .bool b => .int (Int64.ofInt b.toInt)
  | .float x =>
    match x.toInt? with
    | some n => .int (Int64.ofInt n)
    | none => .float x
  | .tuple items => .tuple (canonicalAll items)
  | .list items => .list (canonicalAll items)
  | .dict entries => .dict (canonicalEntries entries)
  | .tensor t => .tensor t.unsigned
  | v => v

def canonicalAll : List Value → List Value
  | [] => []
  | v :: vs => canonical v :: canonicalAll vs

def canonicalEntries : List (String × Value) → List (String × Value)
  | [] => []
  | (k, v) :: es => (k, canonical v) :: canonicalEntries es

end

theorem length_canonicalAll (vs : List Value) : (canonicalAll vs).length = vs.length := by
  induction vs with
  | nil => rfl
  | cons v vs ih => rw [canonicalAll, List.length_cons, ih, List.length_cons]

@[simp] theorem canonical_bool {b : Bool} : (bool b).canonical = .int (Int64.ofInt b.toInt) := rfl

@[simp] theorem canonical_int {n : Int64} : (int n).canonical = .int n := rfl

section Numbers

variable {x y : Binary64} {n : Int}

theorem canonical_float_of_some (h : x.toInt? = some n) :
    (float x).canonical = .int (Int64.ofInt n) := by
  rw [canonical, h]

theorem canonical_float_of_none (h : x.toInt? = none) : (float x).canonical = .float x := by
  rw [canonical, h]

theorem canonical_float (x : Binary64) :
    (∃ n, (float x).canonical = .int n) ∨ (float x).canonical = .float x := by
  cases h : x.toInt? with
  | some n => exact .inl ⟨_, canonical_float_of_some h⟩
  | none => exact .inr (canonical_float_of_none h)

theorem isNaN_of_toInt? (h : x.toInt? = some n) : x.isNaN = false :=
  Binary64.isNaN_eq_false_of_isFinite (Binary64.toInt?_eq_some h).1

/-- The integer that a number is fits in 64 bits. -/
theorem toInt_ofInt (h : x.toInt? = some n) : (Int64.ofInt n).toInt = n := by
  obtain ⟨-, -, -, hmin, hmax⟩ := Binary64.toInt?_eq_some h
  exact Int64.toInt_ofInt_of_le hmin (Int.lt_of_le_of_lt hmax (by decide))

theorem toInt?_eq_iff {n : Int64} : x.toInt? = some n.toInt ↔
    (float x).canonical = .int n ∧ x.isNaN = false := by
  constructor
  · intro h
    rw [canonical_float_of_some h, Int64.ofInt_toInt]
    exact ⟨rfl, isNaN_of_toInt? h⟩
  · intro h
    cases hx : x.toInt? with
    | none =>
      rw [canonical_float_of_none hx] at h
      cases h.1
    | some m =>
      rw [canonical_float_of_some hx, int.injEq] at h
      rw [← h.1, toInt_ofInt hx]

theorem equal_floats_iff_canonical : x.equal y = true ↔
    (float x).canonical = (float y).canonical ∧ x.isNaN = false ∧ y.isNaN = false := by
  constructor
  · intro h
    refine ⟨?_, (equal_floats_iff.mp h).2⟩
    have hint := Binary64.toInt?_congr h
    cases hx : x.toInt? with
    | some n => rw [canonical_float_of_some hx, canonical_float_of_some (hint ▸ hx)]
    | none =>
      -- neither is a zero, so they have the same bits
      have heq := (equal_floats_iff.mp h).1
      have hzero : ∀ z : Binary64, z.toInt? = none → z.isZero = false := by
        intro z hz
        by_contra hne
        rw [Binary64.toInt?_of_isZero (by simpa using hne)] at hz
        cases hz
      rw [hzero x hx, hzero y (hint ▸ hx), if_neg Bool.false_ne_true,
        if_neg Bool.false_ne_true] at heq
      rw [heq]
  · intro h
    obtain ⟨heq, hnx, hny⟩ := h
    cases hx : x.toInt? with
    | some n =>
      rw [canonical_float_of_some hx] at heq
      refine Binary64.equal_of_toInt? hx ?_
      rw [toInt?_eq_iff.mpr ⟨heq.symm, hny⟩, toInt_ofInt hx]
    | none =>
      rw [canonical_float_of_none hx] at heq
      rcases canonical_float y with ⟨n, hy⟩ | hy
      · rw [hy] at heq
        cases heq
      · rw [hy, float.injEq] at heq
        simp [Binary64.equal, heq, hny]

end Numbers

@[simp] theorem hasNaN_list {vs : List Value} : (list vs).HasNaN ↔ ∃ v ∈ vs, v.HasNaN := by
  rw [← hasNaN_tuple]
  simp [HasNaN, ← mem_leaves]

@[simp] theorem hasNaN_dict {es : List (String × Value)} :
    (dict es).HasNaN ↔ ∃ v ∈ es.map Prod.snd, v.HasNaN := by
  rw [← hasNaN_tuple]
  simp [HasNaN, ← mem_leaves, List.flatMap_map]

@[simp] theorem hasNaN_tensor {t : Tensor} :
    (tensor t).HasNaN ↔ ∃ x ∈ t.data, x.isNaN = true :=
  hasNaN_of_isLeaf rfl

@[simp] theorem not_hasNaN_ref {cell : CellId} : ¬ (ref cell).HasNaN :=
  not_hasNaN_of_isLeaf rfl rfl

section Mismatch

variable {v w : Value}

theorem kind_canonical (h : v.number? = none) : v.canonical.kind = v.kind := by
  cases v with
  | bool | int | float => cases h
  | _ => rfl

theorem isSome_number?_canonical (v : Value) :
    v.canonical.number?.isSome = v.number?.isSome := by
  cases v with
  | float x =>
    rcases canonical_float x with ⟨n, h⟩ | h
    · rw [h]
      rfl
    · rw [h]
  | _ => rfl

theorem number?_canonical_eq_none : v.canonical.number? = none ↔ v.number? = none := by
  rw [← Option.not_isSome_iff_eq_none, isSome_number?_canonical, Option.not_isSome_iff_eq_none]

theorem kind_eq_of_canonical (hnum : v.number? = none ∨ w.number? = none)
    (h : v.canonical = w.canonical) : v.kind = w.kind := by
  rw [← number?_canonical_eq_none, h, number?_canonical_eq_none, or_self] at hnum
  rw [← kind_canonical hnum, ← h, kind_canonical]
  rwa [← number?_canonical_eq_none, h, number?_canonical_eq_none]

theorem kind_eq_of_equal (hnum : v.number? = none ∨ w.number? = none) (h : v.equal w = true) :
    v.kind = w.kind := by
  cases v <;> cases w <;> first | rfl | simp [equal, number?] at hnum h

/-- Values of different kinds are neither equal nor of the same form, numbers apart. -/
theorem equal_iff_canonical_of_kind_ne (hnum : v.number? = none ∨ w.number? = none)
    (h : v.kind ≠ w.kind) :
    v.equal w = true ↔ v.canonical = w.canonical ∧ ¬ v.HasNaN ∧ ¬ w.HasNaN :=
  iff_of_false (fun heq => h (kind_eq_of_equal hnum heq))
    fun heq => h (kind_eq_of_canonical hnum heq.1)

end Mismatch

section Compared

variable {n m : Int64} {x y : Binary64} {b : Bool} {w : Value}

theorem toInt_ofInt_bool (b : Bool) : (Int64.ofInt b.toInt).toInt = b.toInt := by
  cases b <;> rfl

theorem number?_bool : (bool b).number? = (int (Int64.ofInt b.toInt)).number? := by
  rw [number?, number?, toInt_ofInt_bool]

theorem equal_bool : (bool b).equal w = (int (Int64.ofInt b.toInt)).equal w := by
  cases w <;> simp only [equal, number?_bool]

theorem equal_to_bool : w.equal (bool b) = w.equal (int (Int64.ofInt b.toInt)) := by
  cases w <;> simp only [equal, number?_bool]

@[simp] theorem equal_ints : (int n).equal (int m) = true ↔ n = m := by
  simp [equal, number?, Number.equal, Int64.toInt_inj]

theorem equal_int_float : (int n).equal (float x) = true ↔ x.toInt? = some n.toInt := by
  simp [equal, number?, Number.equal]

theorem equal_float_int : (float x).equal (int n) = true ↔ x.toInt? = some n.toInt := by
  simp [equal, number?, Number.equal]

theorem equal_floats : (float x).equal (float y) = x.equal y := by
  simp [equal, number?, Number.equal]

theorem equal_int_iff : (int n).equal w = true ↔ int n = w.canonical ∧ ¬ w.HasNaN := by
  cases w with
  | bool b =>
    rw [equal_to_bool, equal_ints]
    simp
  | int m => simp
  | float x =>
    rw [equal_int_float, toInt?_eq_iff, hasNaN_float, Bool.not_eq_true]
    exact and_congr_left' eq_comm
  | _ => simp [equal, number?, canonical]

theorem equal_float_iff : (float x).equal w = true ↔
    (float x).canonical = w.canonical ∧ ¬ (float x).HasNaN ∧ ¬ w.HasNaN := by
  rw [hasNaN_float, Bool.not_eq_true]
  cases w with
  | bool b =>
    rw [equal_to_bool, equal_float_int, toInt?_eq_iff]
    simp
  | int n =>
    rw [equal_float_int, toInt?_eq_iff]
    simp
  | float y => rw [equal_floats, equal_floats_iff_canonical, hasNaN_float, Bool.not_eq_true]
  | _ =>
    rw [← Bool.not_eq_true, ← hasNaN_float]
    exact equal_iff_canonical_of_kind_ne (.inr rfl) nofun

end Compared

mutual

/-- Values are equal exactly if they come to the same form and have no NaN. -/
theorem equal_iff_canonical : ∀ {v w : Value},
    v.equal w = true ↔ v.canonical = w.canonical ∧ ¬ v.HasNaN ∧ ¬ w.HasNaN
  | .bool b, w => by
    rw [equal_bool, equal_int_iff]
    simp
  | .int n, w => by
    rw [equal_int_iff]
    simp
  | .float x, w => equal_float_iff
  | .absent, w => by
    cases w with
    | absent => simp [equal]
    | _ => exact equal_iff_canonical_of_kind_ne (.inl rfl) nofun
  | .str s, w => by
    cases w with
    | str t => simp [equal, canonical]
    | _ => exact equal_iff_canonical_of_kind_ne (.inl rfl) nofun
  | .tuple vs, w => by
    cases w with
    | tuple ws =>
      rw [equal, equalAll_iff_canonical, canonical, canonical, tuple.injEq, hasNaN_tuple,
        hasNaN_tuple]
    | _ => exact equal_iff_canonical_of_kind_ne (.inl rfl) nofun
  | .list vs, w => by
    cases w with
    | list ws =>
      rw [equal, equalAll_iff_canonical, canonical, canonical, list.injEq, hasNaN_list,
        hasNaN_list]
    | _ => exact equal_iff_canonical_of_kind_ne (.inl rfl) nofun
  | .dict es, w => by
    cases w with
    | dict fs =>
      rw [equal, equalEntries_iff_canonical, canonical, canonical, dict.injEq, hasNaN_dict,
        hasNaN_dict]
    | _ => exact equal_iff_canonical_of_kind_ne (.inl rfl) nofun
  | .tensor t, w => by
    cases w with
    | tensor u =>
      rw [equal, Tensor.equal_iff, canonical, canonical, tensor.injEq, hasNaN_tensor,
        hasNaN_tensor]
    | _ => exact equal_iff_canonical_of_kind_ne (.inl rfl) nofun
  | .ref c, w => by
    cases w with
    | ref d => simp [equal, canonical]
    | _ => exact equal_iff_canonical_of_kind_ne (.inl rfl) nofun

theorem equalAll_iff_canonical : ∀ {vs ws : List Value}, equalAll vs ws = true ↔
    canonicalAll vs = canonicalAll ws ∧ (¬ ∃ v ∈ vs, v.HasNaN) ∧ ¬ ∃ w ∈ ws, w.HasNaN
  | [], [] => by simp [equalAll]
  | [], _ :: _ | _ :: _, [] => by simp [equalAll, canonicalAll]
  | v :: vs, w :: ws => by
    rw [equalAll, Bool.and_eq_true, equal_iff_canonical, equalAll_iff_canonical]
    simp only [canonicalAll, List.cons.injEq, List.exists_mem_cons_iff, not_or]
    exact and_three_comm

theorem equalEntries_iff_canonical : ∀ {es fs : List (String × Value)},
    equalEntries es fs = true ↔ canonicalEntries es = canonicalEntries fs ∧
      (¬ ∃ v ∈ es.map Prod.snd, v.HasNaN) ∧ ¬ ∃ w ∈ fs.map Prod.snd, w.HasNaN
  | [], [] => by simp [equalEntries]
  | [], _ :: _ | _ :: _, [] => by simp [equalEntries, canonicalEntries]
  | (k, v) :: es, (l, w) :: fs => by
    rw [equalEntries, Bool.and_eq_true, Bool.and_eq_true, beq_iff_eq, equal_iff_canonical,
      equalEntries_iff_canonical]
    simp only [canonicalEntries, List.map_cons, List.cons.injEq, Prod.mk.injEq,
      List.exists_mem_cons_iff, not_or]
    exact (and_congr_left' and_assoc.symm).trans and_three_comm

end

mutual

/-- What hashing a value writes shows its form only. -/
theorem feed_canonical : ∀ v : Value, v.canonical.feed = v.feed
  | .bool b => by
    rw [canonical_bool, feed, feed, toInt_ofInt_bool]
  | .float x => by
    cases h : x.toInt? with
    | some n => rw [canonical_float_of_some h, feed, feed, Number.feed, Number.feed, h, toInt_ofInt h]
    | none => rw [canonical_float_of_none h]
  | .tuple vs => by
    rw [canonical, feed, feed, feedAll_canonical, length_canonicalAll]
  | .absent | .int _ | .str _ | .list _ | .dict _ | .tensor _ | .ref _ => rfl

theorem feedAll_canonical : ∀ vs : List Value, feedAll (canonicalAll vs) = feedAll vs
  | [] => rfl
  | v :: vs => by
    rw [canonicalAll, feedAll, feedAll, feed_canonical v, feedAll_canonical vs]

end

theorem feed_of_equal {v w : Value} (h : v.equal w = true) : v.feed = w.feed := by
  rw [← feed_canonical v, (equal_iff_canonical.mp h).1, feed_canonical]

/-- Equality goes both ways and from each value to the next, whatever kinds of numbers are in
them; a value equals itself unless a NaN is in it; and equal values have a hash both or neither,
and are written to it in the same way. -/
theorem equal_lawful (a b c : Value) : (a.equal b = true → b.equal a = true) ∧
    (a.equal b = true → b.equal c = true → a.equal c = true) ∧
    (a.equal a = true ↔ ¬ a.HasNaN) ∧ (a.equal b = true → a.feed = b.feed) := by
  refine ⟨fun h => ?_, fun hab hbc => ?_, ?_, feed_of_equal⟩
  · obtain ⟨hform, ha, hb⟩ := equal_iff_canonical.mp h
    exact equal_iff_canonical.mpr ⟨hform.symm, hb, ha⟩
  · obtain ⟨hab, ha, -⟩ := equal_iff_canonical.mp hab
    obtain ⟨hbc, -, hc⟩ := equal_iff_canonical.mp hbc
    exact equal_iff_canonical.mpr ⟨hab.trans hbc, ha, hc⟩
  · rw [equal_iff_canonical, and_self_iff, and_iff_right rfl]

/-- One number is the least integer, and one is past the greatest. -/
theorem equal_lawful_limits :
    let a : Value := .tuple [.bool true, .tuple [.float ⟨0⟩, .float ⟨0xC3E0000000000000⟩],
      .float ⟨0x43E0000000000000⟩]
    let b : Value := .tuple [.int 1, .tuple [.int 0, .int Int64.minValue],
      .float ⟨0x43E0000000000000⟩]
    let c : Value := .tuple [.float ⟨0x3FF0000000000000⟩,
      .tuple [.float ⟨0x8000000000000000⟩, .int Int64.minValue], .float ⟨0x43E0000000000000⟩]
    (a.equal b = true ∧ b.equal c = true) ∧ b.equal a = true ∧ a.equal c = true ∧ ¬ a.HasNaN ∧
      a.feed = b.feed := by
  intro a b c
  have hab : a.equal b = true := by decide
  have hbc : b.equal c = true := by decide
  have haa : a.equal a = true := by decide
  obtain ⟨hsymm, htrans, hself, hfeed⟩ := equal_lawful a b c
  exact ⟨⟨hab, hbc⟩, hsymm hab, htrans hab hbc, hself.mp haa, hfeed hab⟩

end Value

end Staging
