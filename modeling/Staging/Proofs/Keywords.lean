import Mathlib.Data.List.Forall2
import Staging.Kwargs

namespace Staging

namespace Entries

variable {α β : Type}

theorem lookup_cons_if (k l : String) (x : α) (es : List (String × α)) :
    ((l, x) :: es).lookup k = if k = l then some x else es.lookup k := by
  by_cases h : k = l
  · simp [h]
  · simp only [List.lookup_cons, beq_eq_false_iff_ne.mpr h, if_neg h]

theorem lookup_put (key k : String) (x : α) (es : List (String × α)) :
    (put key x es).lookup k = if k = key then some x else es.lookup k := by
  induction es with
  | nil => exact lookup_cons_if k key x []
  | cons e es ih =>
    obtain ⟨l, y⟩ := e
    rw [put]
    split
    · exact lookup_cons_if k key x _
    · split
      · rename_i hlt
        have hne : key ≠ l := fun he => String.lt_irrefl l (he ▸ hlt)
        by_cases hl : k = l
        · simp [hl, hne.symm]
        · simp [lookup_cons_if, hl, ih]
      · rename_i hle hge
        have hl : key = l := by
          rcases Std.lt_trichotomy key l with h | h | h <;> simp_all
        by_cases hk : k = key <;> simp [lookup_cons_if, hk, ← hl]

theorem lookup_filter (p : String → Bool) (k : String) (es : List (String × α)) :
    (es.filter fun e => p e.1).lookup k = if p k then es.lookup k else none := by
  induction es with
  | nil => simp
  | cons e es ih =>
    obtain ⟨l, x⟩ := e
    rw [lookup_cons_if]
    by_cases hk : k = l
    · subst hk
      by_cases hp : p k <;> simp [hp, ih]
    · by_cases hp : p l <;> simp [lookup_cons_if, hp, hk, ih]

theorem lookup_map (f : String → α → β) (k : String) (es : List (String × α)) :
    (es.map fun (l, x) => (l, f l x)).lookup k = (es.lookup k).map (f k) := by
  induction es with
  | nil => rfl
  | cons e es ih =>
    obtain ⟨l, x⟩ := e
    by_cases hk : k = l
    · simp [hk]
    · simp [lookup_cons_if, hk, ih]

/-- Entries with the same keys, in the same order, hold related things under each. -/
theorem lookup_rel {R : α → β → Prop} {es : List (String × α)} {fs : List (String × β)}
    (h : List.Forall₂ (fun e f => e.1 = f.1 ∧ R e.2 f.2) es fs) (k : String) :
    Option.Rel R (es.lookup k) (fs.lookup k) := by
  induction h with
  | nil => exact .none
  | @cons e f es fs hef _ ih =>
    obtain ⟨l, x⟩ := e
    obtain ⟨m, y⟩ := f
    obtain ⟨rfl, hxy⟩ := hef
    rw [lookup_cons_if, lookup_cons_if]
    by_cases hk : k = l
    · rw [if_pos hk, if_pos hk]
      exact .some hxy
    · rw [if_neg hk, if_neg hk]
      exact ih

theorem lookup_eq_none_of_lt {k : String} {es : List (String × α)}
    (h : ∀ e ∈ es, k < e.1) : es.lookup k = none := by
  rw [List.lookup_eq_none_iff]
  intro e he
  have hne : k ≠ e.1 := fun hk => String.lt_irrefl k (by simpa [← hk] using h e he)
  simpa using hne

theorem Ascending.tail {e : String × α} {es : List (String × α)} (h : Ascending (e :: es)) :
    Ascending es :=
  (List.pairwise_cons.mp h).2

theorem Ascending.head_lt {e : String × α} {es : List (String × α)} (h : Ascending (e :: es)) :
    ∀ d ∈ es, e.1 < d.1 :=
  (List.pairwise_cons.mp h).1

/-- A key below the head of the entries is under none of them. -/
theorem Ascending.lookup_below {k : String} {e : String × α} {es : List (String × α)}
    (h : Ascending (e :: es)) (hk : k < e.1) : (e :: es).lookup k = none := by
  apply lookup_eq_none_of_lt
  intro d hd
  rcases List.mem_cons.mp hd with rfl | hd
  · exact hk
  · exact String.lt_trans hk (h.head_lt d hd)

/-- Entries that hold a key have none above it at their head. -/
theorem Ascending.not_lt_head {e f : String × α} {es fs : List (String × α)}
    (hf : Ascending (f :: fs)) (h : ∀ k, (e :: es).lookup k = (f :: fs).lookup k) :
    ¬ e.1 < f.1 := by
  intro hlt
  have := h e.1
  rw [List.lookup_cons_self, hf.lookup_below hlt] at this
  cases this

theorem Ascending.ext {es fs : List (String × α)} (he : Ascending es) (hf : Ascending fs)
    (h : ∀ k, es.lookup k = fs.lookup k) : es = fs := by
  induction es generalizing fs with
  | nil =>
    cases fs with
    | nil => rfl
    | cons f fs =>
      have := h f.1
      rw [List.lookup_cons_self] at this
      cases this
  | cons e es ih =>
    cases fs with
    | nil =>
      have := h e.1
      rw [List.lookup_cons_self] at this
      cases this
    | cons f fs =>
      have hkey : e.1 = f.1 := by
        rcases Std.lt_trichotomy e.1 f.1 with hlt | heq | hgt
        · exact absurd hlt (hf.not_lt_head h)
        · exact heq
        · exact absurd hgt (he.not_lt_head fun k => (h k).symm)
      have hval : e.2 = f.2 := by
        have := h e.1
        rw [List.lookup_cons_self, hkey, List.lookup_cons_self] at this
        exact Option.some.inj this
      have hrest : es = fs := by
        refine ih he.tail hf.tail fun k => ?_
        by_cases hk : k = e.1
        · subst hk
          rw [lookup_eq_none_of_lt he.head_lt, lookup_eq_none_of_lt (hkey ▸ hf.head_lt)]
        · have := h k
          rwa [lookup_cons_if, lookup_cons_if, if_neg hk, if_neg (hkey ▸ hk)] at this
      rw [Prod.ext hkey hval, hrest]

theorem Ascending.nodup {es : List (String × α)} (h : Ascending es) :
    (es.map Prod.fst).Nodup := by
  refine List.pairwise_map.mpr (h.imp fun {d e} hlt heq => ?_)
  rw [heq] at hlt
  exact String.lt_irrefl e.1 hlt

/-- Where no key repeats, what is held is what is found. -/
theorem mem_iff_lookup {es : List (String × α)} (h : (es.map Prod.fst).Nodup) {k : String}
    {x : α} : (k, x) ∈ es ↔ es.lookup k = some x := by
  induction es with
  | nil => simp
  | cons e es ih =>
    obtain ⟨l, y⟩ := e
    obtain ⟨hl, hes⟩ := List.nodup_cons.mp h
    by_cases hk : k = l
    · subst hk
      have habs : (k, x) ∉ es := by
        intro hm
        exact hl (List.mem_map.mpr ⟨(k, x), hm, rfl⟩)
      simp [habs, eq_comm]
    · simp [lookup_cons_if, hk, ih hes]

theorem Ascending.mem_iff {es : List (String × α)} (h : Ascending es) {k : String} {x : α} :
    (k, x) ∈ es ↔ es.lookup k = some x :=
  mem_iff_lookup h.nodup

/-- Entries under keys from a list, in the order of the list, are those found key by key. -/
theorem eq_filterMap_lookup {keys : List String} {es : List (String × α)} (hn : keys.Nodup)
    (h : (es.map Prod.fst).Sublist keys) :
    es = keys.filterMap fun k => (es.lookup k).map (k, ·) := by
  induction keys generalizing es with
  | nil => simpa using h
  | cons k keys ih =>
    obtain ⟨hk, hkeys⟩ := List.nodup_cons.mp hn
    rcases List.sublist_cons_iff.mp h with hskip | ⟨rest, hes, hrest⟩
    · have hnone : es.lookup k = none := by
        rw [List.lookup_eq_none_iff]
        intro e he
        have hne : k ≠ e.1 := fun hke => hk (hke ▸ hskip.subset (List.mem_map_of_mem he))
        simpa using hne
      rw [List.filterMap_cons, hnone]
      exact ih hkeys hskip
    · obtain ⟨⟨l, x⟩, es, rfl, rfl, rfl⟩ := List.map_eq_cons_iff.mp hes
      have hothers : (keys.filterMap fun m => (((l, x) :: es).lookup m).map (m, ·)) =
          keys.filterMap fun m => (es.lookup m).map (m, ·) := by
        apply List.filterMap_congr
        intro m hm
        have hne : m ≠ l := fun hml => hk (hml ▸ hm)
        rw [lookup_cons_if, if_neg hne]
      rw [List.filterMap_cons, List.lookup_cons_self, hothers, ← ih hkeys hrest]
      rfl

/-- Entries under keys from a list, in the order of the list, are equal if they hold the same. -/
theorem eq_of_mem_iff {keys : List String} {es fs : List (String × α)} (hn : keys.Nodup)
    (he : (es.map Prod.fst).Sublist keys) (hf : (fs.map Prod.fst).Sublist keys)
    (h : ∀ k x, (k, x) ∈ es ↔ (k, x) ∈ fs) : es = fs := by
  have hlookup : ∀ k, es.lookup k = fs.lookup k := by
    intro k
    apply Option.ext
    intro x
    rw [← mem_iff_lookup (hn.sublist he), ← mem_iff_lookup (hn.sublist hf), h]
  rw [eq_filterMap_lookup hn he, eq_filterMap_lookup hn hf]
  simp only [hlookup]

end Entries

namespace Kwargs

theorem contains_eq (kw : Kwargs) (k : String) : kw.contains k = (kw.get? k).isSome := by
  rw [Bool.eq_iff_iff, contains, get?, List.any_eq_true, List.lookup_isSome_iff]
  refine exists_congr fun e => and_congr_right fun _ => ?_
  rw [beq_iff_eq, beq_iff_eq, eq_comm]

theorem contains_iff {kw : Kwargs} {k : String} :
    kw.contains k = true ↔ ∃ v, kw.get? k = some v := by
  rw [contains_eq, Option.isSome_iff_exists]

theorem exists_get?_of_isEmpty {kw : Kwargs} (h : kw.isEmpty = false) :
    ∃ k v, kw.get? k = some v := by
  obtain ⟨es, hes⟩ := kw
  cases es with
  | nil => cases h
  | cons e es =>
    obtain ⟨k, v⟩ := e
    exact ⟨k, v, by simp [get?]⟩

theorem isEmpty_of_get? {kw : Kwargs} {k : String} {v : Value} (h : kw.get? k = some v) :
    kw.isEmpty = false := by
  rw [get?] at h
  rw [isEmpty]
  cases he : kw.entries with
  | nil =>
    rw [he] at h
    cases h
  | cons e es => rfl

@[simp] theorem get?_put (kw : Kwargs) (key k : String) (v : Value) :
    (kw.put key v).get? k = if k = key then some v else kw.get? k :=
  Entries.lookup_put key k v kw.entries

/-- Merging keeps what it does not replace. -/
theorem get?_merge (kw other : Kwargs) (k : String) :
    (kw.merge other).get? k = (other.get? k).or (kw.get? k) := by
  obtain ⟨es, hes⟩ := other
  simp only [merge, get?]
  induction es generalizing kw with
  | nil => simp
  | cons e es ih =>
    obtain ⟨l, w⟩ := e
    have hput := kw.get?_put l k w
    rw [get?, get?] at hput
    rw [List.foldl_cons, ih _ hes.tail, hput, Entries.lookup_cons_if]
    by_cases hk : k = l
    · subst hk
      rw [Entries.lookup_eq_none_of_lt hes.head_lt, if_pos rfl, if_pos rfl]
      rfl
    · rw [if_neg hk, if_neg hk]

theorem get?_filter (kw : Kwargs) (p : String → Bool) (k : String) :
    (kw.filter fun e => p e.1).get? k = if p k then kw.get? k else none :=
  Entries.lookup_filter p k kw.entries

@[simp] theorem get?_map (kw : Kwargs) (f : String → Value → Value) (k : String) :
    (kw.map f).get? k = (kw.get? k).map (f k) :=
  Entries.lookup_map f k kw.entries

theorem ext_get? {a b : Kwargs} (h : ∀ k, a.get? k = b.get? k) : a = b :=
  eq_of_entries (a.ascending.ext b.ascending h)

theorem mem_entries {kw : Kwargs} {k : String} {v : Value} :
    (k, v) ∈ kw.entries ↔ kw.get? k = some v :=
  kw.ascending.mem_iff

theorem mem_keys {kw : Kwargs} {k : String} : k ∈ kw.keys ↔ kw.contains k = true := by
  simp [keys, contains]

/-- Keyword arguments for the same names. -/
theorem keys_eq {kw kw' : Kwargs} (h : ∀ k, (kw.get? k).isSome = (kw'.get? k).isSome) :
    kw.keys = kw'.keys := by
  have hkeys : ∀ kw : Kwargs, (kw.map fun _ _ => .absent).keys = kw.keys := by
    intro kw
    rw [keys, map, List.map_map]
    rfl
  have heq : (kw.map fun _ _ => .absent) = kw'.map fun _ _ => .absent := by
    apply ext_get?
    intro k
    have hk := h k
    rw [get?_map, get?_map]
    cases hx : kw.get? k <;> cases hy : kw'.get? k <;> simp [hx, hy] at hk ⊢
  rw [← hkeys kw, heq, hkeys]

end Kwargs

end Staging
