namespace Staging.Entries

variable {α β : Type}

/-- The order every list of entries is kept in. -/
def Ascending (es : List (String × α)) : Prop :=
  es.Pairwise fun a b => a.1 < b.1

/-- Holds `x` under `key`; what was held there is dropped. -/
def put (key : String) (x : α) : List (String × α) → List (String × α)
  | [] => [(key, x)]
  | (k, y) :: es =>
    if key < k then (key, x) :: (k, y) :: es
    else if k < key then (k, y) :: put key x es
    else (key, x) :: es

/-- Later pairs win over earlier ones with the same key. -/
def ofList (pairs : List (String × α)) : List (String × α) :=
  pairs.foldl (fun es (key, x) => put key x es) []

theorem mem_put {key : String} {x : α} {e : String × α} {es : List (String × α)}
    (h : e ∈ put key x es) : e = (key, x) ∨ e ∈ es := by
  induction es with
  | nil => simpa [put] using h
  | cons f es ih =>
    rw [put] at h
    split at h
    · simpa using h
    · split at h
      · rcases List.mem_cons.mp h with rfl | h
        · simp
        · rcases ih h with h | h <;> simp [h]
      · rcases List.mem_cons.mp h with rfl | h <;> simp_all

theorem Ascending.put {key : String} {x : α} {es : List (String × α)} (h : Ascending es) :
    Ascending (put key x es) := by
  induction es with
  | nil => simp [Entries.put, Ascending]
  | cons f es ih =>
    obtain ⟨hf, hs⟩ := List.pairwise_cons.mp h
    rw [Entries.put]
    split
    · rename_i hlt
      refine List.pairwise_cons.mpr ⟨fun e he => ?_, h⟩
      rcases List.mem_cons.mp he with rfl | he
      · exact hlt
      · exact String.lt_trans hlt (hf e he)
    · split
      · rename_i hlt
        refine List.pairwise_cons.mpr ⟨fun e he => ?_, ih hs⟩
        rcases mem_put he with rfl | he
        · exact hlt
        · exact hf e he
      · rename_i hle hge
        have hk : key = f.1 := by
          rcases Std.lt_trichotomy key f.1 with h | h | h <;> simp_all
        exact List.pairwise_cons.mpr ⟨fun e he => hk ▸ hf e he, hs⟩

theorem ascending_ofList (pairs : List (String × α)) : Ascending (ofList pairs) := by
  suffices h : ∀ es : List (String × α), Ascending es →
      Ascending (pairs.foldl (fun es (key, x) => put key x es) es) from h [] List.Pairwise.nil
  induction pairs with
  | nil => exact fun _ h => h
  | cons p pairs ih => exact fun _ h => ih _ h.put

theorem mem_ofList {pairs : List (String × α)} {e : String × α} (h : e ∈ ofList pairs) :
    e ∈ pairs := by
  suffices hfold : ∀ es : List (String × α),
      e ∈ pairs.foldl (fun es (key, x) => put key x es) es → e ∈ pairs ∨ e ∈ es by
    exact (hfold [] h).resolve_right List.not_mem_nil
  clear h
  induction pairs with
  | nil => exact fun _ h => .inr h
  | cons p pairs ih =>
    intro es h
    rcases ih _ h with h | h
    · exact .inl (List.mem_cons_of_mem p h)
    · rcases mem_put h with he | he
      · exact .inl (he ▸ List.mem_cons_self)
      · exact .inr he

theorem Ascending.filter {es : List (String × α)} (h : Ascending es) (p : String × α → Bool) :
    Ascending (es.filter p) :=
  List.Pairwise.filter p h

theorem Ascending.map {es : List (String × α)} (h : Ascending es) (f : String → α → β) :
    Ascending (es.map fun (k, x) => (k, f k x)) :=
  List.pairwise_map.mpr h

end Staging.Entries
