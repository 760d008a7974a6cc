import Staging.Aliasing

namespace Staging

namespace Value

/-- Neither a container nor absent. -/
def isLeaf : Value → Bool
  | .absent | .tuple _ | .list _ | .dict _ => false
  | _ => true

/-- A leaf that is reached from a value through any number of containers. -/
inductive HasLeaf : Value → Value → Prop where
  | self {v : Value} (h : v.isLeaf = true) : HasLeaf v v
  | tuple {items : List Value} {v leaf : Value} (hv : v ∈ items) (h : HasLeaf v leaf) :
    HasLeaf (.tuple items) leaf
  | list {items : List Value} {v leaf : Value} (hv : v ∈ items) (h : HasLeaf v leaf) :
    HasLeaf (.list items) leaf
  | dict {entries : List (String × Value)} {k : String} {v leaf : Value} (hv : (k, v) ∈ entries)
    (h : HasLeaf v leaf) : HasLeaf (.dict entries) leaf

mutual

/-- How often a value refers to a cell, at any depth. -/
def references (cell : CellId) : Value → Nat
  | .ref c => if c = cell then 1 else 0
  | .tuple items => referencesAll cell items
  | .list items => referencesAll cell items
  | .dict entries => referencesEntries cell entries
  | _ => 0

def referencesAll (cell : CellId) : List Value → Nat
  | [] => 0
  | v :: vs => references cell v + referencesAll cell vs

def referencesEntries (cell : CellId) : List (String × Value) → Nat
  | [] => 0
  | (_, v) :: es => references cell v + referencesEntries cell es

end

theorem map_snd_under (step : Step) (found : List (Path × Value)) :
    (under step found).map Prod.snd = found.map Prod.snd := by
  simp [under, Function.comp_def]

theorem map_snd_itemPaths (index : Nat) (vs : List Value) :
    (itemPaths index vs).map Prod.snd = vs.flatMap leaves := by
  induction vs generalizing index with
  | nil => rfl
  | cons v vs ih =>
    rw [itemPaths, List.map_append, map_snd_under, ih, List.flatMap_cons, leaves]

theorem map_snd_entryPaths (es : List (String × Value)) :
    (entryPaths es).map Prod.snd = es.flatMap fun e => e.2.leaves := by
  induction es with
  | nil => rfl
  | cons e es ih =>
    rw [entryPaths, List.map_append, map_snd_under, ih, List.flatMap_cons, leaves]

@[simp] theorem leaves_tuple (items : List Value) :
    (Value.tuple items).leaves = items.flatMap leaves :=
  map_snd_itemPaths 0 items

@[simp] theorem leaves_list (items : List Value) :
    (Value.list items).leaves = items.flatMap leaves :=
  map_snd_itemPaths 0 items

@[simp] theorem leaves_dict (entries : List (String × Value)) :
    (Value.dict entries).leaves = entries.flatMap fun e => e.2.leaves :=
  map_snd_entryPaths entries

@[simp] theorem leaves_absent : Value.absent.leaves = [] := rfl

theorem leafPaths_of_isLeaf {v : Value} (h : v.isLeaf = true) : v.leafPaths = [([], v)] := by
  cases v <;> first | rfl | cases h

theorem leaves_of_isLeaf {v : Value} (h : v.isLeaf = true) : v.leaves = [v] := by
  rw [leaves, leafPaths_of_isLeaf h]
  rfl

mutual

theorem hasLeaf_of_mem {leaf : Value} : ∀ {v : Value}, leaf ∈ v.leaves → HasLeaf v leaf
  | .absent, h => by cases h
  | .tuple items, h => by
    obtain ⟨v, hv, hleaf⟩ := hasLeaf_of_mem_all (leaves_tuple items ▸ h)
    exact .tuple hv hleaf
  | .list items, h => by
    obtain ⟨v, hv, hleaf⟩ := hasLeaf_of_mem_all (leaves_list items ▸ h)
    exact .list hv hleaf
  | .dict entries, h => by
    obtain ⟨e, he, hleaf⟩ := hasLeaf_of_mem_entries (leaves_dict entries ▸ h)
    exact .dict he hleaf
  | .bool _, h | .int _, h | .float _, h | .str _, h | .tensor _, h | .ref _, h => by
    obtain rfl := List.mem_singleton.mp h
    exact .self rfl

theorem hasLeaf_of_mem_all {leaf : Value} : ∀ {vs : List Value}, leaf ∈ vs.flatMap leaves →
    ∃ v ∈ vs, HasLeaf v leaf
  | [], h => by cases h
  | v :: vs, h => by
    rw [List.flatMap_cons, List.mem_append] at h
    rcases h with h | h
    · exact ⟨v, by simp, hasLeaf_of_mem h⟩
    · obtain ⟨w, hw, hleaf⟩ := hasLeaf_of_mem_all h
      exact ⟨w, by simp [hw], hleaf⟩

theorem hasLeaf_of_mem_entries {leaf : Value} : ∀ {es : List (String × Value)},
    (leaf ∈ es.flatMap fun e => e.2.leaves) → ∃ e ∈ es, HasLeaf e.2 leaf
  | [], h => by cases h
  | (k, v) :: es, h => by
    rw [List.flatMap_cons, List.mem_append] at h
    rcases h with h | h
    · exact ⟨(k, v), by simp, hasLeaf_of_mem h⟩
    · obtain ⟨e, he, hleaf⟩ := hasLeaf_of_mem_entries h
      exact ⟨e, by simp [he], hleaf⟩

end

theorem mem_of_hasLeaf {v leaf : Value} (h : HasLeaf v leaf) : leaf ∈ v.leaves := by
  induction h with
  | self h => rw [leaves_of_isLeaf h]; exact List.mem_singleton.mpr rfl
  | tuple hv _ ih => rw [leaves_tuple]; exact List.mem_flatMap.mpr ⟨_, hv, ih⟩
  | list hv _ ih => rw [leaves_list]; exact List.mem_flatMap.mpr ⟨_, hv, ih⟩
  | dict hv _ ih => rw [leaves_dict]; exact List.mem_flatMap.mpr ⟨_, hv, ih⟩

/-- What is listed as a leaf is what can be reached. -/
theorem mem_leaves {v leaf : Value} : leaf ∈ v.leaves ↔ HasLeaf v leaf :=
  ⟨hasLeaf_of_mem, mem_of_hasLeaf⟩

mutual

theorem count_cells (cell : CellId) : ∀ v : Value,
    (v.leaves.map cell?).count (some cell) = v.references cell
  | .absent => rfl
  | .ref c => by
    rw [leaves_of_isLeaf rfl, references, List.map_singleton, List.count_singleton, cell?]
    simp
  | .tuple items => by rw [leaves_tuple, references, count_cells_all cell items]
  | .list items => by rw [leaves_list, references, count_cells_all cell items]
  | .dict entries => by rw [leaves_dict, references, count_cells_entries cell entries]
  | .bool _ | .int _ | .float _ | .str _ | .tensor _ => rfl

theorem count_cells_all (cell : CellId) : ∀ vs : List Value,
    ((vs.flatMap leaves).map cell?).count (some cell) = referencesAll cell vs
  | [] => rfl
  | v :: vs => by
    rw [List.flatMap_cons, List.map_append, List.count_append, count_cells cell v,
      count_cells_all cell vs, referencesAll]

theorem count_cells_entries (cell : CellId) : ∀ es : List (String × Value),
    ((es.flatMap fun e => e.2.leaves).map cell?).count (some cell) = referencesEntries cell es
  | [] => rfl
  | (k, v) :: es => by
    rw [List.flatMap_cons, List.map_append, List.count_append, count_cells cell v,
      count_cells_entries cell es, referencesEntries]

end

end Value

end Staging
