import Staging.Decimal.Integer
import Staging.Proofs.Leaves
import Staging.Proofs.SameLeaves

namespace Staging.Value

/-- Of two steps into the same container, the first is to what comes first. -/
inductive Step.Before : Step → Step → Prop where
  | item {i j : Nat} (h : i < j) : Before (.item i) (.item j)
  | entry {k l : String} (h : k < l) : Before (.entry k) (.entry l)

/-- Where two paths part, the first takes the earlier step. -/
inductive Path.Before : Path → Path → Prop where
  | part {s t : Step} {p q : Path} (h : s.Before t) : Before (s :: p) (t :: q)
  | along {s : Step} {p q : Path} (h : Before p q) : Before (s :: p) (s :: q)

/-- Where a step goes. -/
inductive Step.Leads : Step → Value → Value → Prop where
  | tuple {i : Nat} {items : List Value} {w : Value} (h : items[i]? = some w) :
    Leads (.item i) (.tuple items) w
  | list {i : Nat} {items : List Value} {w : Value} (h : items[i]? = some w) :
    Leads (.item i) (.list items) w
  | dict {k : String} {entries : List (String × Value)} {w : Value}
    (h : entries.lookup k = some w) : Leads (.entry k) (.dict entries) w

/-- A step whose text ends where it seems to. -/
def Step.Plain : Step → Prop
  | .item _ => True
  | .entry k => '\x27' ∉ k.toList

mutual

/-- The keys of dicts, at any depth. -/
def keys : Value → List String
  | .tuple items => keysAll items
  | .list items => keysAll items
  | .dict entries => keysEntries entries
  | _ => []

def keysAll : List Value → List String
  | [] => []
  | v :: vs => keys v ++ keysAll vs

def keysEntries : List (String × Value) → List String
  | [] => []
  | (k, v) :: es => k :: (keys v ++ keysEntries es)

end

variable {v w leaf : Value} {s t : Step} {p q : Path} {k : String}

theorem mem_keysAll {vs : List Value} : k ∈ keysAll vs ↔ ∃ v ∈ vs, k ∈ v.keys := by
  induction vs with
  | nil => simp [keysAll]
  | cons v vs ih => simp [keysAll, ih]

theorem mem_keysEntries {es : List (String × Value)} :
    k ∈ keysEntries es ↔ ∃ e ∈ es, k = e.1 ∨ k ∈ e.2.keys := by
  induction es with
  | nil => simp [keysEntries]
  | cons e es ih => simp [keysEntries, ih, or_assoc]

theorem wellFormedAll_iff {vs : List Value} : WellFormedAll vs ↔ ∀ v ∈ vs, v.WellFormed := by
  induction vs with
  | nil => simp [WellFormedAll]
  | cons v vs ih => simp [WellFormedAll, ih]

theorem wellFormedEntries_iff {es : List (String × Value)} :
    WellFormedEntries es ↔ ∀ e ∈ es, e.2.WellFormed := by
  induction es with
  | nil => simp [WellFormedEntries]
  | cons e es ih => simp [WellFormedEntries, ih]

/-- A dict made of pairs is in order whatever order they come in. -/
theorem wellFormed_ofEntries {pairs : List (String × Value)}
    (h : ∀ e ∈ pairs, e.2.WellFormed) : (ofEntries pairs).WellFormed :=
  ⟨Entries.ascending_ofList pairs,
    wellFormedEntries_iff.mpr fun e he => h e (Entries.mem_ofList he)⟩

theorem Step.follow?_eq_some_iff : s.follow? v = some w ↔ s.Leads v w := by
  constructor
  · intro h
    cases s with
    | item i =>
      cases v with
      | tuple items => exact .tuple h
      | list items => exact .list h
      | _ => cases h
    | entry k =>
      cases v with
      | dict entries => exact .dict h
      | _ => cases h
  · intro h
    cases h with
    | tuple h => exact h
    | list h => exact h
    | dict h => exact h

theorem Path.follow?_cons_eq_some_iff :
    Path.follow? (s :: p) v = some leaf ↔ ∃ w, s.Leads v w ∧ p.follow? w = some leaf := by
  rw [Path.follow?, List.foldlM_cons, Option.bind_eq_bind, Option.bind_eq_some_iff]
  simp only [Step.follow?_eq_some_iff]
  rfl

namespace Step.Leads

theorem wellFormed (h : s.Leads v w) (hv : v.WellFormed) : w.WellFormed := by
  cases h with
  | tuple h => exact wellFormedAll_iff.mp hv w (List.mem_of_getElem? h)
  | list h => exact wellFormedAll_iff.mp hv w (List.mem_of_getElem? h)
  | @dict k entries w h => exact wellFormedEntries_iff.mp hv.2 (k, w) (hv.1.mem_iff.mpr h)

theorem mem_keys (h : s.Leads v w) (hv : v.WellFormed) (hk : k ∈ w.keys) : k ∈ v.keys := by
  cases h with
  | tuple h => exact mem_keysAll.mpr ⟨w, List.mem_of_getElem? h, hk⟩
  | list h => exact mem_keysAll.mpr ⟨w, List.mem_of_getElem? h, hk⟩
  | @dict l entries w h => exact mem_keysEntries.mpr ⟨(l, w), hv.1.mem_iff.mpr h, .inr hk⟩

theorem key_mem (h : (Step.entry k).Leads v w) (hv : v.WellFormed) : k ∈ v.keys := by
  cases h with
  | dict h => exact mem_keysEntries.mpr ⟨(k, w), hv.1.mem_iff.mpr h, .inl rfl⟩

end Step.Leads

theorem mem_under {found : List (Path × Value)} :
    (p, leaf) ∈ under s found ↔ ∃ q, (q, leaf) ∈ found ∧ s :: q = p := by
  simp [under]

theorem mem_itemPaths {index : Nat} {vs : List Value} : (p, leaf) ∈ itemPaths index vs ↔
    ∃ i v q, vs[i]? = some v ∧ (q, leaf) ∈ v.leafPaths ∧ .item (index + i) :: q = p := by
  induction vs generalizing index with
  | nil => simp [itemPaths]
  | cons v vs ih =>
    rw [itemPaths, List.mem_append, mem_under, ih]
    constructor
    · intro h
      rcases h with ⟨q, hq, rfl⟩ | ⟨i, w, q, hw, hq, rfl⟩
      · exact ⟨0, v, q, rfl, hq, rfl⟩
      · exact ⟨i + 1, w, q, hw, hq, by rw [Nat.add_right_comm, Nat.add_assoc]⟩
    · intro h
      obtain ⟨i, w, q, hw, hq, rfl⟩ := h
      cases i with
      | zero =>
        obtain rfl := Option.some.inj hw
        exact .inl ⟨q, hq, rfl⟩
      | succ i => exact .inr ⟨i, w, q, hw, hq, by rw [Nat.add_right_comm, Nat.add_assoc]⟩

theorem mem_entryPaths {es : List (String × Value)} : (p, leaf) ∈ entryPaths es ↔
    ∃ k v q, (k, v) ∈ es ∧ (q, leaf) ∈ v.leafPaths ∧ .entry k :: q = p := by
  induction es with
  | nil => simp [entryPaths]
  | cons e es ih =>
    obtain ⟨l, w⟩ := e
    rw [entryPaths, List.mem_append, mem_under, ih]
    constructor
    · intro h
      rcases h with ⟨q, hq, rfl⟩ | ⟨k, v, q, hv, hq, rfl⟩
      · exact ⟨l, w, q, List.mem_cons_self, hq, rfl⟩
      · exact ⟨k, v, q, List.mem_cons_of_mem _ hv, hq, rfl⟩
    · intro h
      obtain ⟨k, v, q, hv, hq, rfl⟩ := h
      rcases List.mem_cons.mp hv with he | hv
      · obtain ⟨rfl, rfl⟩ := Prod.mk.inj he
        exact .inl ⟨q, hq, rfl⟩
      · exact .inr ⟨k, v, q, hv, hq, rfl⟩

/-- Only a leaf is listed under the empty path, and then only itself. -/
theorem nil_mem_leafPaths : ([], leaf) ∈ v.leafPaths ↔ v = leaf ∧ leaf.isLeaf = true := by
  cases hv : v.isLeaf with
  | true =>
    rw [leafPaths_of_isLeaf hv, List.mem_singleton, Prod.mk.injEq, eq_self, true_and, eq_comm]
    exact ⟨fun h => ⟨h, h ▸ hv⟩, And.left⟩
  | false =>
    refine iff_of_false (fun h => ?_) fun h => ?_
    · cases v with
      | tuple items => simpa using mem_itemPaths.mp h
      | list items => simpa using mem_itemPaths.mp h
      | dict entries => simpa using mem_entryPaths.mp h
      | absent => cases h
      | _ => cases hv
    · rw [← h.1, hv] at h
      cases h.2

/-- What is listed under a path comes from where its first step leads. -/
theorem exists_leads_of_mem (hv : v.WellFormed) (h : (s :: p, leaf) ∈ v.leafPaths) :
    ∃ w, s.Leads v w ∧ (p, leaf) ∈ w.leafPaths := by
  cases v with
  | tuple items =>
    obtain ⟨i, w, q, hw, hq, he⟩ := mem_itemPaths.mp h
    obtain ⟨rfl, rfl⟩ := List.cons.inj he
    exact ⟨w, .tuple (by rwa [Nat.zero_add]), hq⟩
  | list items =>
    obtain ⟨i, w, q, hw, hq, he⟩ := mem_itemPaths.mp h
    obtain ⟨rfl, rfl⟩ := List.cons.inj he
    exact ⟨w, .list (by rwa [Nat.zero_add]), hq⟩
  | dict entries =>
    obtain ⟨k, w, q, hw, hq, he⟩ := mem_entryPaths.mp h
    obtain ⟨rfl, rfl⟩ := List.cons.inj he
    exact ⟨w, .dict (hv.1.mem_iff.mp hw), hq⟩
  | _ => simp [leafPaths] at h

theorem Step.Leads.mem_leafPaths (h : s.Leads v w) (hv : v.WellFormed)
    (hp : (p, leaf) ∈ w.leafPaths) : (s :: p, leaf) ∈ v.leafPaths := by
  cases h with
  | tuple h => exact mem_itemPaths.mpr ⟨_, w, p, h, hp, by rw [Nat.zero_add]⟩
  | list h => exact mem_itemPaths.mpr ⟨_, w, p, h, hp, by rw [Nat.zero_add]⟩
  | dict h => exact mem_entryPaths.mpr ⟨_, w, p, hv.1.mem_iff.mpr h, hp, rfl⟩

/-- The leaves that are listed are those that paths lead to. -/
theorem mem_leafPaths (hv : v.WellFormed) :
    (p, leaf) ∈ v.leafPaths ↔ p.follow? v = some leaf ∧ leaf.isLeaf = true := by
  induction p generalizing v with
  | nil =>
    rw [nil_mem_leafPaths]
    exact and_congr_left' Option.some_inj.symm
  | cons s p ih =>
    rw [Path.follow?_cons_eq_some_iff]
    constructor
    · intro h
      obtain ⟨w, hw, hp⟩ := exists_leads_of_mem hv h
      obtain ⟨hfollow, hleaf⟩ := (ih (hw.wellFormed hv)).mp hp
      exact ⟨⟨w, hw, hfollow⟩, hleaf⟩
    · intro h
      obtain ⟨⟨w, hw, hfollow⟩, hleaf⟩ := h
      exact hw.mem_leafPaths hv ((ih (hw.wellFormed hv)).mpr ⟨hfollow, hleaf⟩)

theorem mem_paths (hv : v.WellFormed) :
    p ∈ v.paths ↔ ∃ leaf, p.follow? v = some leaf ∧ leaf.isLeaf = true := by
  simp [paths, mem_leafPaths hv]

mutual

theorem pairwise_leafPaths : ∀ {v : Value}, v.WellFormed →
    v.leafPaths.Pairwise fun a b => a.1.Before b.1
  | .tuple _, hv => pairwise_itemPaths 0 hv
  | .list _, hv => pairwise_itemPaths 0 hv
  | .dict _, hv => pairwise_entryPaths hv.1 hv.2
  | .absent, _ => .nil
  | .bool _, _ | .int _, _ | .float _, _ | .str _, _ | .tensor _, _ | .ref _, _ =>
    List.pairwise_singleton _ _

theorem pairwise_itemPaths (index : Nat) : ∀ {vs : List Value}, WellFormedAll vs →
    (itemPaths index vs).Pairwise fun a b => a.1.Before b.1
  | [], _ => .nil
  | v :: vs, hvs => by
    rw [itemPaths, List.pairwise_append]
    refine ⟨List.pairwise_map.mpr ((pairwise_leafPaths hvs.1).imp .along),
      pairwise_itemPaths (index + 1) hvs.2, fun a ha b hb => ?_⟩
    -- paths through this item part at the first step from those through a later one
    obtain ⟨p, -, hp⟩ := mem_under.mp ha
    obtain ⟨i, w, q, -, -, hq⟩ := mem_itemPaths.mp hb
    rw [← hp, ← hq]
    exact .part (.item (by omega))

theorem pairwise_entryPaths : ∀ {es : List (String × Value)}, Entries.Ascending es →
    WellFormedEntries es → (entryPaths es).Pairwise fun a b => a.1.Before b.1
  | [], _, _ => .nil
  | (k, v) :: es, hes, hvs => by
    rw [entryPaths, List.pairwise_append]
    refine ⟨List.pairwise_map.mpr ((pairwise_leafPaths hvs.1).imp .along),
      pairwise_entryPaths hes.tail hvs.2, fun a ha b hb => ?_⟩
    obtain ⟨p, -, hp⟩ := mem_under.mp ha
    obtain ⟨l, w, q, hl, -, hq⟩ := mem_entryPaths.mp hb
    rw [← hp, ← hq]
    exact .part (.entry (hes.head_lt (l, w) hl))

end

theorem Step.Before.ne (h : s.Before t) : s ≠ t := by
  cases h with
  | item h => exact fun he => Nat.ne_of_lt h (Step.item.inj he)
  | entry h => exact fun he => String.ne_of_lt h (Step.entry.inj he)

theorem Path.Before.ne (h : p.Before q) : p ≠ q := by
  induction h with
  | part h => exact fun he => h.ne (List.cons.inj he).1
  | along _ ih => exact fun he => ih (List.cons.inj he).2

theorem nodup_paths (hv : v.WellFormed) : v.paths.Nodup :=
  List.pairwise_map.mpr ((pairwise_leafPaths hv).imp Path.Before.ne)

namespace Step

theorem toList_text_item (i : Nat) (cs : List Char) :
    (Step.item i).text.toList ++ cs = '[' :: (Nat.toDigits 10 i ++ ']' :: cs) := by
  simp [text]

theorem toList_text_entry (k : String) (cs : List Char) :
    (Step.entry k).text.toList ++ cs = '[' :: '\x27' :: (k.toList ++ '\x27' :: ']' :: cs) := by
  simp [text]

theorem text_ne_nil (s : Step) (cs : List Char) : s.text.toList ++ cs ≠ [] := by
  cases s with
  | item i => simp [toList_text_item]
  | entry k => simp [toList_text_entry]

theorem not_mem_toDigits {mark : Char} (h : mark.isDigit = false) (i : Nat) :
    mark ∉ Nat.toDigits 10 i :=
  fun hm => Decimal.ne_of_isDigit (Decimal.isDigit_of_mem_toDigits hm) h rfl

/-- No digit is an apostrophe. -/
theorem text_item_ne_entry (i : Nat) (k : String) (a b : List Char) :
    (Step.item i).text.toList ++ a ≠ (Step.entry k).text.toList ++ b := by
  intro h
  obtain ⟨c, cs, hi⟩ := List.exists_cons_of_ne_nil (@Nat.toDigits_ne_nil i 10)
  rw [toList_text_item, toList_text_entry, hi] at h
  obtain rfl : c = '\x27' := (List.cons.inj (List.cons.inj h).2).1
  exact not_mem_toDigits rfl i (hi ▸ List.mem_cons_self)

/-- What comes after a plain step does not change how it is read. -/
theorem Plain.text_inj (hs : s.Plain) (ht : t.Plain) {a b : List Char}
    (h : s.text.toList ++ a = t.text.toList ++ b) : s = t ∧ a = b := by
  cases s with
  | item i =>
    cases t with
    | item j =>
      rw [toList_text_item, toList_text_item] at h
      obtain ⟨hindex, hrest⟩ :=
        Text.append_sep_inj (not_mem_toDigits rfl i) (not_mem_toDigits rfl j) (List.cons.inj h).2
      exact ⟨congrArg _ (Decimal.toDigits_inj hindex), hrest⟩
    | entry l => exact absurd h (text_item_ne_entry i l a b)
  | entry k =>
    cases t with
    | item j => exact absurd h.symm (text_item_ne_entry j k b a)
    | entry l =>
      rw [toList_text_entry, toList_text_entry] at h
      obtain ⟨hkey, hrest⟩ := Text.append_sep_inj hs ht (List.cons.inj (List.cons.inj h).2).2
      exact ⟨congrArg _ (String.toList_inj.mp hkey), (List.cons.inj hrest).2⟩

end Step

namespace Path

theorem toList_text_cons (s : Step) (p : Path) :
    (Path.text (s :: p)).toList = s.text.toList ++ p.text.toList := by
  simp [Path.text]

/-- Paths of plain steps are told apart by their texts. -/
theorem text_inj (hp : ∀ s ∈ p, s.Plain) (hq : ∀ s ∈ q, s.Plain) (h : p.text = q.text) :
    p = q := by
  induction p generalizing q with
  | nil =>
    cases q with
    | nil => rfl
    | cons t q =>
      have hnil := congrArg String.toList h.symm
      rw [toList_text_cons] at hnil
      exact absurd hnil (t.text_ne_nil _)
  | cons s p ih =>
    cases q with
    | nil =>
      have hnil := congrArg String.toList h
      rw [toList_text_cons] at hnil
      exact absurd hnil (s.text_ne_nil _)
    | cons t q =>
      have hcons := congrArg String.toList h
      rw [toList_text_cons, toList_text_cons] at hcons
      rw [List.forall_mem_cons] at hp hq
      obtain ⟨rfl, hrest⟩ := hp.1.text_inj hq.1 hcons
      rw [ih hp.2 hq.2 (String.toList_inj.mp hrest)]

/-- A path through a value takes steps under keys of the value only. -/
theorem plain_of_follow? (hv : v.WellFormed) (hk : ∀ k ∈ v.keys, '\x27' ∉ k.toList)
    (h : p.follow? v = some w) : ∀ s ∈ p, s.Plain := by
  induction p generalizing v with
  | nil => exact fun _ hs => absurd hs List.not_mem_nil
  | cons s p ih =>
    obtain ⟨u, hu, hp⟩ := follow?_cons_eq_some_iff.mp h
    rw [List.forall_mem_cons]
    refine ⟨?_, ih (hu.wellFormed hv) (fun l hl => hk l (hu.mem_keys hv hl)) hp⟩
    cases s with
    | item i => trivial
    | entry k => exact hk k (hu.key_mem hv)

end Path

/-- Where no key has an apostrophe in it, the text of a path to a leaf is read in no other way. -/
theorem eq_of_text_eq (hv : v.WellFormed) (hk : ∀ k ∈ v.keys, '\x27' ∉ k.toList)
    (hp : p ∈ v.paths) (hq : q.follow? v = some w) (h : q.text = p.text) : q = p := by
  obtain ⟨leaf, hleaf, -⟩ := (mem_paths hv).mp hp
  exact Path.text_inj (Path.plain_of_follow? hv hk hq) (Path.plain_of_follow? hv hk hleaf) h

/-- Paths that part can have the same text all the same if an apostrophe is in a key. -/
example : (Value.dict [("a", .dict [("b", .int 1)]), ("a']['b", .int 2)]).paths.map Path.text =
    ["['a']['b']", "['a']['b']"] := rfl

/-- In a value that keeps its dicts in order there are as many paths to leaves as leaves are
counted, in the order in which the paths part. Each leads to the leaf it is listed with, and no
other path leads to a leaf. Where no key has an apostrophe in it no two of them have the same text,
nor does any other path through the value have the text of one of them. Values that look the same
in the abstract have the same paths. -/
theorem leafPaths_faithful (hv : v.WellFormed) :
    v.leafPaths.length = v.numLeaves ∧
    (v.leafPaths.Pairwise fun a b => a.1.Before b.1) ∧
    (∀ (p : Path) (leaf : Value), (p, leaf) ∈ v.leafPaths ↔
      p.follow? v = some leaf ∧ leaf.isLeaf = true) ∧
    ((∀ k ∈ v.keys, '\x27' ∉ k.toList) → (v.paths.map Path.text).Nodup ∧
      ∀ (p q : Path) (w : Value), p ∈ v.paths → q.follow? v = some w → q.text = p.text → q = p) ∧
    ∀ (w : Value) (cells cells' : Cells), v.abstract cells = w.abstract cells' →
      v.paths = w.paths := by
  refine ⟨v.length_leafPaths, pairwise_leafPaths hv, fun p leaf => mem_leafPaths hv,
    fun hk => ⟨?_, fun p q w hp hq h => eq_of_text_eq hv hk hp hq h⟩, fun w cells cells' h => ?_⟩
  · refine (nodup_paths hv).map_on fun p hp q hq h => ?_
    obtain ⟨leaf, hleaf, -⟩ := (mem_paths hv).mp hp
    exact eq_of_text_eq hv hk hq hleaf h
  · rw [← paths_abstract cells v, h, paths_abstract cells' w]

/-- The keys have marks of paths in them, and do not come in their order. -/
theorem leafPaths_faithful_bracketed :
    let v : Value := .tuple [.int 1, .absent, .ofEntries [("[1]", .tuple [.absent, .float ⟨0⟩]),
      ("0][1", .list [.str "x", .dict []])]]
    let w : Value := .tuple [.int 2, .absent, .ofEntries [("0][1", .list [.str "y", .dict []]),
      ("[1]", .tuple [.absent, .float ⟨1⟩])]]
    let cells : Cells := ⟨fun _ => .scalar ⟨0⟩⟩
    (v.WellFormed ∧ (∀ k ∈ v.keys, '\x27' ∉ k.toList) ∧ v.abstract cells = w.abstract cells) ∧
      v.paths.map Path.text = ["[0]", "[2]['0][1'][0]", "[2]['[1]'][1]"] ∧
      (v.paths.map Path.text).Nodup ∧ v.paths = w.paths ∧
      Path.follow? [.item 2, .entry "[1]", .item 1] v = some (.float ⟨0⟩) := by
  intro v w cells
  have hv : v.WellFormed := by
    refine ⟨trivial, trivial, wellFormed_ofEntries fun e he => ?_, trivial⟩
    simp only [List.mem_cons, List.not_mem_nil, or_false] at he
    rcases he with rfl | rfl
    · exact ⟨trivial, trivial, trivial⟩
    · exact ⟨trivial, ⟨.nil, trivial⟩, trivial⟩
  have hk : ∀ k ∈ v.keys, '\x27' ∉ k.toList := by decide
  have hw : v.abstract cells = w.abstract cells := rfl
  have hlisted : v.leafPaths = [([.item 0], .int 1),
    ([.item 2, .entry "0][1", .item 0], .str "x"),
    ([.item 2, .entry "[1]", .item 1], .float ⟨0⟩)] := rfl
  obtain ⟨-, -, hleads, hplain, hsame⟩ := leafPaths_faithful hv
  have hmem : ([.item 2, .entry "[1]", .item 1], .float ⟨0⟩) ∈ v.leafPaths := by
    simp [hlisted]
  exact ⟨⟨hv, hk, hw⟩, rfl, (hplain hk).1, hsame w cells cells hw, ((hleads _ _).mp hmem).1⟩

end Staging.Value
