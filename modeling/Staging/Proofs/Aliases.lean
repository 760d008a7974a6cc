import Mathlib.Data.List.NodupEquivFin
import Staging.Proofs.Leaves
import Staging.Proofs.Metadata

namespace Staging

open Results

/-- A leaf of arguments, counted over all of them, is a reference to a cell. -/
def CellAt (args : List Value) (leaf : Nat) (cell : CellId) : Prop :=
  (args.flatMap Value.leaves)[leaf]? = some (.ref cell)

/-- Some cell is referred to at two leaves at least. -/
def Aliased (args : List Value) : Prop :=
  ∃ cell, 2 ≤ Value.referencesAll cell args

/-- Some leaf is a reference to a cell. -/
def RefersTo (args : List Value) (cell : CellId) : Prop :=
  ∃ v ∈ args, v.HasLeaf (.ref cell)

/-- The first leaf with a cell of an earlier one, and the first leaf of that cell. -/
structure FirstRepeat (args : List Value) (r : Repeat) : Prop where
  lt : r.first < r.second
  first : CellAt args r.first r.cell
  second : CellAt args r.second r.cell
  first_least : ∀ i < r.first, ¬ CellAt args i r.cell
  second_least : ∀ j < r.second, ∀ i < j, ∀ cell, CellAt args i cell → ¬ CellAt args j cell

/-- The first leaf of arguments with a cell of a leaf of what is closed over. -/
structure FirstShared (consts args : List Value) (cell : CellId) (leaf : Nat) : Prop where
  closed_over : RefersTo consts cell
  passed : CellAt args leaf cell
  least : ∀ j < leaf, ∀ other, CellAt args j other → ¬ RefersTo consts other

theorem Value.cell?_eq_some_iff {v : Value} {cell : CellId} :
    v.cell? = some cell ↔ v = .ref cell := by
  cases v <;> simp [cell?]

theorem leafCells_eq_map (args : List Value) :
    leafCells args = (args.flatMap Value.leaves).map Value.cell? := by
  rw [leafCells, List.map_flatMap]

theorem cellAt_iff {args : List Value} {leaf : Nat} {cell : CellId} :
    CellAt args leaf cell ↔ (leafCells args)[leaf]? = some (some cell) := by
  rw [CellAt, leafCells_eq_map, List.getElem?_map, Option.map_eq_some_iff]
  simp [Value.cell?_eq_some_iff]

theorem refersTo_iff {args : List Value} {cell : CellId} :
    RefersTo args cell ↔ ∃ i, CellAt args i cell := by
  simp only [RefersTo, CellAt, ← Value.mem_leaves, ← List.mem_iff_getElem?, List.mem_flatMap]

theorem count_leafCells (args : List Value) (cell : CellId) :
    (leafCells args).count (some cell) = Value.referencesAll cell args := by
  rw [leafCells_eq_map, Value.count_cells_all]

theorem aliased_iff {args : List Value} :
    Aliased args ↔ ∃ cell i j, i ≠ j ∧ CellAt args i cell ∧ CellAt args j cell := by
  simp only [Aliased, ← count_leafCells, cellAt_iff]
  refine exists_congr fun cell => ?_
  have hpair : List.replicate 2 (some cell) = [some cell, some cell] := rfl
  rw [← List.replicate_sublist_iff, hpair, ← List.duplicate_iff_sublist,
    List.duplicate_iff_exists_distinct_get]
  constructor
  · rintro ⟨i, j, hij, hi, hj⟩
    exact ⟨i, j, Nat.ne_of_lt hij, by simp [hi], by simp [hj]⟩
  · rintro ⟨i, j, hne, hi, hj⟩
    obtain ⟨hilt, hi⟩ := List.getElem?_eq_some_iff.mp hi
    obtain ⟨hjlt, hj⟩ := List.getElem?_eq_some_iff.mp hj
    rcases Nat.lt_or_gt_of_ne hne with hij | hij
    · exact ⟨⟨i, hilt⟩, ⟨j, hjlt⟩, hij, hi.symm, hj.symm⟩
    · exact ⟨⟨j, hjlt⟩, ⟨i, hilt⟩, hij, hj.symm, hi.symm⟩

section Repeats

variable {args : List Value} {r r' : Repeat} {seen : List (CellId × Nat)}
  {before rest : List (Option CellId)}

/-- What was seen is every cell so far with its leaf, so none is at two. -/
def Seen (seen : List (CellId × Nat)) (before : List (Option CellId)) : Prop :=
  ∀ cell i, seen.lookup cell = some i ↔ before[i]? = some (some cell)

theorem Seen.nil : Seen [] [] := by simp [Seen]

theorem Seen.unique (h : Seen seen before) {cell : CellId} {i j : Nat}
    (hi : before[i]? = some (some cell)) (hj : before[j]? = some (some cell)) : i = j :=
  Option.some.inj (((h cell i).mpr hi).symm.trans ((h cell j).mpr hj))

theorem Seen.skip (h : Seen seen before) : Seen seen (before ++ [none]) := by
  intro cell i
  rw [h, List.getElem?_append]
  split
  · rfl
  · rename_i hi
    rw [List.getElem?_eq_none (by omega)]
    cases i - before.length <;> simp

theorem Seen.add (h : Seen seen before) {cell : CellId} (hn : seen.lookup cell = none) :
    Seen ((cell, before.length) :: seen) (before ++ [some cell]) := by
  intro other i
  by_cases hother : other = cell
  · subst hother
    have hbefore : before[i]? ≠ some (some other) := by
      rw [ne_eq, ← h, hn]
      simp
    rw [List.lookup_cons_self, List.getElem?_append]
    split
    · rename_i hi
      simp only [hbefore, iff_false, Option.some.injEq]
      omega
    · rename_i hi
      rw [List.getElem?_singleton]
      split <;> simp <;> omega
  · rw [List.lookup_cons, beq_eq_false_iff_ne.mpr hother, h, List.getElem?_append]
    split
    · rfl
    · rename_i hi
      rw [List.getElem?_eq_none (by omega), List.getElem?_singleton]
      split <;> simp [Ne.symm hother]

/-- A leaf whose cell was seen, where no cell was at two leaves before. -/
theorem Seen.firstRepeat (h : Seen seen before) {cell : CellId} {first : Nat}
    (he : leafCells args = before ++ some cell :: rest) (hl : seen.lookup cell = some first) :
    FirstRepeat args ⟨cell, first, before.length⟩ := by
  have hat : ∀ i < before.length, ∀ other,
      CellAt args i other ↔ before[i]? = some (some other) := by
    intro i hi other
    rw [cellAt_iff, he, List.getElem?_append_left hi]
  have hfirst := (h cell first).mp hl
  have hlt : first < before.length := (List.getElem?_eq_some_iff.mp hfirst).1
  refine ⟨hlt, (hat first hlt cell).mpr hfirst, ?_, ?_, ?_⟩
  · rw [cellAt_iff, he]
    simp
  · intro i (hi : i < first) hc
    have := h.unique ((hat i (by omega) cell).mp hc) hfirst
    omega
  · intro j (hj : j < before.length) i hi other hic hjc
    have := h.unique ((hat i (by omega) other).mp hic) ((hat j hj other).mp hjc)
    omega

theorem repeatFrom_spec (he : leafCells args = before ++ rest) (hs : Seen seen before) :
    (∀ r ∈ repeatFrom before.length seen rest, FirstRepeat args r) ∧
      (repeatFrom before.length seen rest = none → ¬ Aliased args) := by
  induction rest generalizing before seen with
  | nil =>
    refine ⟨fun r hr => (by cases hr), fun _ => ?_⟩
    rw [aliased_iff]
    rintro ⟨cell, i, j, hne, hi, hj⟩
    rw [cellAt_iff, he, List.append_nil] at hi hj
    exact hne (hs.unique hi hj)
  | cons cell? rest ih =>
    have hnext : leafCells args = (before ++ [cell?]) ++ rest := by simp [he]
    have hlength : (before ++ [cell?]).length = before.length + 1 := by simp
    cases cell? with
    | none =>
      rw [repeatFrom, ← hlength]
      exact ih hnext hs.skip
    | some cell =>
      rw [repeatFrom, ← hlength]
      cases hl : seen.lookup cell with
      | none => exact ih hnext (hs.add hl)
      | some first =>
        refine ⟨fun r hr => ?_, fun hn => by cases hn⟩
        obtain rfl := Option.some.inj hr
        exact hs.firstRepeat he hl

theorem FirstRepeat.aliased (h : FirstRepeat args r) : Aliased args :=
  aliased_iff.mpr ⟨r.cell, r.first, r.second, Nat.ne_of_lt h.lt, h.first, h.second⟩

theorem FirstRepeat.unique (h : FirstRepeat args r) (h' : FirstRepeat args r') : r = r' := by
  have hle : ∀ {r r' : Repeat}, FirstRepeat args r → FirstRepeat args r' →
      r.second ≤ r'.second := by
    intro r r' h h'
    by_contra hlt
    exact h.second_least _ (by omega) _ h'.lt _ h'.first h'.second
  have hsecond : r.second = r'.second := Nat.le_antisymm (hle h h') (hle h' h)
  have hcell : r.cell = r'.cell := by
    have hboth := h.second.symm.trans (hsecond ▸ h'.second)
    simpa using hboth
  have hfirst : r.first = r'.first := by
    refine Nat.le_antisymm ?_ ?_
    · by_contra hlt
      exact h.first_least _ (by omega) (hcell ▸ h'.first)
    · by_contra hlt
      exact h'.first_least _ (by omega) (hcell ▸ h.first)
  cases r
  cases r'
  simp_all

theorem repeatedCell?_spec (args : List Value) :
    (∀ r ∈ repeatedCell? args, FirstRepeat args r) ∧ (repeatedCell? args = none → ¬ Aliased args) :=
  repeatFrom_spec (List.nil_append _).symm .nil

theorem repeatedCell?_eq_none_iff : repeatedCell? args = none ↔ ¬ Aliased args := by
  refine ⟨(repeatedCell?_spec args).2, fun h => ?_⟩
  cases hr : repeatedCell? args with
  | none => rfl
  | some r => exact absurd ((repeatedCell?_spec args).1 r hr).aliased h

theorem exists_firstRepeat (h : Aliased args) : ∃ r, FirstRepeat args r := by
  cases hr : repeatedCell? args with
  | none => exact absurd h (repeatedCell?_eq_none_iff.mp hr)
  | some r => exact ⟨r, (repeatedCell?_spec args).1 r hr⟩

theorem repeatedCell?_eq_some_iff : repeatedCell? args = some r ↔ FirstRepeat args r := by
  refine ⟨(repeatedCell?_spec args).1 r, fun h => ?_⟩
  cases hr : repeatedCell? args with
  | none => exact absurd h.aliased (repeatedCell?_eq_none_iff.mp hr)
  | some r' => rw [((repeatedCell?_spec args).1 r' hr).unique h]

/-- The check for aliases fails exactly if there are some, and reports the first ones. -/
theorem checkArgsUnaliased_error_iff {provenance : Option Provenance} {cells : Cells} {e : Error} :
    checkArgsUnaliased provenance cells args = .error e ↔ ∃ r, FirstRepeat args r ∧
      e = .aliasedArgs provenance (cells.read r.cell).type r.first r.second := by
  simp only [← repeatedCell?_eq_some_iff, checkArgsUnaliased]
  cases repeatedCell? args <;> simp [eq_comm]

theorem checkArgsUnaliased_ok_iff {provenance : Option Provenance} {cells : Cells} :
    checkArgsUnaliased provenance cells args = .ok () ↔ ¬ Aliased args := by
  rw [← repeatedCell?_eq_none_iff, checkArgsUnaliased]
  cases repeatedCell? args <;> simp

end Repeats

section Shared

variable {consts args : List Value} {cell : CellId} {leaf : Nat}

theorem findSome?_zipIdx_eq_some_iff {α β : Type} {f : α × Nat → Option β} {xs : List α} {b : β} :
    xs.zipIdx.findSome? f = some b ↔ ∃ (i : Nat) (x : α), xs[i]? = some x ∧ f (x, i) = some b ∧
      ∀ j < i, ∀ y, xs[j]? = some y → f (y, j) = none := by
  have hat : ∀ (i : Nat) (x : α), xs[i]? = some x → xs.zipIdx[i]? = some (x, i) := by
    intro i x hx
    simp [hx]
  rw [List.findSome?_eq_some_iff]
  constructor
  · rintro ⟨before, ⟨x, i⟩, after, he, hf, hbefore⟩
    have hi : xs.zipIdx[before.length]? = some (x, i) := by simp [he]
    rw [List.getElem?_zipIdx, Option.map_eq_some_iff] at hi
    obtain ⟨_, hx, hpair⟩ := hi
    obtain ⟨rfl, rfl⟩ := Prod.mk.inj hpair
    rw [Nat.zero_add] at hf
    refine ⟨before.length, _, hx, hf, fun j hj y hy => hbefore (y, j) ?_⟩
    have hmem := hat j y hy
    rw [he, List.getElem?_append_left hj] at hmem
    exact List.mem_of_getElem? hmem
  · rintro ⟨i, x, hx, hf, hbefore⟩
    obtain ⟨hlt, hget⟩ := List.getElem?_eq_some_iff.mp (hat i x hx)
    refine ⟨xs.zipIdx.take i, (x, i), xs.zipIdx.drop (i + 1), ?_, hf, ?_⟩
    · rw [← hget, List.getElem_cons_drop, List.take_append_drop]
    · rintro ⟨y, j⟩ hmem
      obtain ⟨k, hk⟩ := List.mem_iff_getElem?.mp hmem
      rw [List.getElem?_take] at hk
      split at hk
      · rename_i hki
        rw [List.getElem?_zipIdx, Option.map_eq_some_iff] at hk
        obtain ⟨_, hy, hpair⟩ := hk
        obtain ⟨rfl, rfl⟩ := Prod.mk.inj hpair
        rw [Nat.zero_add]
        exact hbefore k hki _ hy
      · cases hk

theorem contains_closedOver :
    ((leafCells consts).filterMap id).contains cell = true ↔ RefersTo consts cell := by
  simp only [refersTo_iff, cellAt_iff, ← List.mem_iff_getElem?, List.contains_iff_mem,
    List.mem_filterMap, id,
    exists_eq_right]

theorem sharedCell?_eq_some_iff :
    sharedCell? ((leafCells consts).filterMap id) (leafCells args) = some (cell, leaf) ↔
      FirstShared consts args cell leaf := by
  let closedOver := (leafCells consts).filterMap id
  have hsome : ∀ (cell? : Option CellId) (i : Nat), (cell?.bind fun cell =>
      if closedOver.contains cell then some (cell, i) else none) = some (cell, leaf) ↔
        (cell? = some cell ∧ i = leaf) ∧ closedOver.contains cell = true := by
    intro cell? i
    simp only [Option.bind_eq_some_iff, Option.ite_none_right_eq_some, Option.some.injEq,
      Prod.mk.injEq]
    constructor
    · rintro ⟨_, rfl, hc, rfl, rfl⟩
      exact ⟨⟨rfl, rfl⟩, hc⟩
    · rintro ⟨⟨rfl, rfl⟩, hc⟩
      exact ⟨_, rfl, hc, rfl, rfl⟩
  have hnone : ∀ (cell? : Option CellId) (i : Nat), (cell?.bind fun cell =>
      if closedOver.contains cell then some (cell, i) else none) = none ↔
        ∀ other, cell? = some other → ¬ closedOver.contains other = true := by
    intro cell? i
    cases cell? <;> simp
  rw [sharedCell?, findSome?_zipIdx_eq_some_iff]
  simp only [hsome, hnone, closedOver, contains_closedOver]
  constructor
  · rintro ⟨_, _, hx, ⟨⟨rfl, rfl⟩, hc⟩, hbefore⟩
    refine ⟨hc, cellAt_iff.mpr hx, fun j hj other hother => ?_⟩
    exact hbefore j hj _ (cellAt_iff.mp hother) other rfl
  · intro h
    refine ⟨leaf, _, cellAt_iff.mp h.passed, ⟨⟨rfl, rfl⟩, h.closed_over⟩, ?_⟩
    rintro j hj _ hother other rfl
    exact h.least j hj other (cellAt_iff.mpr hother)

theorem checkClosedOverUnaliased_error_iff {provenance : Option Provenance} {cells : Cells}
    {e : Error} : checkClosedOverUnaliased provenance cells consts args = .error e ↔
      ∃ cell leaf, FirstShared consts args cell leaf ∧
        e = .aliasedClosedOver provenance (cells.read cell).type leaf := by
  simp only [← sharedCell?_eq_some_iff, checkClosedOverUnaliased]
  cases sharedCell? ((leafCells consts).filterMap id) (leafCells args) with
  | none => simp
  | some shared => simp [Prod.ext_iff, eq_comm]

/-- Where a cell is shared, there is a first leaf with one. -/
theorem exists_firstShared_iff : (∃ cell leaf, FirstShared consts args cell leaf) ↔
    ∃ cell, RefersTo consts cell ∧ RefersTo args cell := by
  classical
  constructor
  · rintro ⟨cell, leaf, h⟩
    exact ⟨cell, h.closed_over, refersTo_iff.mpr ⟨leaf, h.passed⟩⟩
  · rintro ⟨cell, hc, ha⟩
    obtain ⟨i, hi⟩ := refersTo_iff.mp ha
    have hex : ∃ leaf cell, RefersTo consts cell ∧ CellAt args leaf cell := ⟨i, cell, hc, hi⟩
    obtain ⟨first, hclosed, hfirst⟩ := Nat.find_spec hex
    refine ⟨first, Nat.find hex, hclosed, hfirst, fun j hj other hother hshared => ?_⟩
    exact Nat.find_min hex hj ⟨other, hshared, hother⟩

end Shared

namespace Staged

variable {f : Callable} {roles : Roles} {resolved : Resolved} {config : Config} {s : Staged}
  {cells : Cells} {c : Call} {split : SplitCall}

/-- Whatever call is split, its leaves can be named. -/
theorem exists_provenance (hs : s.split c = .ok split) : ∃ p, s.provenance c = .ok p :=
  ⟨_, bind_ok.mpr ⟨_, bind_ok.mpr ⟨_, split_mask hs, rfl⟩, rfl⟩⟩

/-- Whatever call is split and free of aliases, there is an entry for it. -/
theorem fetch_ok (hs : s.split c = .ok split) : ∃ l, (s.fetch cells c split).result = .ok l := by
  obtain ⟨p, hp⟩ := exists_provenance hs
  have hc : ∃ entry, s.compile c split = .ok entry := ⟨_, bind_ok.mpr ⟨p, hp, rfl⟩⟩
  obtain ⟨entry, hc⟩ := hc
  simp only [fetch, hc]
  split <;> exact ⟨_, rfl⟩

/-- Naming the leaves never keeps an alias from being reported. -/
theorem checkUnaliased_error_iff (hon : s.config.mutableArrayChecks = true)
    (hs : s.split c = .ok split) {values : List Value} {e : Error} :
    s.checkUnaliased cells c values = .error e ↔ ∃ p r, s.provenance c = .ok p ∧
      FirstRepeat values r ∧
        e = .aliasedArgs (some p) (cells.read r.cell).type r.first r.second := by
  obtain ⟨p, hp⟩ := exists_provenance hs
  cases hr : repeatedCell? values with
  | none =>
    have hnone : ∀ r, ¬ FirstRepeat values r := by
      intro r h
      exact repeatedCell?_eq_none_iff.mp hr h.aliased
    simp [checkUnaliased, hr, hnone]
  | some r =>
    have hcheck : s.checkUnaliased cells c values = checkArgsUnaliased (some p) cells values := by
      simp only [checkUnaliased, hon, hr, hp]
      rfl
    rw [hcheck, checkArgsUnaliased_error_iff]
    simp [hp]

theorem split_values (hs : s.split c = .ok split) :
    split.values = (s.statics.dynamic c).args ++ (s.statics.dynamic c).kwargs.values := by
  rw [SplitCall.values, split_dynamic hs]
  rfl

theorem aliased_of_checkUnaliased (hs : s.split c = .ok split) {e : Error}
    (hu : s.checkUnaliased cells c split.values = .error e) :
    s.config.mutableArrayChecks = true ∧
      Aliased ((s.statics.dynamic c).args ++ (s.statics.dynamic c).kwargs.values) := by
  cases hon : s.config.mutableArrayChecks with
  | false => simp [checkUnaliased, hon] at hu
  | true =>
    obtain ⟨p, r, -, hr, -⟩ := (checkUnaliased_error_iff hon hs).mp hu
    exact ⟨rfl, split_values hs ▸ hr.aliased⟩

/-- Once a call is split, only an alias keeps it from having an entry. -/
theorem lower_error_iff (hon : s.config.mutableArrayChecks = true) (hs : s.split c = .ok split)
    {e : Error} : (s.lower cells c).result = .error e ↔ ∃ p r, s.provenance c = .ok p ∧
      FirstRepeat split.values r ∧
        e = .aliasedArgs (some p) (cells.read r.cell).type r.first r.second := by
  rw [← checkUnaliased_error_iff hon hs]
  unfold lower
  rw [hs]
  dsimp only
  cases hu : s.checkUnaliased cells c split.values with
  | error e' => simp
  | ok _ =>
    obtain ⟨l, hl⟩ := @fetch_ok _ cells _ _ hs
    simp [hl]

/-- A staged function that checks for aliases gives every call that can be split an entry, found or
compiled, unless some cell is at two leaves of the arguments left to be passed; then it reports the
first leaf that repeats a cell and the first leaf of that cell. The check reports so for any
arguments, and the check of what is closed over the first leaf with a cell of its leaves. -/
theorem lower_refuses_aliases (hs : s.Made f roles config)
    (hon : config.mutableArrayChecks = true) (uses : List Use) (cells : Cells) (c : Call)
    (hsplit : (s.afterAll uses).split c = .ok split) :
    let statics : Statics := ⟨s.resolved.staticArgnums, s.resolved.staticArgnames⟩
    let values := (statics.dynamic c).args ++ (statics.dynamic c).kwargs.values
    let lowered := ((s.afterAll uses).lower cells c).result
    ((∃ p type i j, lowered = .error (.aliasedArgs p type i j)) ↔ Aliased values) ∧
      (∀ e, lowered = .error e → ∃ p r, f.provenance "jit" c statics none none = .ok p ∧
        FirstRepeat values r ∧
          e = .aliasedArgs (some p) (cells.read r.cell).type r.first r.second) ∧
      ∀ (p : Option Provenance) (cells : Cells) (args consts : List Value),
        (checkArgsUnaliased p cells args = .ok () ↔ ¬ Aliased args) ∧
        (∀ e, checkArgsUnaliased p cells args = .error e ↔ ∃ r, FirstRepeat args r ∧
          e = .aliasedArgs p (cells.read r.cell).type r.first r.second) ∧
        ((∃ e, checkClosedOverUnaliased p cells consts args = .error e) ↔
          ∃ cell, RefersTo consts cell ∧ RefersTo args cell) ∧
        ∀ e, checkClosedOverUnaliased p cells consts args = .error e ↔
          ∃ cell leaf, FirstShared consts args cell leaf ∧
            e = .aliasedClosedOver p (cells.read cell).type leaf := by
  intro statics values lowered
  have hu := hs.inUse.2.afterAll uses
  have hvalues : split.values = values := by
    rw [split_values hsplit, Staged.statics, hu.resolved]
  have herror : ∀ e, lowered = .error e ↔ ∃ p r, f.provenance "jit" c statics none none = .ok p ∧
      FirstRepeat values r ∧
        e = .aliasedArgs (some p) (cells.read r.cell).type r.first r.second := by
    intro e
    have he := @lower_error_iff _ cells _ _ (hu.config ▸ hon) hsplit e
    rwa [hvalues, Staged.provenance, hu.callable, hu.resolved] at he
  refine ⟨⟨?_, ?_⟩, fun e => (herror e).mp, fun p cells args consts => ?_⟩
  · rintro ⟨p, type, i, j, he⟩
    obtain ⟨_, r, -, hr, -⟩ := (herror _).mp he
    exact hr.aliased
  · intro haliased
    obtain ⟨r, hr⟩ := exists_firstRepeat haliased
    obtain ⟨p, hp⟩ := exists_provenance hsplit
    rw [Staged.provenance, hu.callable, hu.resolved] at hp
    exact ⟨_, _, _, _, (herror _).mpr ⟨p, r, hp, hr, rfl⟩⟩
  · refine ⟨checkArgsUnaliased_ok_iff, fun e => checkArgsUnaliased_error_iff, ?_,
      fun e => checkClosedOverUnaliased_error_iff⟩
    simp only [checkClosedOverUnaliased_error_iff, ← exists_firstShared_iff]
    constructor
    · rintro ⟨_, cell, leaf, h, -⟩
      exact ⟨cell, leaf, h⟩
    · rintro ⟨cell, leaf, h⟩
      exact ⟨_, cell, leaf, h, rfl⟩

/-- One cell within two arguments, of shapes that have an entry. -/
theorem lower_refuses_aliases_cached :
    let f : Callable := .function (.echo 0)
    let roles : Roles := { staticArgnums := some (.int 0) }
    let config : Config := { mutableArrayChecks := true }
    let s : Staged := { callable := f, resolved := ⟨[], [], [0], []⟩, config }
    let call (a b : CellId) : Call :=
      ⟨[.int 1, .tuple [.ref a, .int 2]], .ofList [("x", .list [.ref b])]⟩
    let used := s.afterAll [.lower World.blank.cells (call 0 1)]
    s.Made f roles config ∧ config.mutableArrayChecks = true ∧ used.cacheSize = 1 ∧
      ∃ split, used.split (call 0 0) = .ok split ∧ Aliased split.values ∧
        ∃ p type i j, (used.lower World.blank.cells (call 0 0)).result =
          .error (.aliasedArgs p type i j) := by
  intro f roles config s call used
  have hs : s.Made f roles config := .of_resolve (by with_unfolding_all rfl)
  obtain ⟨split, hsplit⟩ := exists_ok (x := used.split (call 0 0)) rfl
  have haliased : Aliased split.values := by
    cases hsplit
    exact ⟨0, by decide⟩
  have hrefused := (lower_refuses_aliases hs rfl _ World.blank.cells (call 0 0) hsplit).1
  refine ⟨hs, rfl, rfl, split, hsplit, haliased, hrefused.mpr ?_⟩
  cases hsplit
  exact haliased

end Staged

end Staging
