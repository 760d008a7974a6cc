import Mathlib.Data.List.Nodup
import Staging.Proofs.ExactKeys

namespace Staging

namespace ResolutionCache

open Results

/-- The key that a request is looked up by, if it is. -/
def Request.key? : Request → Option ResolutionKey
  | .resolve _ signature roles => ResolutionKey.of? signature roles
  | .clear => none

/-- The key that a request uses if it has one and resolves, and what it resolves to. -/
def Request.use? : Request → Option (ResolutionKey × Resolved)
  | .resolve function signature roles => do
    let key ← ResolutionKey.of? signature roles
    let r ← (roles.resolve function signature).toOption
    return (key, r)
  | .clear => none

/-- The keys used since the cache was last cleared, each once and with its resolution, in the order
of their last uses. Here and below the past has its last request first, and the last use comes
first. -/
def recent : List Request → List (ResolutionKey × Resolved)
  | [] => []
  | .clear :: _ => []
  | request :: past =>
    match request.use? with
    | some u => u :: (recent past).filter (!·.1.same u.1)
    | none => recent past

/-- The lookups since the cache was last cleared, the last one first: whether the key was among
those last used before, as many as there is room for. -/
def lookups (capacity : Nat) : List Request → List Bool
  | [] => []
  | .clear :: _ => []
  | request :: past =>
    match request.key? with
    | some key => ((recent past).take capacity).any (·.1.same key) :: lookups capacity past
    | none => lookups capacity past

/-- The cache after requests made one after the other. -/
def afterAll (cache : ResolutionCache) (requests : List Request) : ResolutionCache :=
  requests.foldl (fun cache request => (cache.serve request).2) cache

/-- The entries, the one used last first. -/
def byRecency (cache : ResolutionCache) : List Held :=
  cache.entries.mergeSort fun d e => e.lastUsed ≤ d.lastUsed

end ResolutionCache

/-- What an entry answers. -/
def Held.use (e : Held) : ResolutionKey × Resolved := (e.key, e.resolved)

namespace ResolutionCache

section Lists

variable {α : Type}

/-- All but one of the items have another key. -/
theorem filter_others {key : α → ResolutionKey} {a b : List α} {x : α}
    (hd : ((a ++ x :: b).map key).Nodup) (he : ∀ y ∈ a ++ x :: b, (key y).Exact) :
    (a ++ x :: b).filter (fun y => !(key y).same (key x)) = a ++ b := by
  have hself : (key x).same (key x) = true := (he x (by simp) _).mpr rfl
  have hother : ∀ y ∈ a ++ b, (!(key y).same (key x)) = true := by
    intro y hy
    have hne : key y ≠ key x := by
      rw [List.map_append, List.map_cons, List.nodup_middle, List.nodup_cons,
        ← List.map_append] at hd
      intro h
      exact hd.1 (List.mem_map.mpr ⟨y, hy, h⟩)
    have hmem : y ∈ a ++ x :: b := by
      rcases List.mem_append.mp hy with hy | hy <;> simp [hy]
    rwa [Bool.not_eq_true', Bool.eq_false_iff, ne_eq, he y hmem]
  rw [List.forall_mem_append] at hother
  rw [List.filter_append, List.filter_cons, hself, List.filter_eq_self.mpr hother.1,
    List.filter_eq_self.mpr hother.2]
  rfl

/-- One of the first items moved to the front is one of the first items still. -/
theorem take_front {key : α → ResolutionKey} {xs a b : List α} {x : α} {n : Nat}
    (hd : (xs.map key).Nodup) (he : ∀ y ∈ xs, (key y).Exact) (h : xs.take n = a ++ x :: b) :
    (x :: xs.filter fun y => !(key y).same (key x)).take n = x :: (a ++ b) := by
  have hlen : (x :: (a ++ b)).length = min n xs.length := by
    rw [← List.length_take, h]
    simp [Nat.add_assoc]
  have hsplit : a ++ x :: (b ++ xs.drop n) = xs := by
    rw [← List.cons_append, ← List.append_assoc, ← h, List.take_append_drop]
  have hfilter := filter_others (hsplit.symm ▸ hd) (hsplit.symm ▸ he)
  rw [hsplit, ← List.append_assoc] at hfilter
  rw [hfilter, ← List.cons_append]
  by_cases hn : n ≤ xs.length
  · exact List.take_left' (by omega)
  · rw [List.drop_eq_nil_of_le (by omega), List.append_nil]
    exact List.take_of_length_le (by omega)

/-- Where the first items are kept, those left out further on do not matter. -/
theorem take_filter_of_all {xs : List α} {p : α → Bool} {n : Nat}
    (h : ∀ x ∈ xs.take n, p x = true) : (xs.filter p).take n = xs.take n := by
  conv_lhs => rw [← List.take_append_drop n xs, List.filter_append, List.filter_eq_self.mpr h]
  by_cases hn : n ≤ xs.length
  · exact List.take_left' (by simp [hn])
  · rw [List.drop_eq_nil_of_le (by omega), List.filter_nil, List.append_nil,
      List.take_of_length_le (List.length_take_le n xs)]

end Lists

section Recent

variable {past : List Request}

theorem Request.use?_some {request : Request} {u : ResolutionKey × Resolved}
    (h : request.use? = some u) : ∃ function signature roles,
      request = .resolve function signature roles ∧
      ResolutionKey.of? signature roles = some u.1 ∧
      roles.resolve function signature = .ok u.2 := by
  cases request with
  | clear => cases h
  | resolve function signature roles =>
    simp only [use?, Option.bind_eq_bind, Option.bind_eq_some_iff, Option.pure_def,
      Option.some.injEq] at h
    obtain ⟨key, hk, r, hr, rfl⟩ := h
    refine ⟨function, signature, roles, rfl, hk, ?_⟩
    cases hres : roles.resolve function signature with
    | error e => rw [hres] at hr; cases hr
    | ok s => rw [hres] at hr; cases hr; rfl

theorem Request.exact_of_use? {request : Request} {u : ResolutionKey × Resolved}
    (h : request.use? = some u) : u.1.Exact := by
  obtain ⟨_, _, _, -, hk, hr⟩ := use?_some h
  exact ResolutionKey.exact_of_resolve hk hr

/-- A request that uses a key moves it to the front. -/
theorem recent_of_use {request : Request} {u : ResolutionKey × Resolved}
    (h : request.use? = some u) (past : List Request) :
    recent (request :: past) = u :: (recent past).filter (!·.1.same u.1) := by
  cases request with
  | clear => cases h
  | resolve => simp only [recent, h]

theorem recent_of_unused {function : String} {signature : Option Signature} {roles : Roles}
    (h : Request.use? (.resolve function signature roles) = none) (past : List Request) :
    recent (.resolve function signature roles :: past) = recent past := by
  simp only [recent, h]

theorem mem_recent {u : ResolutionKey × Resolved} (h : u ∈ recent past) :
    ∃ asked ∈ past, Request.use? asked = some u := by
  induction past with
  | nil => cases h
  | cons request past ih =>
    have hpast : u ∈ recent past → ∃ asked ∈ request :: past, Request.use? asked = some u := by
      intro h
      obtain ⟨earlier, hmem, hu⟩ := ih h
      exact ⟨earlier, by simp [hmem], hu⟩
    cases request with
    | clear => cases h
    | resolve function signature roles =>
      cases hv : Request.use? (.resolve function signature roles) with
      | none =>
        rw [recent_of_unused hv] at h
        exact hpast h
      | some v =>
        rw [recent_of_use hv] at h
        rcases List.mem_cons.mp h with rfl | h
        · exact ⟨_, by simp, hv⟩
        · exact hpast (List.mem_filter.mp h).1

theorem exact_of_mem_recent {u : ResolutionKey × Resolved} (h : u ∈ recent past) : u.1.Exact := by
  obtain ⟨_, -, hu⟩ := mem_recent h
  exact Request.exact_of_use? hu

theorem recent_nodup (past : List Request) : ((recent past).map Prod.fst).Nodup := by
  induction past with
  | nil => exact List.nodup_nil
  | cons request past ih =>
    cases request with
    | clear => exact List.nodup_nil
    | resolve function signature roles =>
      cases hu : Request.use? (.resolve function signature roles) with
      | none => rwa [recent_of_unused hu]
      | some u =>
        rw [recent_of_use hu, List.map_cons, List.nodup_cons]
        refine ⟨?_, ih.sublist (List.filter_sublist.map _)⟩
        intro hmem
        obtain ⟨v, hv, hvu⟩ := List.mem_map.mp hmem
        obtain ⟨-, hne⟩ := List.mem_filter.mp hv
        rw [hvu, (Request.exact_of_use? hu _).mpr rfl] at hne
        cases hne

/-- A key that was used is held with what all roles of this key resolve to. -/
theorem resolve_of_mem_recent {u : ResolutionKey × Resolved} (h : u ∈ recent past)
    {function : String} {signature : Option Signature} {roles : Roles}
    (hk : ResolutionKey.of? signature roles = some u.1) :
    roles.resolve function signature = .ok u.2 := by
  obtain ⟨request, -, hu⟩ := mem_recent h
  obtain ⟨_, _, _, -, hk', hr⟩ := Request.use?_some hu
  obtain ⟨hsig, halike⟩ := ResolutionKey.same_of? hk' hk ((Request.exact_of_use? hu _).mpr rfl)
  exact halike.resolve_ok hsig hr

end Recent

section Frames

variable (cache : ResolutionCache) (key : ResolutionKey) (r : Resolved)

@[simp] theorem tick_capacity : cache.tick.capacity = cache.capacity := rfl

@[simp] theorem tick_hits : cache.tick.hits = cache.hits := rfl

/-- Making room and holding a resolution changes the entries and the clock only. -/
theorem insert_eq :
    ∃ entries clock, cache.insert key r = { cache with entries := entries, clock := clock } := by
  have hevict : ∃ entries, cache.evict = { cache with entries := entries } := by
    unfold evict
    split
    · exact ⟨_, rfl⟩
    · exact ⟨cache.entries, rfl⟩
  obtain ⟨entries, hentries⟩ := hevict
  unfold insert
  dsimp only
  split
  · rw [hentries]
    exact ⟨_, _, rfl⟩
  · exact ⟨_, _, rfl⟩

@[simp] theorem insert_capacity : (cache.insert key r).capacity = cache.capacity := by
  obtain ⟨_, _, h⟩ := cache.insert_eq key r
  rw [h]

@[simp] theorem insert_hits : (cache.insert key r).hits = cache.hits := by
  obtain ⟨_, _, h⟩ := cache.insert_eq key r
  rw [h]

@[simp] theorem insert_misses : (cache.insert key r).misses = cache.misses := by
  obtain ⟨_, _, h⟩ := cache.insert_eq key r
  rw [h]

end Frames

/-- The entries of a cache in an order in which each was used later than the next. -/
structure Ordered (cache : ResolutionCache) (held : List Held) : Prop where
  perm : held.Perm cache.entries
  later : held.Pairwise fun d e => e.lastUsed < d.lastUsed
  used : ∀ e ∈ held, e.lastUsed ≤ cache.clock
  exact : ∀ e ∈ held, e.key.Exact
  distinct : (held.map Held.key).Nodup

namespace Ordered

variable {cache : ResolutionCache} {held a b : List Held} {x : Held} {key : ResolutionKey}
  {r : Resolved}

theorem empty (capacity : Nat) : Ordered { capacity } [] :=
  ⟨.nil, .nil, by simp, by simp, .nil⟩

theorem byRecency_eq (h : Ordered cache held) : cache.byRecency = held := by
  have hperm : cache.byRecency.Perm held := (List.mergeSort_perm _ _).trans h.perm.symm
  have hsorted : cache.byRecency.Pairwise fun d e => e.lastUsed ≤ d.lastUsed := by
    have hsorted := @List.pairwise_mergeSort _ (fun d e : Held => e.lastUsed ≤ d.lastUsed)
      (by simp; omega) (by simp; omega) cache.entries
    simpa [byRecency] using hsorted
  have hnodup : (held.map Held.lastUsed).Nodup :=
    List.pairwise_map.mpr (h.later.imp fun hlt => (Nat.ne_of_lt hlt).symm)
  refine hperm.eq_of_pairwise ?_ hsorted (h.later.imp Nat.le_of_lt)
  intro d e hd he hde hed
  exact List.inj_on_of_nodup_map hnodup (hperm.mem_iff.mp hd) he (Nat.le_antisymm hed hde)

theorem length_eq (h : Ordered cache held) : held.length = cache.size := h.perm.length_eq

/-- A lookup that misses moves the clock on. -/
theorem miss (h : Ordered cache held) (misses : Nat) :
    Ordered { cache.tick with misses := misses } held :=
  ⟨h.perm, h.later, fun e he => Nat.le_succ_of_le (h.used e he), h.exact, h.distinct⟩

/-- A key is found exactly if an entry has it. -/
theorem find?_eq_none_iff (h : Ordered cache held) :
    cache.find? key = none ↔ ∀ e ∈ held, e.key ≠ key := by
  rw [find?, List.find?_eq_none]
  refine forall_congr' fun e => ?_
  rw [← h.perm.mem_iff]
  exact forall_congr' fun he => not_congr (h.exact e he key)

theorem find?_some {entry : Held} (h : Ordered cache held) (hf : cache.find? key = some entry) :
    entry ∈ held ∧ entry.key = key := by
  have hentry := h.perm.mem_iff.mpr (List.mem_of_find?_eq_some hf)
  have hsame : entry.key.same key = true := by simpa using List.find?_some hf
  exact ⟨hentry, (h.exact entry hentry key).mp hsame⟩

/-- Used now, an entry comes first. -/
theorem touch (h : Ordered cache (a ++ x :: b)) :
    Ordered (cache.tick.touch x.key) ({ x with lastUsed := cache.clock + 1 } :: (a ++ b)) := by
  have hsub : (a ++ b).Sublist (a ++ x :: b) := (List.sublist_cons_self x b).append_left a
  have hkeys := h.distinct
  rw [List.map_append, List.map_cons, List.nodup_middle, ← List.map_append] at hkeys
  constructor
  · let now (e : Held) : Held :=
      if e.key.same x.key then { e with lastUsed := cache.clock + 1 } else e
    have hx : now x = { x with lastUsed := cache.clock + 1 } :=
      if_pos ((h.exact x (by simp) _).mpr rfl)
    have hothers : (a ++ b).map now = a ++ b := by
      refine (List.map_congr_left fun e he => ?_).trans (List.map_id _)
      refine if_neg fun hsame => (List.nodup_cons.mp hkeys).1 ?_
      rw [← (h.exact e (hsub.subset he) _).mp hsame]
      exact List.mem_map_of_mem he
    have hperm : ((a ++ x :: b).map now).Perm (cache.entries.map now) := h.perm.map now
    have hmoved : (now x :: (a ++ b).map now).Perm ((a ++ x :: b).map now) :=
      (List.perm_middle.symm).map now
    rw [hothers, hx] at hmoved
    exact hmoved.trans hperm
  · refine List.pairwise_cons.mpr ⟨?_, h.later.sublist hsub⟩
    intro e he
    have := h.used e (hsub.subset he)
    exact Nat.lt_succ_of_le this
  · intro e he
    rcases List.mem_cons.mp he with rfl | he
    · exact Nat.le_refl _
    · exact Nat.le_succ_of_le (h.used e (hsub.subset he))
  · intro e he
    rcases List.mem_cons.mp he with rfl | he
    · exact h.exact x (by simp)
    · exact h.exact e (hsub.subset he)
  · exact hkeys

/-- The entry last in order is the one that was not used for longest. -/
theorem oldest (h : Ordered cache (a ++ [x])) : cache.entries.minOn? (·.lastUsed) = some x := by
  have hx : x ∈ cache.entries := h.perm.mem_iff.mp (by simp)
  have hne : cache.entries ≠ [] := List.ne_nil_of_mem hx
  have hmin := List.minOn?_eq_some_minOn (f := Held.lastUsed) hne
  have hle : (cache.entries.minOn Held.lastUsed hne).lastUsed ≤ x.lastUsed :=
    List.apply_minOn_le_of_mem hx
  rw [hmin]
  rcases List.mem_append.mp (h.perm.mem_iff.mpr (List.minOn?_mem hmin)) with ha | hx'
  · have := (List.pairwise_append.mp h.later).2.2 _ ha x (by simp)
    omega
  · rw [List.mem_singleton.mp hx']

theorem evict (h : Ordered cache (a ++ [x])) : Ordered cache.evict a := by
  have hentries : cache.evict =
      { cache with entries := cache.entries.filter (!·.key.same x.key) } := by
    rw [ResolutionCache.evict, h.oldest]
  have hsub : a.Sublist (a ++ [x]) := List.sublist_append_left a [x]
  rw [hentries]
  refine ⟨?_, h.later.sublist hsub, fun e he => h.used e (hsub.subset he),
    fun e he => h.exact e (hsub.subset he), h.distinct.sublist (hsub.map _)⟩
  have hperm := h.perm.filter (!·.key.same x.key)
  rwa [filter_others h.distinct h.exact, List.append_nil] at hperm

/-- A resolution under a new key comes first. -/
theorem put (h : Ordered cache held) (hkey : key.Exact) (hnew : ∀ e ∈ held, e.key ≠ key) :
    Ordered (cache.tick.put key r) (⟨key, r, cache.clock + 1⟩ :: held) := by
  constructor
  · have hothers : cache.entries.filter (!·.key.same key) = cache.entries := by
      rw [List.filter_eq_self]
      intro e he
      have he := h.perm.mem_iff.mpr he
      rw [Bool.not_eq_true', Bool.eq_false_iff, ne_eq, h.exact e he]
      exact hnew e he
    change (_ :: held).Perm (_ :: cache.entries.filter (!·.key.same key))
    rw [hothers]
    exact h.perm.cons _
  · refine List.pairwise_cons.mpr ⟨?_, h.later⟩
    intro e he
    exact Nat.lt_succ_of_le (h.used e he)
  · intro e he
    rcases List.mem_cons.mp he with rfl | he
    · exact Nat.le_refl _
    · exact Nat.le_succ_of_le (h.used e he)
  · intro e he
    rcases List.mem_cons.mp he with rfl | he
    · exact hkey
    · exact h.exact e he
  · refine List.nodup_cons.mpr ⟨?_, h.distinct⟩
    intro hmem
    obtain ⟨e, he, hek⟩ := List.mem_map.mp hmem
    exact hnew e he hek

/-- Where there is no room for a new key, the last entry in order goes. -/
theorem insert (h : Ordered cache held) (hc : 0 < cache.capacity) (hkey : key.Exact)
    (hnew : ∀ e ∈ held, e.key ≠ key) (hsize : held.length ≤ cache.capacity) :
    ∃ now, Ordered (cache.insert key r) (⟨key, r, now⟩ :: held.take (cache.capacity - 1)) := by
  have hcontains : cache.contains key = false := by
    rw [contains, h.find?_eq_none_iff.mpr hnew]
    rfl
  rw [ResolutionCache.insert, hcontains, ← h.length_eq]
  by_cases hfull : cache.capacity ≤ held.length
  · obtain ⟨a, x, rfl⟩ : ∃ a x, held = a ++ [x] := by
      refine (List.eq_nil_or_concat' held).resolve_left ?_
      rintro rfl
      exact absurd hfull (by simpa using Nat.ne_of_gt hc)
    have htake : (a ++ [x]).take (cache.capacity - 1) = a := by
      rw [List.length_append, List.length_singleton] at hfull hsize
      exact List.take_left' (by omega)
    rw [htake]
    simp only [hfull, decide_true, Bool.not_false, Bool.and_self, ↓reduceIte]
    exact ⟨_, h.evict.put hkey fun e he => hnew e (by simp [he])⟩
  · rw [List.take_of_length_le (by omega)]
    simp only [hfull, decide_false, Bool.false_and, Bool.false_eq_true, ↓reduceIte]
    exact ⟨_, h.put hkey hnew⟩

theorem any_eq (h : Ordered cache held) (key : ResolutionKey) :
    held.any (·.key.same key) = (cache.find? key).isSome := by
  rw [h.perm.any_eq, find?, Bool.eq_iff_iff, List.find?_isSome, List.any_eq_true]

end Ordered

/-- What a cache holds and has counted after requests, the last one first. -/
structure Tracks (cache : ResolutionCache) (past : List Request) : Prop where
  held : ∃ held, Ordered cache held ∧ held.map Held.use = (recent past).take cache.capacity
  hits : cache.hits = (lookups cache.capacity past).count true
  misses : cache.misses = (lookups cache.capacity past).count false

namespace Tracks

variable {cache cache' : ResolutionCache} {past : List Request} {function : String}
  {signature : Option Signature} {roles : Roles} {key : ResolutionKey}

theorem start (capacity : Nat) : Tracks { capacity } [] :=
  ⟨⟨[], .empty capacity, by simp [recent]⟩, rfl, rfl⟩

theorem clear (cache : ResolutionCache) (past : List Request) :
    Tracks cache.clear (.clear :: past) :=
  ⟨⟨[], .empty cache.capacity, by simp [recent]⟩, rfl, rfl⟩

/-- A lookup finds its key exactly if it was among those last used. -/
theorem lookups_cons (h : Tracks cache past) (function : String)
    (hk : ResolutionKey.of? signature roles = some key) :
    lookups cache.capacity (.resolve function signature roles :: past) =
      (cache.find? key).isSome :: lookups cache.capacity past := by
  obtain ⟨held, hordered, hheld⟩ := h.held
  have hany : ((recent past).take cache.capacity).any (·.1.same key) =
      held.any (·.key.same key) := by
    rw [← hheld, List.any_map]
    rfl
  simp only [lookups, Request.key?, hk, hany, hordered.any_eq]

/-- An entry that is found is of a key that was used. -/
theorem found {entry : Held} (h : Tracks cache past) (hf : cache.find? key = some entry) :
    entry.key = key ∧ entry.use ∈ recent past := by
  obtain ⟨held, hordered, hheld⟩ := h.held
  obtain ⟨hentry, hkey⟩ := hordered.find?_some hf
  refine ⟨hkey, List.mem_of_mem_take (i := cache.capacity) ?_⟩
  rw [← hheld]
  exact List.mem_map_of_mem hentry

/-- An entry that is used now moves to the front. -/
theorem hit {entry : Held} (h : Tracks cache past)
    (hk : ResolutionKey.of? signature roles = some key) (hf : cache.find? key = some entry) :
    Tracks (cache.tick.touch key) (.resolve function signature roles :: past) := by
  have hlookups := h.lookups_cons function hk
  rw [hf, Option.isSome_some] at hlookups
  obtain ⟨rfl, hrecent⟩ := h.found hf
  refine ⟨?_, ?_, ?_⟩
  · obtain ⟨held, hordered, hheld⟩ := h.held
    obtain ⟨a, b, rfl⟩ := List.append_of_mem (hordered.find?_some hf).1
    rw [List.map_append, List.map_cons] at hheld
    have huse : Request.use? (.resolve function signature roles) = some entry.use := by
      simp [Request.use?, hk, resolve_of_mem_recent hrecent hk, Except.toOption, Held.use]
    have hfront := take_front (recent_nodup past) (fun _ => exact_of_mem_recent) hheld.symm
    refine ⟨_, hordered.touch, ?_⟩
    rw [recent_of_use huse, List.map_cons, List.map_append]
    exact hfront.symm
  · change cache.hits + 1 = (lookups cache.capacity _).count true
    rw [hlookups, List.count_cons_self, h.hits]
  · change cache.misses = (lookups cache.capacity _).count false
    rw [hlookups, List.count_cons_of_ne (by simp), h.misses]

/-- A lookup that does not find its key is counted as a miss. -/
theorem misses_cons (h : Tracks cache past) (function : String)
    (hk : ResolutionKey.of? signature roles = some key) (hf : cache.find? key = none) :
    cache.hits = (lookups cache.capacity (.resolve function signature roles :: past)).count true ∧
      cache.misses + 1 =
        (lookups cache.capacity (.resolve function signature roles :: past)).count false := by
  rw [h.lookups_cons function hk, hf, Option.isSome_none, List.count_cons_self,
    List.count_cons_of_ne (by simp), h.hits, h.misses]
  exact ⟨rfl, rfl⟩

/-- A key that was not found comes before those last used, which make room for it. -/
theorem stored {r : Resolved} (h : Tracks cache past) (hc : 0 < cache.capacity)
    (hk : ResolutionKey.of? signature roles = some key) (hf : cache.find? key = none)
    (hr : roles.resolve function signature = .ok r) :
    Tracks ({ cache.tick with misses := cache.misses + 1 }.insert key r)
      (.resolve function signature roles :: past) := by
  obtain ⟨hhits, hmisses⟩ := h.misses_cons function hk hf
  refine ⟨?_, by simpa using hhits, by simpa using hmisses⟩
  obtain ⟨held, hordered, hheld⟩ := h.held
  have hnew := hordered.find?_eq_none_iff.mp hf
  have hsize : held.length ≤ cache.capacity := by
    rw [← List.length_map Held.use, hheld]
    exact List.length_take_le _ _
  obtain ⟨now, hinsert⟩ := (hordered.miss (cache.misses + 1)).insert hc
    (ResolutionKey.exact_of_resolve hk hr) hnew hsize
  refine ⟨_, hinsert, ?_⟩
  have huse : Request.use? (.resolve function signature roles) = some (key, r) := by
    simp [Request.use?, hk, hr, Except.toOption]
  have hothers : ∀ u ∈ (recent past).take (cache.capacity - 1), (!u.1.same key) = true := by
    intro u hu
    have hu : u ∈ held.map Held.use := by
      rw [hheld]
      exact List.take_subset_take_left _ (Nat.sub_le _ _) hu
    obtain ⟨e, he, rfl⟩ := List.mem_map.mp hu
    rw [Bool.not_eq_true', Bool.eq_false_iff, ne_eq]
    exact fun hsame => hnew e he ((hordered.exact e he key).mp hsame)
  rw [recent_of_use huse, insert_capacity, tick_capacity, List.map_cons, List.map_take, hheld,
    List.take_take, Nat.min_eq_left (Nat.sub_le _ _), List.take_cons hc,
    take_filter_of_all hothers]
  rfl

/-- A failure is counted and changes nothing else. -/
theorem failed {e : Error} (h : Tracks cache past)
    (hk : ResolutionKey.of? signature roles = some key) (hf : cache.find? key = none)
    (hr : roles.resolve function signature = .error e) :
    Tracks { cache.tick with misses := cache.misses + 1 }
      (.resolve function signature roles :: past) := by
  obtain ⟨hhits, hmisses⟩ := h.misses_cons function hk hf
  refine ⟨?_, hhits, hmisses⟩
  obtain ⟨held, hordered, hheld⟩ := h.held
  have huse : Request.use? (.resolve function signature roles) = none := by
    simp [Request.use?, hk, hr, Except.toOption]
  refine ⟨held, hordered.miss _, ?_⟩
  rw [recent_of_unused huse]
  exact hheld

/-- Roles without a hash pass the cache by. -/
theorem unhashed (h : Tracks cache past) (hk : ResolutionKey.of? signature roles = none) :
    Tracks cache (.resolve function signature roles :: past) := by
  have huse : Request.use? (.resolve function signature roles) = none := by
    simp [Request.use?, hk]
  have hlookups : lookups cache.capacity (.resolve function signature roles :: past) =
      lookups cache.capacity past := by
    simp only [lookups, Request.key?, hk]
  refine ⟨?_, hlookups ▸ h.hits, hlookups ▸ h.misses⟩
  rw [recent_of_unused huse]
  exact h.held

theorem resolves {answer : Except Error Resolved} (h : Tracks cache past)
    (hc : 0 < cache.capacity) (hs : cache.Resolves function signature roles answer cache') :
    Tracks cache' (.resolve function signature roles :: past) ∧
      cache'.capacity = cache.capacity := by
  cases hs with
  | bypass hk => exact ⟨h.unhashed (hk.resolve_right (Nat.ne_of_gt hc)), rfl⟩
  | hit hk _ hf => exact ⟨h.hit hk hf, rfl⟩
  | stored hk _ hf hr => exact ⟨h.stored hc hk hf hr, by simp⟩
  | failed hk _ hf hr => exact ⟨h.failed hk hf hr, rfl⟩

theorem serve (h : Tracks cache past) (hc : 0 < cache.capacity) (request : Request) :
    Tracks (cache.serve request).2 (request :: past) ∧
      (cache.serve request).2.capacity = cache.capacity := by
  cases request with
  | clear => exact ⟨.clear cache past, rfl⟩
  | resolve function signature roles => exact h.resolves hc (cache.resolves function signature roles)

theorem afterAll (h : Tracks cache past) (hc : 0 < cache.capacity) (requests : List Request) :
    Tracks (cache.afterAll requests) (requests.reverse ++ past) ∧
      (cache.afterAll requests).capacity = cache.capacity := by
  induction requests generalizing cache past with
  | nil => exact ⟨h, rfl⟩
  | cons request requests ih =>
    obtain ⟨hserve, hcapacity⟩ := h.serve hc request
    rw [List.reverse_cons, List.append_assoc, ← hcapacity]
    exact ih hserve (hcapacity ▸ hc)

theorem byRecency_eq (h : Tracks cache past) :
    cache.byRecency.map Held.use = (recent past).take cache.capacity := by
  obtain ⟨held, hordered, hheld⟩ := h.held
  rw [hordered.byRecency_eq, hheld]

theorem size_le (h : Tracks cache past) : cache.size ≤ cache.capacity := by
  obtain ⟨held, hordered, hheld⟩ := h.held
  rw [← hordered.length_eq, ← List.length_map Held.use, hheld]
  exact List.length_take_le _ _

/-- Roles that do not resolve are never found, so that their failure leaves the entries alone. -/
theorem entries_of_error {answer : Except Error Resolved} {e : Error} (h : Tracks cache past)
    (hr : roles.resolve function signature = .error e)
    (hs : cache.Resolves function signature roles answer cache') :
    cache'.entries = cache.entries := by
  cases hs with
  | bypass => rfl
  | stored _ _ _ hok => rw [hr] at hok; cases hok
  | failed => rfl
  | hit hk _ hf =>
    obtain ⟨rfl, hrecent⟩ := h.found hf
    rw [resolve_of_mem_recent hrecent hk] at hr
    cases hr

end Tracks

/-- After any requests, a cache holds exactly the keys last used since it was cleared, as many as
it has room for, each with what its roles resolve to; every lookup since was a hit exactly if its
key was held. Keys are told apart as they should, failures leave all entries as they are, and
roles that have no hash leave the whole cache as it is. -/
theorem holds_recent (capacity : Nat) (hc : 0 < capacity) (requests : List Request) :
    let cache := afterAll { capacity } requests
    let past := requests.reverse
    cache.byRecency.map Held.use = (recent past).take capacity ∧
      cache.size ≤ capacity ∧
      cache.hits = (lookups capacity past).count true ∧
      cache.misses = (lookups capacity past).count false ∧
      ((recent past).map Prod.fst).Nodup ∧
      (∀ u ∈ recent past, u.1.Exact ∧ ∀ function signature roles,
        ResolutionKey.of? signature roles = some u.1 →
          Roles.resolve function signature roles = .ok u.2) ∧
      ∀ function signature roles,
        (∀ e, Roles.resolve function signature roles = .error e →
          (cache.resolve function signature roles).state.entries = cache.entries) ∧
        (ResolutionKey.of? signature roles = none →
          (cache.resolve function signature roles).state = cache) := by
  intro cache past
  obtain ⟨htracks, hcapacity⟩ := (Tracks.start capacity).afterAll hc requests
  rw [List.append_nil] at htracks
  change Tracks cache past at htracks
  change cache.capacity = capacity at hcapacity
  refine ⟨hcapacity ▸ htracks.byRecency_eq, hcapacity ▸ htracks.size_le,
    hcapacity ▸ htracks.hits, hcapacity ▸ htracks.misses, recent_nodup past, ?_, ?_⟩
  · intro u hu
    exact ⟨exact_of_mem_recent hu, fun _ _ _ => resolve_of_mem_recent hu⟩
  · intro function signature roles
    refine ⟨?_, ?_⟩
    · intro e hr
      exact htracks.entries_of_error hr (cache.resolves function signature roles)
    · intro hk
      simp [resolve, hk]

/-- Room for two keys: of three, the one that was not used again goes. -/
theorem holds_recent_evicted :
    let ask (i : Int64) : Request := .resolve "f" none { staticArgnums := some (.int i) }
    let cache := afterAll { capacity := 2 } [ask 0, ask 1, ask 0, ask 2, ask 1]
    0 < 2 ∧ (cache.byRecency.map fun e => e.resolved.staticArgnums) = [[1], [2]] ∧
      cache.hits = 1 ∧ cache.misses = 4 := by
  intro ask cache
  obtain ⟨hheld, -, hhits, hmisses, -⟩ :=
    holds_recent 2 (by decide) [ask 0, ask 1, ask 0, ask 2, ask 1]
  refine ⟨by decide, ?_, hhits.trans rfl, hmisses.trans rfl⟩
  have hstatic := congrArg (List.map fun u => u.2.staticArgnums) hheld
  rw [List.map_map] at hstatic
  exact hstatic.trans rfl

end ResolutionCache

end Staging
