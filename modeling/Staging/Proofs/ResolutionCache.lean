import Staging.Proofs.Resolution
import Staging.Roles.ResolutionCache

namespace Staging

namespace ResolutionKey

theorem boxRole?_some {given : Option Value} {box : Option Boxed}
    (h : boxRole? given = some box) : given = box.map Boxed.value := by
  cases given with
  | none => cases h; rfl
  | some v =>
    simp only [boxRole?, Boxed.of?, Option.map_eq_some_iff] at h
    obtain ⟨b, hb, rfl⟩ := h
    split at hb
    · cases hb; rfl
    · cases hb

/-- What a key was made from can be read off it, but for the defaults of the parameters. -/
theorem of?_some {signature : Option Signature} {roles : Roles} {key : ResolutionKey}
    (h : of? signature roles = some key) :
    key.signature = signature.map (·.kinds) ∧ ∃ donateArgnums donateArgnames staticArgnums
      staticArgnames, key.roles = [donateArgnums, donateArgnames, staticArgnums, staticArgnames] ∧
      roles = ⟨donateArgnums.map Boxed.value, donateArgnames.map Boxed.value,
        staticArgnums.map Boxed.value, staticArgnames.map Boxed.value⟩ := by
  simp only [of?, List.mapM_cons, List.mapM_nil, Option.bind_eq_bind, Option.pure_def,
    Option.bind_eq_some_iff, Option.some.injEq] at h
  obtain ⟨_, ⟨da, hda, _, ⟨dn, hdn, _, ⟨sa, hsa, _, ⟨sn, hsn, _, rfl, rfl⟩, rfl⟩, rfl⟩, rfl⟩,
    rfl⟩ := h
  refine ⟨rfl, da, dn, sa, sn, rfl, ?_⟩
  rw [← boxRole?_some hda, ← boxRole?_some hdn, ← boxRole?_some hsa, ← boxRole?_some hsn]

theorem alike_of_sameRole {a b : Option Boxed} (h : sameRole a b = true) :
    Option.Rel Value.Alike (a.map Boxed.value) (b.map Boxed.value) := by
  cases a <;> cases b <;> simp only [sameRole, Bool.false_eq_true] at h
  · exact .none
  · exact .some (Boxed.alike_of_equal h)

/-- Keys that are the same come from the same names and kinds and from roles that are alike. -/
theorem same_of? {signature signature' : Option Signature} {roles roles' : Roles}
    {key key' : ResolutionKey} (h : of? signature roles = some key)
    (h' : of? signature' roles' = some key') (hs : key.same key' = true) :
    signature.map (·.kinds) = signature'.map (·.kinds) ∧ roles.Alike roles' := by
  obtain ⟨hsig, da, dn, sa, sn, hroles, rfl⟩ := of?_some h
  obtain ⟨hsig', da', dn', sa', sn', hroles', rfl⟩ := of?_some h'
  simp only [same, hroles, hroles', List.isEqv, Bool.and_eq_true, beq_iff_eq, Bool.and_true] at hs
  obtain ⟨hkinds, hda, hdn, hsa, hsn⟩ := hs
  exact ⟨hsig.symm.trans (hkinds.trans hsig'), alike_of_sameRole hda, alike_of_sameRole hdn,
    alike_of_sameRole hsa, alike_of_sameRole hsn⟩

end ResolutionKey

theorem Roles.resolveReporting_fst (function : String) (signature : Option Signature)
    (roles : Roles) :
    (roles.resolveReporting function signature).1 = roles.resolve function signature := by
  unfold resolveReporting
  cases roles.resolve function signature <;> rfl

namespace ResolutionCache

/-- All that resolving through a cache can come to: an answer and the cache left behind. -/
inductive Resolves (cache : ResolutionCache) (function : String) (signature : Option Signature)
    (roles : Roles) : Except Error Resolved → ResolutionCache → Prop where
  | bypass (h : ResolutionKey.of? signature roles = none ∨ cache.capacity = 0) :
    Resolves cache function signature roles (roles.resolve function signature) cache
  | hit {key : ResolutionKey} {entry : Held}
    (hk : ResolutionKey.of? signature roles = some key) (hc : 0 < cache.capacity)
    (hf : cache.find? key = some entry) :
    Resolves cache function signature roles (.ok entry.resolved) (cache.tick.touch key)
  | stored {key : ResolutionKey} {r : Resolved}
    (hk : ResolutionKey.of? signature roles = some key) (hc : 0 < cache.capacity)
    (hf : cache.find? key = none) (hr : roles.resolve function signature = .ok r) :
    Resolves cache function signature roles (.ok r)
      ({ cache.tick with misses := cache.misses + 1 }.insert key r)
  | failed {key : ResolutionKey} {e : Error}
    (hk : ResolutionKey.of? signature roles = some key) (hc : 0 < cache.capacity)
    (hf : cache.find? key = none) (hr : roles.resolve function signature = .error e) :
    Resolves cache function signature roles (.error e)
      { cache.tick with misses := cache.misses + 1 }

theorem resolves (cache : ResolutionCache) (function : String) (signature : Option Signature)
    (roles : Roles) :
    cache.Resolves function signature roles (cache.resolve function signature roles).result
      (cache.resolve function signature roles).state := by
  unfold resolve
  split
  · rename_i hk
    change Resolves _ _ _ _ (roles.resolveReporting function signature).1 cache
    rw [Roles.resolveReporting_fst]
    refine .bypass ?_
    cases h : ResolutionKey.of? signature roles with
    | none => exact .inl rfl
    | some key => simpa [h] using hk
  · rename_i key hk
    obtain ⟨hk, hc⟩ : ResolutionKey.of? signature roles = some key ∧ 0 < cache.capacity := by
      simpa [Option.filter_eq_some_iff] using hk
    dsimp only
    split
    · rename_i entry hf
      exact .hit hk hc hf
    · rename_i hf
      have hr := Roles.resolveReporting_fst function signature roles
      split <;> rename_i hrep <;> rw [hrep] at hr
      · exact .stored hk hc hf hr.symm
      · exact .failed hk hc hf hr.symm

/-- Every entry holds what some roles of its key resolve to. -/
def Faithful (cache : ResolutionCache) : Prop :=
  ∀ e ∈ cache.entries, ∃ function signature roles,
    ResolutionKey.of? signature roles = some e.key ∧
      Roles.resolve function signature roles = .ok e.resolved

namespace Faithful

variable {cache cache' : ResolutionCache} {function : String} {signature : Option Signature}
  {roles : Roles}

theorem empty (capacity : Nat) : Faithful { capacity } := by
  intro e he
  cases he

theorem clear (cache : ResolutionCache) : Faithful cache.clear := empty cache.capacity

/-- An entry that is found holds the answer for every function and all roles with its key. -/
theorem of_find? {key : ResolutionKey} {entry : Held} (h : Faithful cache)
    (hk : ResolutionKey.of? signature roles = some key) (hf : cache.find? key = some entry) :
    roles.resolve function signature = .ok entry.resolved := by
  obtain ⟨_, signature', roles', hk', hr⟩ := h entry (List.mem_of_find?_eq_some hf)
  have hsame : entry.key.same key = true := by simpa using List.find?_some hf
  obtain ⟨hsig, halike⟩ := ResolutionKey.same_of? hk' hk hsame
  exact halike.resolve_ok hsig hr

theorem tick (h : Faithful cache) : Faithful cache.tick := h

theorem touch (h : Faithful cache) (key : ResolutionKey) : Faithful (cache.touch key) := by
  intro e he
  obtain ⟨d, hd, rfl⟩ := List.mem_map.mp he
  split <;> exact h d hd

theorem evict (h : Faithful cache) : Faithful cache.evict := by
  unfold ResolutionCache.evict
  split
  · intro e he
    exact h e (List.mem_filter.mp he).1
  · exact h

theorem put {key : ResolutionKey} {r : Resolved} (h : Faithful cache)
    (hk : ResolutionKey.of? signature roles = some key)
    (hr : roles.resolve function signature = .ok r) : Faithful (cache.put key r) := by
  intro e he
  rcases List.mem_cons.mp he with rfl | he
  · exact ⟨function, signature, roles, hk, hr⟩
  · exact h e (List.mem_filter.mp he).1

theorem insert {key : ResolutionKey} {r : Resolved} (h : Faithful cache)
    (hk : ResolutionKey.of? signature roles = some key)
    (hr : roles.resolve function signature = .ok r) : Faithful (cache.insert key r) := by
  unfold ResolutionCache.insert
  refine put ?_ hk hr
  split
  · exact h.evict
  · exact h

/-- A faithful cache answers as resolving without it does, and stays faithful. -/
theorem resolves {answer : Except Error Resolved} (h : Faithful cache)
    (hs : cache.Resolves function signature roles answer cache') :
    answer = roles.resolve function signature ∧ Faithful cache' := by
  cases hs with
  | bypass => exact ⟨rfl, h⟩
  | @hit key entry hk _ hf => exact ⟨(h.of_find? hk hf).symm, h.tick.touch key⟩
  | stored hk _ _ hr => exact ⟨hr.symm, insert h hk hr⟩
  | failed _ _ _ hr => exact ⟨hr.symm, h⟩

end Faithful

/-- What can be asked of a cache. -/
inductive Request where
  | resolve (function : String) (signature : Option Signature) (roles : Roles)
  | clear

/-- The answer without a cache; there is none to clearing. -/
def Request.answer? : Request → Option (Except Error Resolved)
  | .resolve function signature roles => some (roles.resolve function signature)
  | .clear => none

def serve (cache : ResolutionCache) :
    Request → Option (Except Error Resolved) × ResolutionCache
  | .resolve function signature roles =>
    let o := cache.resolve function signature roles
    (some o.result, o.state)
  | .clear => (none, cache.clear)

/-- The answers to requests made one after the other. -/
def serveAll (cache : ResolutionCache) : List Request → List (Option (Except Error Resolved))
  | [] => []
  | request :: requests =>
    let (answer, after) := cache.serve request
    answer :: after.serveAll requests

theorem Faithful.serve {cache : ResolutionCache} (h : Faithful cache) (request : Request) :
    (cache.serve request).1 = request.answer? ∧ Faithful (cache.serve request).2 := by
  cases request with
  | resolve function signature roles =>
    obtain ⟨hanswer, hafter⟩ := h.resolves (cache.resolves function signature roles)
    exact ⟨congrArg some hanswer, hafter⟩
  | clear => exact ⟨rfl, .clear cache⟩

theorem Faithful.serveAll {cache : ResolutionCache} (h : Faithful cache)
    (requests : List Request) : cache.serveAll requests = requests.map Request.answer? := by
  induction requests generalizing cache with
  | nil => rfl
  | cons request requests ih =>
    obtain ⟨hanswer, hafter⟩ := h.serve request
    change (cache.serve request).1 :: (cache.serve request).2.serveAll requests = _
    rw [List.map_cons, hanswer, ih hafter]

/-- A cache that starts out empty never changes an answer, whatever its capacity. -/
theorem serveAll_eq_answers (capacity : Nat) (requests : List Request) :
    serveAll { capacity } requests = requests.map Request.answer? :=
  (Faithful.empty capacity).serveAll requests

end ResolutionCache

end Staging
