import Staging.Proofs.ResolutionCache
import Staging.Proofs.Splitting
import Staging.Staged

namespace Staging

open Results

namespace Staged

/-- All that lowering a call can come to. Only what is compiled changes the staged function. -/
inductive Lowers (s : Staged) (cells : Cells) (c : Call) :
    Outcome Staged (Except Error Lowered) → Prop where
  | unsplit {e : Error} (hs : s.split c = .error e) : Lowers s cells c ⟨.error e, s, []⟩
  | aliased {split : SplitCall} {e : Error} (hs : s.split c = .ok split)
    (hu : s.checkUnaliased cells c split.values = .error e) : Lowers s cells c ⟨.error e, s, []⟩
  | hit {split : SplitCall} {key : EntryKey} {entry : Entry} (hs : s.split c = .ok split)
    (hu : s.checkUnaliased cells c split.values = .ok ()) (hk : split.key? cells = some key)
    (hf : s.find? key = some entry) :
    Lowers s cells c ⟨.ok ⟨entry, split.dynamic⟩, s, [.entryHit s.name]⟩
  | uncompiled {split : SplitCall} {e : Error} (hs : s.split c = .ok split)
    (hu : s.checkUnaliased cells c split.values = .ok ())
    (hn : (split.key? cells).bind s.find? = none) (hc : s.compile c split = .error e) :
    Lowers s cells c ⟨.error e, s, []⟩
  | compiled {split : SplitCall} {entry : Entry} (hs : s.split c = .ok split)
    (hu : s.checkUnaliased cells c split.values = .ok ())
    (hn : (split.key? cells).bind s.find? = none) (hc : s.compile c split = .ok entry) :
    Lowers s cells c ⟨.ok ⟨entry, split.dynamic⟩, s.hold (split.key? cells) entry,
      [.compiling s.name entry.provenance.argNames (entry.donated.count true)]⟩

theorem lowers (s : Staged) (cells : Cells) (c : Call) : s.Lowers cells c (s.lower cells c) := by
  unfold lower
  split
  · rename_i hs
    exact .unsplit hs
  · rename_i split hs
    split
    · rename_i hu
      exact .aliased hs hu
    · rename_i hu
      simp only [fetch]
      split
      · rename_i entry hfind
        obtain ⟨key, hk, hf⟩ := Option.bind_eq_some_iff.mp hfind
        exact .hit hs hu hk hf
      · rename_i hn
        split
        · rename_i hc
          exact .uncompiled hs hu hn hc
        · rename_i hc
          exact .compiled hs hu hn hc

/-- A call changes a staged function as far as lowering does. -/
theorem call_state (s : Staged) (w : World) (c : Call) :
    (s.call w c).state.1 = (s.lower w.cells c).state := by
  simp only [call]
  split
  · rfl
  · split <;> rfl

/-- Of a function and its roles, made without a cache of resolutions or through one that is
faithful, and not used yet. -/
inductive Made (f : Callable) (roles : Roles) (config : Config) : Staged → Prop where
  | direct {s : Staged} (h : (make f roles config).1 = .ok s) : Made f roles config s
  | cached {s : Staged} {cache : ResolutionCache} (hc : cache.Faithful)
    (h : (makeWith cache f roles config).result = .ok s) : Made f roles config s

/-- What can be done with a staged function; whatever else happens in between, it happens to the
world that the next call is made in. -/
inductive Use where
  | call (w : World) (c : Call)
  | lower (cells : Cells) (c : Call)
  | clear

def after (s : Staged) : Use → Staged
  | .call w c => (s.call w c).state.1
  | .lower cells c => (s.lower cells c).state
  | .clear => s.clear

def afterAll (s : Staged) (uses : List Use) : Staged := uses.foldl after s

/-- An entry was compiled for some call, and is held under the key of that call. -/
def CompiledFor (s : Staged) (key : EntryKey) (entry : Entry) : Prop :=
  ∃ cells c split ticket, s.split c = .ok split ∧ split.key? cells = some key ∧
    { s with nextTicket := ticket }.compile c split = .ok entry

/-- What stays as it was made, and where entries come from. -/
structure InUse (f : Callable) (resolved : Resolved) (config : Config) (s : Staged) : Prop where
  callable : s.callable = f
  resolved : s.resolved = resolved
  config : s.config = config
  entries : ∀ e ∈ s.entries, s.CompiledFor e.1 e.2

variable {f : Callable} {roles : Roles} {resolved : Resolved} {config : Config} {s : Staged}

theorem Made.inUse (h : Made f roles config s) :
    roles.resolve f.name f.signature = .ok s.resolved ∧ InUse f s.resolved config s := by
  have hnew : ∀ {r : Resolved}, roles.resolve f.name f.signature = .ok r →
      s = { callable := f, resolved := r, config } →
      roles.resolve f.name f.signature = .ok s.resolved ∧ InUse f s.resolved config s := by
    intro r hr hs
    subst hs
    exact ⟨hr, rfl, rfl, rfl, fun e he => by cases he⟩
  cases h with
  | direct h =>
    obtain ⟨r, hr, rfl⟩ := map_ok.mp h
    exact hnew ((Roles.resolveReporting_fst ..).symm.trans hr) rfl
  | @cached cache hc h =>
    obtain ⟨r, hr, rfl⟩ := map_ok.mp h
    obtain ⟨hanswer, -⟩ := hc.resolves (cache.resolves f.name f.signature roles)
    exact hnew (hanswer.symm.trans hr) rfl

theorem Made.of_resolve {r : Resolved} (h : roles.resolve f.name f.signature = .ok r) :
    Made f roles config { callable := f, resolved := r, config } :=
  .direct (map_ok.mpr ⟨r, (Roles.resolveReporting_fst ..).trans h, rfl⟩)

namespace InUse

theorem clear (h : InUse f resolved config s) : InUse f resolved config s.clear :=
  ⟨h.callable, h.resolved, h.config, fun e he => by cases he⟩

theorem lowers {cells : Cells} {c : Call} {o : Outcome Staged (Except Error Lowered)}
    (h : InUse f resolved config s) (hl : s.Lowers cells c o) : InUse f resolved config o.state := by
  cases hl with
  | unsplit => exact h
  | aliased => exact h
  | hit => exact h
  | uncompiled => exact h
  | @compiled split entry hs hu hn hc =>
    refine ⟨h.callable, h.resolved, h.config, ?_⟩
    intro e he
    cases hk : split.key? cells with
    | none =>
      simp only [hold, hk] at he
      exact h.entries e he
    | some key =>
      simp only [hold, hk, List.mem_append, List.mem_singleton] at he
      rcases he with he | rfl
      · exact h.entries e he
      · exact ⟨cells, c, split, s.nextTicket, hs, hk, hc⟩

theorem after (h : InUse f resolved config s) (use : Use) :
    InUse f resolved config (s.after use) := by
  cases use with
  | call w c =>
    rw [Staged.after, call_state]
    exact h.lowers (s.lowers w.cells c)
  | lower cells c => exact h.lowers (s.lowers cells c)
  | clear => exact h.clear

theorem afterAll (h : InUse f resolved config s) (uses : List Use) :
    InUse f resolved config (s.afterAll uses) := by
  induction uses generalizing s with
  | nil => exact h
  | cons use uses ih => exact ih (h.after use)

end InUse

theorem compile_ok {c : Call} {split : SplitCall} {entry : Entry}
    (h : s.compile c split = .ok entry) :
    ∃ provenance, s.provenance c = .ok provenance ∧ entry =
      { ticket := s.nextTicket, function := split.function, provenance,
        donated := donationFlags s.resolved.donateArgnums s.resolved.donateArgnames
          split.dynamic } := by
  simp only [compile, bind_ok, pure_ok] at h
  obtain ⟨provenance, hp, rfl⟩ := h
  exact ⟨provenance, hp, rfl⟩

theorem split_ok {c : Call} {split : SplitCall} (h : s.split c = .ok split) :
    ∃ r, (Reduced.of s.callable).fixArgnums s.resolved.staticArgnums c.args true =
        .ok (r, split.dynamic.args) ∧
      r.fixArgnames s.resolved.staticArgnames c.kwargs =
        .ok (split.function, split.dynamic.kwargs) := by
  simp only [Staged.split, bind_ok, pure_ok] at h
  obtain ⟨⟨r, args⟩, hr, ⟨r', kwargs⟩, hr', rfl⟩ := h
  exact ⟨r, hr, hr'⟩

/-- What a call is split into leaves the arguments that are not static. -/
theorem split_dynamic {c : Call} {split : SplitCall} (h : s.split c = .ok split) :
    split.dynamic = Statics.dynamic ⟨s.resolved.staticArgnums, s.resolved.staticArgnames⟩ c := by
  obtain ⟨r, hnums, hnames⟩ := split_ok h
  rw [Statics.dynamic, ← Reduced.fixArgnums_dynamic hnums, ← Reduced.fixArgnames_dynamic hnames]

theorem find?_some {key : EntryKey} {entry : Entry} (h : s.find? key = some entry) :
    ∃ held, (held, entry) ∈ s.entries ∧ held.same key = true := by
  obtain ⟨⟨held, _⟩, he, rfl⟩ := Option.map_eq_some_iff.mp h
  exact ⟨held, List.mem_of_find?_eq_some he, by simpa using List.find?_some he⟩

end Staged

end Staging
