import Staging.Proofs.Aliases
import Staging.Proofs.Representatives
import Staging.Proofs.Specialisations

namespace Staging

open Results

/-- An occasion whose call was given an entry. -/
structure Served extends Occasion where
  entry : Entry

namespace Staged

def served (s : Staged) (cells : Cells) (c : Call) : List Served :=
  match (s.lower cells c).result with
  | .ok l => [⟨⟨cells, c⟩, l.entry⟩]
  | .error _ => []

/-- What was given entries since the cache was last cleared, one more use included. -/
def log (s : Staged) (before : List Served) : Use → List Served
  | .call w c => before ++ s.served w.cells c
  | .lower cells c => before ++ s.served cells c
  | .clear => []

def logAll (s : Staged) (before : List Served) : List Use → List Served
  | [] => before
  | use :: uses => (s.after use).logAll (s.log before use) uses

/-- No static argument has a NaN in it. -/
def Use.NaNFree (statics : Statics) : Use → Prop
  | .call _ c | .lower _ c => statics.NaNFree c
  | .clear => True

def SameClass (s : Staged) (x y : Served) : Prop :=
  s.statics.SameClass x.toOccasion y.toOccasion

/-- The entry is what the occasion was given, and is held under its key. -/
def HeldFor (s : Staged) (x : Served) (e : EntryKey × Entry) : Prop :=
  x.entry = e.2 ∧ ∃ split, s.split x.call = .ok split ∧ split.key? x.cells = some e.1

/-- The entries are those of one representative of every class that was given entries. -/
structure Classified (s : Staged) (log reps : List Served) : Prop where
  split : ∀ x ∈ log, ∃ split, s.split x.call = .ok split
  nanFree : ∀ x ∈ log, s.statics.NaNFree x.call
  represents : Represents s.SameClass log reps
  held : List.Forall₂ s.HeldFor reps s.entries
  entry : ∀ x ∈ log, ∃ r ∈ reps, s.SameClass r x ∧ r.entry = x.entry

variable {f : Callable} {roles : Roles} {config : Config} {s : Staged} {cells : Cells} {c : Call}
  {l : Lowered} {split : SplitCall} {key : EntryKey} {log reps : List Served}
  {o : Outcome Staged (Except Error Lowered)}

theorem find?_eq_none_iff : s.find? key = none ↔ ∀ e ∈ s.entries, e.1.same key = false := by
  simp [find?]

namespace Classified

theorem hashable (h : s.Classified log reps) : ∀ x ∈ log, s.statics.Hashable x.call := by
  intro x hx
  obtain ⟨split, hs⟩ := h.split x hx
  exact hashable_of_split hs

theorem equivalence (h : s.Classified log reps) : EquivalenceOn s.SameClass log where
  refl x hx := .refl (h.hashable x hx) (h.nanFree x hx)
  symm x hx y hy := .symm (h.hashable x hx) (h.hashable y hy)
  trans x hx y hy _ _ := .trans (h.hashable x hx) (h.hashable y hy)

/-- An entry that is found was given to a call of the same class. -/
theorem found (h : s.Classified log reps) (hs : s.split c = .ok split)
    (hk : split.key? cells = some key) {entry : Entry} (hf : s.find? key = some entry) :
    ∃ r ∈ reps, s.statics.SameClass r.toOccasion ⟨cells, c⟩ ∧ r.entry = entry := by
  obtain ⟨held, he, hsame⟩ := find?_some hf
  obtain ⟨r, hr, hentry, splitr, hsr, hkr⟩ := (mem_of_forall₂ h.held).2 _ he
  exact ⟨r, hr, (key?_same_iff (y := ⟨cells, c⟩) hsr hs hkr hk).mp hsame, hentry⟩

/-- Where no entry is found, none was given to a call of the same class. -/
theorem not_found (h : s.Classified log reps) (hs : s.split c = .ok split)
    (hk : split.key? cells = some key) (hf : s.find? key = none) :
    ∀ r ∈ reps, ¬ s.statics.SameClass r.toOccasion ⟨cells, c⟩ := by
  intro r hr hclass
  obtain ⟨e, he, -, splitr, hsr, hkr⟩ := (mem_of_forall₂ h.held).1 r hr
  have hsame := (key?_same_iff (y := ⟨cells, c⟩) hsr hs hkr hk).mpr hclass
  rw [find?_eq_none_iff.mp hf e he] at hsame
  cases hsame

/-- One call more is of a class that was there, or the first of its class. -/
theorem lowers (h : s.Classified log reps) (hl : s.Lowers cells c o) (hr : o.result = .ok l)
    (hn : s.statics.NaNFree c) :
    ∃ reps', o.state.Classified (log ++ [⟨⟨cells, c⟩, l.entry⟩]) reps' := by
  have hsplit : ∀ {split}, s.split c = .ok split → ∀ x ∈ log ++ [(⟨⟨cells, c⟩, l.entry⟩ : Served)],
      ∃ split, s.split x.call = .ok split := by
    intro split hs
    exact List.forall_mem_append.mpr ⟨h.split, List.forall_mem_singleton.mpr ⟨split, hs⟩⟩
  have hnan : ∀ x ∈ log ++ [(⟨⟨cells, c⟩, l.entry⟩ : Served)], s.statics.NaNFree x.call :=
    List.forall_mem_append.mpr ⟨h.nanFree, List.forall_mem_singleton.mpr hn⟩
  cases hl with
  | unsplit => cases hr
  | aliased => cases hr
  | uncompiled => cases hr
  | hit hs hu hk hf =>
    cases hr
    obtain ⟨r, hr, hclass, hentry⟩ := h.found hs hk hf
    exact ⟨reps, hsplit hs, hnan, h.represents.found hr hclass, h.held,
      List.forall_mem_append.mpr ⟨h.entry, List.forall_mem_singleton.mpr ⟨r, hr, hclass, hentry⟩⟩⟩
  | @compiled split entry hs hu hno hc =>
    cases hr
    obtain ⟨key, hk⟩ := exists_key hs cells
    rw [hk, Option.bind_some] at hno
    let x : Served := ⟨⟨cells, c⟩, entry⟩
    have hself : s.SameClass x x := .refl (hashable_of_split hs) hn
    refine ⟨reps ++ [x], hsplit hs, hnan, h.represents.new hself (h.not_found hs hk hno), ?_, ?_⟩
    · rw [hk]
      exact List.rel_append h.held (.cons ⟨rfl, split, hs, hk⟩ .nil)
    · refine List.forall_mem_append.mpr ⟨fun y hy => ?_, List.forall_mem_singleton.mpr ?_⟩
      · obtain ⟨r, hr, hclass⟩ := h.entry y hy
        exact ⟨r, List.mem_append_left _ hr, hclass⟩
      · exact ⟨x, by simp, hself, rfl⟩

end Classified

theorem Lowers.statics (hl : s.Lowers cells c o) : o.state.statics = s.statics := by
  cases hl <;> rfl

theorem after_statics (s : Staged) (use : Use) : (s.after use).statics = s.statics := by
  cases use with
  | call w c => rw [after, call_state, (s.lowers w.cells c).statics]
  | lower cells c => exact (s.lowers cells c).statics
  | clear => rfl

/-- What is refused changes nothing. -/
theorem Lowers.state_of_error (hl : s.Lowers cells c o) {e : Error} (hr : o.result = .error e) :
    o.state = s := by
  cases hl with
  | unsplit | aliased | uncompiled => rfl
  | hit | compiled => cases hr

/-- Whatever entry a call is given is held from then on. -/
theorem Lowers.entry_held (hl : s.Lowers cells c o) (hr : o.result = .ok l) :
    ∃ key, (key, l.entry) ∈ o.state.entries := by
  cases hl with
  | unsplit | aliased | uncompiled => cases hr
  | hit hs hu hk hf =>
    cases hr
    obtain ⟨held, he, -⟩ := find?_some hf
    exact ⟨held, he⟩
  | compiled hs hu hno hc =>
    cases hr
    obtain ⟨key, hk⟩ := exists_key hs cells
    refine ⟨key, ?_⟩
    rw [hk]
    exact List.mem_append_right _ (List.mem_singleton.mpr rfl)

namespace Classified

theorem nil (h : s.entries = []) : s.Classified [] [] := by
  refine ⟨by simp, by simp, .nil, ?_, by simp⟩
  rw [h]
  exact .nil

theorem lower (h : s.Classified log reps) (cells : Cells) (hn : s.statics.NaNFree c) :
    ∃ reps', (s.lower cells c).state.Classified (log ++ s.served cells c) reps' := by
  have hl := s.lowers cells c
  cases hr : (s.lower cells c).result with
  | error e =>
    rw [served, hr, hl.state_of_error hr]
    exact ⟨reps, (List.append_nil log).symm ▸ h⟩
  | ok l =>
    rw [served, hr]
    exact h.lowers hl hr hn

theorem after (h : s.Classified log reps) (use : Use) (hn : use.NaNFree s.statics) :
    ∃ reps', (s.after use).Classified (s.log log use) reps' := by
  cases use with
  | call w c =>
    rw [Staged.after, call_state]
    exact h.lower w.cells hn
  | lower cells c => exact h.lower cells hn
  | clear => exact ⟨[], .nil rfl⟩

theorem afterAll (h : s.Classified log reps) (uses : List Use)
    (hn : ∀ use ∈ uses, use.NaNFree s.statics) :
    ∃ reps', (s.afterAll uses).Classified (s.logAll log uses) reps' := by
  induction uses generalizing s log reps with
  | nil => exact ⟨reps, h⟩
  | cons use uses ih =>
    obtain ⟨huse, huses⟩ := List.forall_mem_cons.mp hn
    obtain ⟨reps', h'⟩ := h.after use huse
    exact ih h' (after_statics s use ▸ huses)

theorem cacheSize_eq (h : s.Classified log reps) :
    s.cacheSize = (classes s.SameClass log).ncard := by
  rw [h.represents.ncard_classes h.equivalence, cacheSize, h.held.length_eq]

theorem entry_held (h : s.Classified log reps) {x : Served} (hx : x ∈ log) :
    ∃ key, (key, x.entry) ∈ s.entries := by
  obtain ⟨r, hr, -, hentry⟩ := h.entry x hx
  obtain ⟨⟨key, entry⟩, he, hheld, -⟩ := (mem_of_forall₂ h.held).1 r hr
  rw [← hentry, hheld]
  exact ⟨key, he⟩

/-- A call of a class that is there is refused for an alias or given the entry that is there. -/
theorem present (h : s.Classified log reps) (hl : s.Lowers cells c o) {x : Served} (hx : x ∈ log)
    (hclass : s.statics.SameClass x.toOccasion ⟨cells, c⟩) : o.state = s ∧
      (∀ l, o.result = .ok l → l = ⟨x.entry, s.statics.dynamic c⟩) ∧
      ∀ e, o.result = .error e → s.config.mutableArrayChecks = true ∧
        Aliased ((s.statics.dynamic c).args ++ (s.statics.dynamic c).kwargs.values) := by
  obtain ⟨splitx, hsx⟩ := h.split x hx
  obtain ⟨split, hs⟩ := split_of_sameClass hsx hclass
  obtain ⟨r, hr, hrx, hentry⟩ := h.entry x hx
  have hrlog := h.represents.member r hr
  have hrc : s.statics.SameClass r.toOccasion ⟨cells, c⟩ :=
    .trans (h.hashable r hrlog) (h.hashable x hx) hrx hclass
  cases hl with
  | unsplit hs' =>
    rw [hs] at hs'
    cases hs'
  | aliased hs' hu =>
    exact ⟨rfl, fun l hl => (by cases hl), fun e he => aliased_of_checkUnaliased hs' hu⟩
  | @hit split' key entry hs' hu hk hf =>
    obtain ⟨r', hr', hclass', hentry'⟩ := h.found hs' hk hf
    have hcr : s.statics.SameClass ⟨cells, c⟩ r.toOccasion :=
      .symm (h.hashable r hrlog) (hashable_of_split hs') hrc
    have hsame : s.SameClass r' r :=
      .trans (h.hashable r' (h.represents.member r' hr')) (hashable_of_split hs') hclass' hcr
    obtain rfl := h.represents.unique h.equivalence hr' hr hsame
    refine ⟨rfl, fun l hl => ?_, fun e he => (by cases he)⟩
    rw [← Except.ok.inj hl, ← hentry, ← hentry', split_dynamic hs']
    rfl
  | uncompiled hs' hu hno hc =>
    obtain ⟨p, hp⟩ := exists_provenance hs'
    simp [compile, hp] at hc
  | compiled hs' hu hno hc =>
    obtain ⟨key, hk⟩ := exists_key hs' cells
    rw [hk, Option.bind_some] at hno
    exact absurd hrc (h.not_found hs' hk hno r hr)

end Classified

/-- Tickets tell the entries that are held apart from each other and from all later ones. -/
structure Ticketed (s : Staged) : Prop where
  below : ∀ e ∈ s.entries, e.2.ticket < s.nextTicket
  nodup : (s.entries.map fun e => e.2.ticket).Nodup

namespace Ticketed

theorem nil (h : s.entries = []) : s.Ticketed := by
  constructor <;> simp [h]

theorem lowers (h : s.Ticketed) (hl : s.Lowers cells c o) : o.state.Ticketed := by
  cases hl with
  | unsplit | aliased | hit | uncompiled => exact h
  | @compiled split entry hs hu hno hc =>
    obtain ⟨p, -, rfl⟩ := compile_ok hc
    obtain ⟨key, hk⟩ := exists_key hs cells
    rw [hk, hold]
    constructor
    · refine List.forall_mem_append.mpr ⟨fun e he => ?_, List.forall_mem_singleton.mpr ?_⟩
      · exact Nat.lt_succ_of_lt (h.below e he)
      · exact Nat.lt_succ_self _
    · rw [List.map_append, List.map_singleton]
      refine List.nodup_append'.mpr ⟨h.nodup, List.nodup_singleton _, ?_⟩
      rw [List.disjoint_singleton, List.mem_map]
      rintro ⟨e, he, hticket⟩
      exact absurd (h.below e he) (hticket ▸ Nat.lt_irrefl _)

theorem after (h : s.Ticketed) (use : Use) : (s.after use).Ticketed := by
  cases use with
  | call w c =>
    rw [Staged.after, call_state]
    exact h.lowers (s.lowers w.cells c)
  | lower cells c => exact h.lowers (s.lowers cells c)
  | clear => exact .nil rfl

theorem afterAll (h : s.Ticketed) (uses : List Use) : (s.afterAll uses).Ticketed := by
  induction uses generalizing s with
  | nil => exact h
  | cons use uses ih => exact ih (h.after use)

end Ticketed

theorem Made.entries_nil (hs : s.Made f roles config) : s.entries = [] := by
  cases hs with
  | direct h =>
    obtain ⟨r, -, rfl⟩ := map_ok.mp h
    rfl
  | cached hc h =>
    obtain ⟨r, -, rfl⟩ := map_ok.mp h
    rfl

/-- At any point of its use, if no static argument had a NaN in it, the cache of a staged function
has as many entries as there are classes among the calls that were given entries since it was last
cleared. A call that is refused an entry changes nothing. One of a class that is there changes
nothing either and is given the entry that is there, unless it is refused for an alias. Running
the function changes nothing, whatever comes of it, and the entry is held once. -/
theorem cacheSize_eq_classes (hs : s.Made f roles config) (uses : List Use)
    (hn : ∀ use ∈ uses, use.NaNFree s.statics) :
    let used := s.afterAll uses
    let log := s.logAll [] uses
    used.cacheSize = (classes s.SameClass log).ncard ∧
    (∀ x ∈ log, ∃ key, (key, x.entry) ∈ used.entries) ∧
    (∀ cells c e, (used.lower cells c).result = .error e → (used.lower cells c).state = used) ∧
    (∀ cells c, ∀ x ∈ log, s.statics.SameClass x.toOccasion ⟨cells, c⟩ →
      (used.lower cells c).state = used ∧
        (∀ l, (used.lower cells c).result = .ok l → l = ⟨x.entry, s.statics.dynamic c⟩) ∧
        ∀ e, (used.lower cells c).result = .error e → config.mutableArrayChecks = true ∧
          Aliased ((s.statics.dynamic c).args ++ (s.statics.dynamic c).kwargs.values)) ∧
    ∀ w c, (used.call w c).state.1 = (used.lower w.cells c).state ∧
      ∀ l, (used.lower w.cells c).result = .ok l →
        ((used.call w c).state.1.entries.map fun e => e.2.ticket).count l.entry.ticket = 1 := by
  intro used log
  obtain ⟨reps, h⟩ := (Classified.nil hs.entries_nil).afterAll uses hn
  have hu := hs.inUse.2.afterAll uses
  have hstatics : used.statics = s.statics := by rw [statics, statics, hu.resolved]
  have hsame : used.SameClass = s.SameClass := by
    funext x y
    rw [SameClass, SameClass, hstatics]
  refine ⟨hsame ▸ h.cacheSize_eq, fun x hx => h.entry_held hx, ?_, ?_, ?_⟩
  · intro cells c e he
    exact (used.lowers cells c).state_of_error he
  · intro cells c x hx hclass
    rw [← hstatics, ← hu.config]
    exact h.present (used.lowers cells c) hx (hstatics ▸ hclass)
  · intro w c
    refine ⟨call_state used w c, fun l hl => ?_⟩
    have hticketed := ((Ticketed.nil hs.entries_nil).afterAll uses).lowers (used.lowers w.cells c)
    obtain ⟨key, he⟩ := (used.lowers w.cells c).entry_held hl
    rw [call_state]
    exact List.count_eq_one_of_mem hticketed.nodup (List.mem_map.mpr ⟨_, he, rfl⟩)

/-- Four calls of three classes, of a function that fails: the zeros match, the static integer does
not, and the last dynamic argument has another shape. -/
theorem cacheSize_eq_classes_three :
    let f : Callable := .function ⟨0, "f", none, none, fun cells _ _ => (.error (.other ""), cells)⟩
    let roles : Roles := { staticArgnums := some (.int 0) }
    let s : Staged := { callable := f, resolved := ⟨[], [], [0], []⟩, config := {} }
    let cells := World.blank.cells
    let call (v w : Value) : Call := ⟨[.tuple [v], w], .empty⟩
    let uses : List Use := [.call .blank (call (.float ⟨0⟩) (.int 1)),
      .call .blank (call (.float ⟨0x8000000000000000⟩) (.int 2)),
      .lower cells (call (.int 0) (.int 1)), .lower cells (call (.float ⟨0⟩) (.list [.int 1]))]
    s.Made f roles {} ∧ (∀ use ∈ uses, use.NaNFree s.statics) ∧
      ¬ s.statics.SameClass ⟨cells, call (.float ⟨0⟩) (.int 1)⟩
        ⟨cells, call (.float ⟨0⟩) (.list [.int 1])⟩ ∧
      (s.afterAll uses).cacheSize = 3 ∧ (classes s.SameClass (s.logAll [] uses)).ncard = 3 := by
  intro f roles s cells call uses
  have hs : s.Made f roles {} := .direct rfl
  have hcall : ∀ v w, ¬ v.HasNaN → s.statics.NaNFree (call v w) := by
    intro v w hv
    have hvalues : s.statics.staticValues (call v w) = [.tuple [v]] := rfl
    rw [Statics.NaNFree, hvalues]
    simpa using hv
  have hn : ∀ use ∈ uses, use.NaNFree s.statics := by
    have hzero : ¬ (Value.float ⟨0⟩).HasNaN := by simp; decide
    have hnegative : ¬ (Value.float ⟨0x8000000000000000⟩).HasNaN := by simp; decide
    simp only [uses, List.forall_mem_cons]
    exact ⟨hcall _ _ hzero, hcall _ _ hnegative, hcall _ _ Value.not_hasNaN_int, hcall _ _ hzero,
      by simp⟩
  have hshape : ¬ s.statics.SameClass ⟨cells, call (.float ⟨0⟩) (.int 1)⟩
      ⟨cells, call (.float ⟨0⟩) (.list [.int 1])⟩ := by
    intro h
    cases h.shapes.1 with
    | cons hshape _ => cases hshape.kind_eq
  have hsize : (s.afterAll uses).cacheSize = 3 := by decide +kernel
  exact ⟨hs, hn, hshape, hsize, (cacheSize_eq_classes hs uses hn).1 ▸ hsize⟩

end Staged

end Staging
