import Staging.Proofs.Histories
import Staging.Proofs.Keys

namespace Staging

open Results
open SplitCall (Equivalent)

/-- What a function is handed for a call that was made: in place of the static arguments there
may be others that are alike. -/
structure Handed (r : Resolved) (made given : Call) : Prop where
  arg : ∀ i : Nat, Option.Rel Value.Alike given.args[i]? made.args[i]?
  dynamic_arg : ∀ i : Nat, ¬ Designates r.staticArgnums made.args.length i →
    given.args[i]? = made.args[i]?
  kwarg : ∀ k, Option.Rel Value.Alike (given.kwargs.get? k) (made.kwargs.get? k)
  dynamic_kwarg : ∀ k, k ∉ r.staticArgnames → given.kwargs.get? k = made.kwargs.get? k

theorem Value.alike_refl_option (v : Option Value) : Option.Rel Alike v v := by
  cases v with
  | none => exact .none
  | some v => exact .some (.refl v)

theorem Handed.refl (r : Resolved) (c : Call) : Handed r c c where
  arg _ := Value.alike_refl_option _
  dynamic_arg _ _ := rfl
  kwarg _ := Value.alike_refl_option _
  dynamic_kwarg _ _ := rfl

namespace Transform

theorem alike_positions {dynamic dynamic' : List Nat} {fixed fixed' : List FixedArg}
    (h : Alike (.positions dynamic fixed) (.positions dynamic' fixed')) :
    dynamic = dynamic' ∧
      List.Forall₂ Value.Alike (fixed.map FixedArg.value) (fixed'.map FixedArg.value) := by
  cases h with
  | positions h => exact ⟨rfl, h⟩

theorem alike_names {fixed fixed' : List (String × Boxed)}
    (h : Alike (.names fixed) (.names fixed')) :
    List.Forall₂ (fun a b => a.1 = b.1 ∧ a.2.Alike b.2) (fixed.map fun e => (e.1, e.2.value))
      (fixed'.map fun e => (e.1, e.2.value)) := by
  cases h with
  | names h => exact h

end Transform

namespace Reduced

variable {r r' r₁ r₁' : Reduced}

/-- Transforms that are alike were put on functions whose transforms are alike. -/
theorem alike_of_push {t t₁ : Transform}
    (h : List.Forall₂ Transform.Alike (r₁.push t₁).transforms (r.push t).transforms) :
    List.Forall₂ Transform.Alike r₁.transforms r.transforms ∧ t₁.Alike t := by
  have hlen : r₁.transforms.length = r.transforms.length := by
    simpa [push] using h.length_eq
  constructor
  · have := List.forall₂_take_append _ _ _ h
    rwa [push, ← hlen, List.take_left] at this
  · have := List.forall₂_drop_append _ _ _ h
    rw [push, ← hlen, List.drop_left] at this
    cases this with
    | cons ht _ => exact ht

/-- Positional arguments of a call with those at static positions taken from another call, of as
many arguments and alike there. -/
theorem substitute_handed {static : List Int} {args others : List Value} {ps : List Nat}
    (hps : ensureInBounds true args.length static = .ok ps) (hl : others.length = args.length)
    (ha : ∀ p ∈ ascending ps, (argAt others p).Alike (argAt args p)) :
    let dynamic := otherPositions args (ascending ps)
    let given := substitute others dynamic (pick args dynamic)
    (∀ i : Nat, Option.Rel Value.Alike given[i]? args[i]?) ∧
      ∀ i : Nat, ¬ Designates static args.length i → given[i]? = args[i]? := by
  intro dynamic given
  have hgiven : ∀ i, given[i]? = if i ∈ dynamic then args[i]? else others[i]? :=
    getElem?_substitute_pick (lt_of_mem_otherPositions args _) hl
  constructor
  · intro i
    rw [hgiven]
    split
    · exact Value.alike_refl_option _
    · rename_i hi
      by_cases hlt : i < args.length
      · have hp : i ∈ ascending ps := by
          by_contra hp
          exact hi (mem_otherPositions.mpr ⟨hlt, hp⟩)
        rw [argAt_of_lt hlt, argAt_of_lt (hl ▸ hlt)]
        exact .some (ha i hp)
      · rw [List.getElem?_eq_none (by omega), List.getElem?_eq_none (by omega)]
        exact .none
  · intro i hi
    rw [hgiven]
    split
    · rfl
    · rename_i hd
      have hge : ¬ i < args.length := by
        intro hlt
        refine hd (mem_otherPositions.mpr ⟨hlt, fun hp => hi ?_⟩)
        exact ((mem_ensureInBounds hps).mp (mem_ascending.mp hp)).2
      rw [List.getElem?_eq_none (by omega), List.getElem?_eq_none (by omega)]

/-- As many fixed arguments and the same dynamic positions are as many arguments. -/
theorem fixArgnums_length {static : List Int} {args args₁ rest rest₁ : List Value}
    (h : r.fixArgnums static args true = .ok (r', rest))
    (h₁ : r₁.fixArgnums static args₁ true = .ok (r₁', rest₁))
    (ha : List.Forall₂ Transform.Alike r₁'.transforms r'.transforms)
    (hr : rest₁.length = rest.length) : args₁.length = args.length := by
  rcases fixArgnums_ok h with ⟨rfl, rfl, rfl⟩ | ⟨ps, boxes, hne, hps, hb, rfl, rfl⟩ <;>
    rcases fixArgnums_ok h₁ with ⟨he, rfl, rfl⟩ | ⟨ps₁, boxes₁, hne₁, hps₁, hb₁, rfl, rfl⟩
  · exact hr
  · exact absurd rfl hne₁
  · exact absurd he hne
  · obtain ⟨hdynamic, hfixed⟩ := Transform.alike_positions (alike_of_push ha).2
    have hd := lt_of_mem_otherPositions args (ascending ps)
    have hd₁ := lt_of_mem_otherPositions args₁ (ascending ps₁)
    have hf := map_boxed_value (ascending_pairwise ps) (lt_of_mem_ascending hps) hb
    have hf₁ := map_boxed_value (ascending_pairwise ps₁) (lt_of_mem_ascending hps₁) hb₁
    rw [← Transform.length_positions (otherPositions_nodup _ _) hd hf,
      ← Transform.length_positions (otherPositions_nodup _ _) hd₁ hf₁, hdynamic]
    simpa using hfixed.length_eq

/-- Positional arguments of a call handed to what was fixed for an earlier one. -/
theorem fixArgnums_handed {static : List Int} {args args₁ rest rest₁ : List Value}
    (h : r.fixArgnums static args true = .ok (r', rest))
    (h₁ : r₁.fixArgnums static args₁ true = .ok (r₁', rest₁))
    (ha : List.Forall₂ Transform.Alike r₁'.transforms r'.transforms) :
    List.Forall₂ Transform.Alike r₁.transforms r.transforms ∧ ∃ given : List Value,
      ((∀ i : Nat, Option.Rel Value.Alike given[i]? args[i]?) ∧
        ∀ i : Nat, ¬ Designates static args.length i → given[i]? = args[i]?) ∧
      ∀ kwargs, Equivalent ⟨r₁, given, kwargs⟩ ⟨r₁', rest, kwargs⟩ := by
  have hlength := fixArgnums_length h h₁ ha
  rcases fixArgnums_ok h with ⟨rfl, rfl, rfl⟩ | ⟨ps, boxes, hne, hps, hb, rfl, rfl⟩ <;>
    rcases fixArgnums_ok h₁ with ⟨he, rfl, rfl⟩ | ⟨ps₁, boxes₁, hne₁, hps₁, hb₁, rfl, rfl⟩
  · exact ⟨ha, rest, ⟨fun i => Value.alike_refl_option _, fun _ _ => rfl⟩, fun _ => .refl _⟩
  · exact absurd rfl hne₁
  · exact absurd he hne
  · obtain ⟨hrest, hlast⟩ := alike_of_push ha
    obtain ⟨hdynamic, hfixed⟩ := Transform.alike_positions hlast
    have hlt := lt_of_mem_ascending hps
    have hlt₁ := lt_of_mem_ascending hps₁
    have hd := lt_of_mem_otherPositions args (ascending ps)
    have hd₁ := lt_of_mem_otherPositions args₁ (ascending ps₁)
    have hf := map_boxed_value (ascending_pairwise ps) hlt hb
    have hf₁ := map_boxed_value (ascending_pairwise ps₁) hlt₁ hb₁
    have hlen : args₁.length = args.length := by
      refine hlength ?_
      rw [pick_eq_map hd, pick_eq_map hd₁, List.length_map, List.length_map, hdynamic]
    obtain rfl : ps = ps₁ := by
      rw [hlen, hps] at hps₁
      exact Except.ok.inj hps₁
    have halike : ∀ p ∈ ascending ps, (argAt args₁ p).Alike (argAt args p) := by
      rw [hf, hf₁, otherPositions_otherPositions (ascending_pairwise ps) hlt,
        otherPositions_otherPositions (ascending_pairwise ps) hlt₁, pick_eq_map hlt,
        pick_eq_map hlt₁, List.forall₂_map_left_iff, List.forall₂_map_right_iff,
        List.forall₂_same] at hfixed
      exact hfixed
    refine ⟨hrest, _, substitute_handed hps hlen halike, ?_⟩
    intro kwargs
    rw [← hdynamic]
    refine .push (Transform.apply_positions_substitute (otherPositions_nodup _ _) hd₁ hf₁ ?_)
    rw [hdynamic, pick_eq_map hd, List.length_map]

/-- What is fixed under a static name is alike in both calls. -/
theorem fixArgnames_alike {static : List String} {kwargs kwargs₁ kept kept₁ : Kwargs}
    (h : r.fixArgnames static kwargs = .ok (r', kept))
    (h₁ : r₁.fixArgnames static kwargs₁ = .ok (r₁', kept₁))
    (ha : List.Forall₂ Transform.Alike r₁'.transforms r'.transforms) :
    ∀ k ∈ static, Option.Rel Value.Alike (kwargs₁.get? k) (kwargs.get? k) := by
  intro k hk
  rcases fixArgnames_ok h with ⟨rfl, rfl, rfl⟩ | ⟨boxes, hne, hb, rfl, rfl⟩ <;>
    rcases fixArgnames_ok h₁ with ⟨he, rfl, rfl⟩ | ⟨boxes₁, hne₁, hb₁, rfl, rfl⟩
  · cases hk
  · exact absurd rfl hne₁
  · exact absurd he hne
  · have hnames := Transform.alike_names (alike_of_push ha).2
    rw [hb, hb₁] at hnames
    have hrel := Entries.lookup_rel hnames k
    have hcontains : static.contains k = true := List.contains_iff_mem.mpr hk
    rw [← Kwargs.get?, ← Kwargs.get?, kwargs.get?_filter static.contains,
      kwargs₁.get?_filter static.contains, if_pos hcontains, if_pos hcontains] at hrel
    exact hrel

/-- Keyword arguments of a call handed to what was fixed for an earlier one. -/
theorem fixArgnames_handed {static : List String} {kwargs kwargs₁ kept kept₁ : Kwargs}
    (h : r.fixArgnames static kwargs = .ok (r', kept))
    (h₁ : r₁.fixArgnames static kwargs₁ = .ok (r₁', kept₁))
    (ha : List.Forall₂ Transform.Alike r₁'.transforms r'.transforms) :
    List.Forall₂ Transform.Alike r₁.transforms r.transforms ∧ ∃ given : Kwargs,
      ((∀ k, Option.Rel Value.Alike (given.get? k) (kwargs.get? k)) ∧
        ∀ k, k ∉ static → given.get? k = kwargs.get? k) ∧
      ∀ args, Equivalent ⟨r₁, args, given⟩ ⟨r₁', args, kept⟩ := by
  have halike := fixArgnames_alike h h₁ ha
  rcases fixArgnames_ok h with ⟨rfl, rfl, rfl⟩ | ⟨boxes, hne, hb, rfl, rfl⟩ <;>
    rcases fixArgnames_ok h₁ with ⟨he, rfl, rfl⟩ | ⟨boxes₁, hne₁, hb₁, rfl, rfl⟩
  · exact ⟨ha, kept, ⟨fun i => Value.alike_refl_option _, fun _ _ => rfl⟩, fun _ => .refl _⟩
  · exact absurd rfl hne₁
  · exact absurd he hne
  · have hgiven : ∀ k, (Transform.adopt boxes₁ (kwargs.filter (!static.contains ·.1))).get? k =
        if k ∈ static then kwargs₁.get? k else kwargs.get? k := Transform.get?_adopt_split hb₁
    refine ⟨(alike_of_push ha).1, _, ⟨?_, ?_⟩, fun args => .push (Transform.apply_names_adopt ..)⟩
    · intro k
      rw [hgiven]
      split
      · rename_i hk
        exact halike k hk
      · exact Value.alike_refl_option _
    · intro k hk
      rw [hgiven, if_neg hk]

end Reduced

namespace InvalidChecks

theorem leaf?_off {checks : InvalidChecks} (h : checks.any = false) (cells : Cells) (v : Value) :
    checks.leaf? cells v = none := by
  have hnumber : ∀ x, checks.number? x = none := by
    intro x
    simp only [any, Bool.or_eq_false_iff] at h
    simp [number?, h.1, h.2]
  have htensor : ∀ t, checks.tensor? t = none := by
    intro t
    simp [tensor?, hnumber]
  cases v <;> simp [leaf?, hnumber, htensor]

theorem output?_off {checks : InvalidChecks} (h : checks.any = false) (cells : Cells)
    (function : String) (v : Value) : checks.output? cells function v = none := by
  simp [output?, value?, leaf?_off h]

end InvalidChecks

namespace Staged

variable {f : Callable} {roles : Roles} {resolved : Resolved} {config : Config} {s : Staged}
  {cells : Cells} {w : World} {c : Call} {l : Lowered}

theorem split_handed {c₁ : Call} {split split₁ : SplitCall} (hs : s.split c = .ok split)
    (hs₁ : s.split c₁ = .ok split₁)
    (ha : List.Forall₂ Transform.Alike split₁.function.transforms split.function.transforms) :
    ∃ given, Handed s.resolved c given ∧
      ∀ w, split₁.function.call w split.dynamic = s.callable.call w given := by
  obtain ⟨r, hnums, hnames⟩ := split_ok hs
  obtain ⟨r₁, hnums₁, hnames₁⟩ := split_ok hs₁
  obtain ⟨ha, kwargs, ⟨hkwarg, hdynamicKwarg⟩, hkwargs⟩ :=
    Reduced.fixArgnames_handed hnames hnames₁ ha
  obtain ⟨-, args, ⟨harg, hdynamicArg⟩, hargs⟩ := Reduced.fixArgnums_handed hnums hnums₁ ha
  refine ⟨⟨args, kwargs⟩, ⟨harg, hdynamicArg, hkwarg, hdynamicKwarg⟩, ?_⟩
  intro w
  exact ((hargs kwargs).trans (hkwargs split.dynamic.args)).call w

theorem split_call {split : SplitCall} (hs : s.split c = .ok split) (w : World) :
    split.function.call w split.dynamic = s.callable.call w c := by
  obtain ⟨r, hnums, hnames⟩ := split_ok hs
  have hargs := Reduced.fixArgnums_equivalent c.kwargs hnums
  have hkwargs := Reduced.fixArgnames_equivalent split.dynamic.args hnames
  exact (hargs.trans hkwargs).call w

/-- The entry that lowering gives runs the function, on the call as it was made unless the entry
was there before. -/
theorem InUse.lower_handed {o : Outcome Staged (Except Error Lowered)}
    (h : InUse f resolved config s) (hl : s.Lowers cells c o) (hr : o.result = .ok l) :
    ∃ given, Handed resolved c given ∧ (.entryHit f.name ∉ o.events → given = c) ∧
      ∀ w, l.entry.function.call w l.dynamic = f.call w given := by
  cases hl with
  | unsplit => cases hr
  | aliased => cases hr
  | uncompiled => cases hr
  | @hit split key entry hs hu hkey hf =>
    cases hr
    obtain ⟨held, he, hsame⟩ := find?_some hf
    obtain ⟨_, c₁, split₁, _, hs₁, hkey₁, hc₁⟩ := h.entries _ he
    obtain ⟨_, -, hentry⟩ := compile_ok hc₁
    obtain ⟨k₁, hk₁, rfl⟩ := Option.map_eq_some_iff.mp hkey₁
    obtain ⟨k, hk, rfl⟩ := Option.map_eq_some_iff.mp hkey
    simp only [EntryKey.same, Bool.and_eq_true] at hsame
    obtain ⟨-, halike⟩ := Reduced.alike_of_same hk₁ hk hsame.1.1
    obtain ⟨given, hgiven, hcall⟩ := split_handed hs hs₁ halike
    refine ⟨given, h.resolved ▸ hgiven, ?_, ?_⟩
    · intro hn
      simp [name, h.callable] at hn
    · intro w
      have hfunction : entry.function = split₁.function := congrArg Entry.function hentry
      rw [← h.callable, ← hcall w, hfunction]
  | @compiled split entry hs hu hn hc =>
    cases hr
    obtain ⟨_, -, rfl⟩ := compile_ok hc
    refine ⟨c, .refl _ _, fun _ => rfl, ?_⟩
    intro w
    rw [← h.callable]
    exact split_call hs w

/-- Where no output is looked at, a call is its lowering and one run of the entry. -/
theorem call_unchecked (hoff : s.config.checksInvalidValues = false)
    (hl : (s.lower w.cells c).result = .ok l) :
    (s.call w c).result = (l.entry.function.call w l.dynamic).1.mapError .call ∧
      (s.call w c).state.2 = (l.entry.function.call w l.dynamic).2 ∧
      (s.call w c).events = (s.lower w.cells c).events := by
  have hinspect : ∀ after output, s.inspect after c output = ⟨.ok output, after, []⟩ := by
    intro after output
    simp [inspect, InvalidChecks.output?_off hoff]
  simp only [call, hl]
  rcases l.entry.function.call w l.dynamic with ⟨e | output, after⟩
  · exact ⟨rfl, rfl, rfl⟩
  · simp [hinspect, Except.mapError]

/-- At any point of its use, a staged function that looks at no output does what its function
does, once, for every call that it accepts. The function is handed the call as it was made when
nothing is found for it, and otherwise one that differs in no more than the signs of zeros within
static arguments. -/
theorem call_transparent (hs : s.Made f roles config) (hoff : config.checksInvalidValues = false)
    (uses : List Use) (w : World) (c : Call) {l : Lowered}
    (hl : ((s.afterAll uses).lower w.cells c).result = .ok l) :
    ∃ given, Handed s.resolved c given ∧
      (.entryHit f.name ∉ ((s.afterAll uses).call w c).events → given = c) ∧
      ((s.afterAll uses).call w c).result = (f.call w given).1.mapError .call ∧
      ((s.afterAll uses).call w c).state.2 = (f.call w given).2 ∧
      ∀ g, f = .function g →
        ((s.afterAll uses).call w c).state.2.runs = w.runs ++ [⟨g.ticket, given⟩] := by
  have hu := hs.inUse.2.afterAll uses
  obtain ⟨hresult, hworld, hevents⟩ := call_unchecked (hu.config ▸ hoff) hl
  obtain ⟨given, hgiven, hexact, hcall⟩ :=
    hu.lower_handed ((s.afterAll uses).lowers w.cells c) hl
  rw [hevents, hresult, hworld, hcall]
  refine ⟨given, hgiven, hexact, rfl, rfl, ?_⟩
  intro g hg
  subst hg
  rfl

/-- A call that finds the entry of another, with the other zero where both are static. -/
theorem call_transparent_other_zero :
    let f : Callable := .function (.echo 0)
    let roles : Roles := { staticArgnums := some (.int 0) }
    let s : Staged := { callable := f, resolved := ⟨[], [], [0], []⟩, config := {} }
    let used := s.afterAll [.call .blank ⟨[.float ⟨0⟩, .int 1], .empty⟩]
    let made : Call := ⟨[.float ⟨0x8000000000000000⟩, .int 2], .empty⟩
    s.Made f roles {} ∧ ({} : Config).checksInvalidValues = false ∧
      ∃ l, (used.lower World.blank.cells made).result = .ok l ∧
        ∃ given, Handed s.resolved made given ∧
          (used.call .blank made).result = (f.call .blank given).1.mapError .call := by
  intro f roles s used made
  have hs : s.Made f roles {} := .direct rfl
  obtain ⟨l, hl⟩ := exists_ok (x := (used.lower World.blank.cells made).result) rfl
  obtain ⟨given, hgiven, -, hresult, -⟩ := call_transparent hs rfl _ _ _ hl
  exact ⟨hs, rfl, l, hl, given, hgiven, hresult⟩

/-- The function need not be handed the very call: where a static zero finds the entry compiled
for the other zero, it is handed that one. -/
theorem call_not_exact :
    ¬ ∀ (f : Callable) (roles : Roles) (config : Config) (s : Staged), s.Made f roles config →
      config.checksInvalidValues = false → ∀ (uses : List Use) (w : World) (c : Call) (l : Lowered),
      ((s.afterAll uses).lower w.cells c).result = .ok l →
        ((s.afterAll uses).call w c).result = (f.call w c).1.mapError .call ∧
          ((s.afterAll uses).call w c).state.2 = (f.call w c).2 := by
  intro h
  let roles : Roles := { staticArgnums := some (.int 0) }
  let first : Use := .call .blank ⟨[.float ⟨0⟩], .empty⟩
  have hsame : Except.ok (Value.tuple [.tuple [.float ⟨0⟩], .dict []]) =
      (.ok (.tuple [.tuple [.float ⟨0x8000000000000000⟩], .dict []]) : Except Error Value) :=
    (h (.function (.echo 0)) roles {} _ (.direct rfl) rfl [first] .blank
      ⟨[.float ⟨0x8000000000000000⟩], .empty⟩ _ rfl).1
  simp only [Except.ok.injEq, Value.tuple.injEq, List.cons.injEq, Value.float.injEq,
    Binary64.mk.injEq] at hsame
  exact absurd hsame.1.1 (by decide)

end Staged

end Staging
