import Staging.Proofs.SameLeaves
import Staging.Proofs.Transparency

namespace Staging

open Results

theorem dynamicArgs_eq_map (argnums : List Int) (args : List Value) :
    dynamicArgs argnums args =
      ((List.range args.length).filter fun i => ¬ Designates argnums args.length i).map
        (argAt args) := by
  rw [dynamicArgs, zipIdx_eq_map, List.filter_map, List.map_map]
  rfl

namespace Statics

variable {s : Statics} {c d : Call}

theorem get?_dynamic {k : String} (c : Call) (hk : k ∉ s.argnames) :
    (s.dynamic c).kwargs.get? k = c.kwargs.get? k := by
  have hno : (!s.argnames.contains k) = true := by simpa using hk
  rw [dynamic, c.kwargs.get?_filter fun l => !s.argnames.contains l, if_pos hno]

/-- Calls of as many arguments, with the same ones under static names, have leaves at the same
places once their static arguments are masked if they have once those are taken away. -/
theorem sameLeaves_masked (hn : c.args.length = d.args.length)
    (hs : ∀ k ∈ s.argnames, (c.kwargs.get? k).isSome = (d.kwargs.get? k).isSome)
    (h : (s.dynamic c).SameLeaves (s.dynamic d)) : (s.masked c).SameLeaves (s.masked d) := by
  have hargs : ∀ i < c.args.length, ¬ Designates s.argnums c.args.length i →
      (argAt c.args i).paths = (argAt d.args i).paths := by
    intro i hi hd
    have hmap := h.map_args
    simp only [dynamic, dynamicArgs_eq_map, ← hn, List.map_map, List.map_inj_left,
      List.mem_filter, List.mem_range] at hmap
    exact hmap i ⟨hi, by simpa using hd⟩
  constructor
  · intro i
    simp only [masked, List.getElem?_map, List.getElem?_zipIdx, Option.map_map, ← hn]
    by_cases hi : i < c.args.length
    · rw [argAt_of_lt hi, argAt_of_lt (hn ▸ hi)]
      by_cases hd : Designates s.argnums c.args.length i
      · simp [hd]
      · simp [hd, hargs i hi hd]
    · rw [List.getElem?_eq_none (by omega), List.getElem?_eq_none (by omega)]
  · intro k
    rw [masked, masked, Kwargs.get?_map, Kwargs.get?_map, Option.map_map, Option.map_map]
    by_cases hk : k ∈ s.argnames
    · have hsome := hs k hk
      cases hc : c.kwargs.get? k <;> cases hd : d.kwargs.get? k <;> simp_all
    · have hkept := h.kwarg k
      rw [get?_dynamic c hk, get?_dynamic d hk] at hkept
      simpa [hk, Function.comp_def] using hkept

theorem mask_of_inBounds {ps : List Nat}
    (h : ensureInBounds true c.args.length s.argnums = .ok ps) : s.mask c = .ok (s.masked c) := by
  obtain ⟨m, hm⟩ : ∃ m, s.mask c = .ok m := by
    rw [mask, h]
    exact ⟨_, rfl⟩
  rw [hm, mask_ok hm]

end Statics

/-- Names of leaves are the same where the masked calls have leaves at the same places. -/
theorem nonStaticArgNames_congr {s : Statics} {c d : Call} {names : List String}
    (signature : Option Signature) (h : (s.masked c).SameLeaves (s.masked d))
    (hc : nonStaticArgNames signature c s = .ok names) (hd : s.mask d = .ok (s.masked d)) :
    nonStaticArgNames signature d s = .ok names := by
  simp only [nonStaticArgNames, bind_ok, pure_ok] at hc ⊢
  obtain ⟨m, hm, rfl⟩ := hc
  obtain rfl := Statics.mask_ok hm
  exact ⟨_, hd, (h.flatMap_namedArguments_eq signature).symm⟩

theorem Reduced.fixArgnums_inBounds {r r' : Reduced} {static : List Int} {args rest : List Value}
    (h : r.fixArgnums static args true = .ok (r', rest)) :
    ∃ ps, ensureInBounds true args.length static = .ok ps := by
  rcases fixArgnums_ok h with ⟨rfl, -, -⟩ | ⟨ps, -, -, hps, -⟩
  · exact ⟨[], rfl⟩
  · exact ⟨ps, hps⟩

namespace Staged

variable {f : Callable} {roles : Roles} {resolved : Resolved} {config : Config} {s : Staged}
  {cells : Cells} {c : Call} {l : Lowered}

/-- The designation of static arguments that every call is split by. -/
def statics (s : Staged) : Statics := ⟨s.resolved.staticArgnums, s.resolved.staticArgnames⟩

theorem split_mask {split : SplitCall} (hs : s.split c = .ok split) :
    s.statics.mask c = .ok (s.statics.masked c) := by
  obtain ⟨r, hnums, -⟩ := split_ok hs
  obtain ⟨ps, hps⟩ := Reduced.fixArgnums_inBounds hnums
  exact Statics.mask_of_inBounds hps

/-- Calls split into functions whose transforms are alike, with leaves at the same places in what
is left, have leaves at the same places in what was masked. -/
theorem split_sameLeaves {c₁ : Call} {split split₁ : SplitCall} (hs : s.split c = .ok split)
    (hs₁ : s.split c₁ = .ok split₁)
    (ha : List.Forall₂ Transform.Alike split₁.function.transforms split.function.transforms)
    (hl : split₁.dynamic.SameLeaves split.dynamic) :
    (s.statics.masked c₁).SameLeaves (s.statics.masked c) := by
  obtain ⟨r, hnums, hnames⟩ := split_ok hs
  obtain ⟨r₁, hnums₁, hnames₁⟩ := split_ok hs₁
  obtain ⟨ha', -⟩ := Reduced.fixArgnames_handed hnames hnames₁ ha
  have hdynamic : (s.statics.dynamic c₁).SameLeaves (s.statics.dynamic c) := by
    rwa [split_dynamic hs, split_dynamic hs₁] at hl
  refine Statics.sameLeaves_masked (Reduced.fixArgnums_length hnums hnums₁ ha' hl.length_args) ?_
    hdynamic
  intro k hk
  have hrel := Reduced.fixArgnames_alike hnames hnames₁ ha k hk
  generalize c₁.kwargs.get? k = v₁ at hrel ⊢
  generalize c.kwargs.get? k = v at hrel ⊢
  cases hrel <;> rfl

/-- Whatever entry a call is given, it has the provenance and the flags of donation of that
call. -/
theorem InUse.lower_metadata {o : Outcome Staged (Except Error Lowered)}
    (h : InUse f resolved config s) (hl : s.Lowers cells c o) (hr : o.result = .ok l) :
    s.provenance c = .ok l.entry.provenance ∧
      l.entry.donated =
        donationFlags s.resolved.donateArgnums s.resolved.donateArgnames l.dynamic ∧
      l.dynamic = s.statics.dynamic c := by
  cases hl with
  | unsplit => cases hr
  | aliased => cases hr
  | uncompiled => cases hr
  | @hit split key entry hs hu hkey hf =>
    cases hr
    obtain ⟨held, he, hsame⟩ := find?_some hf
    obtain ⟨cells₁, c₁, split₁, ticket, hs₁, hkey₁, hc₁⟩ := h.entries _ he
    obtain ⟨provenance, hp, rfl⟩ := compile_ok hc₁
    obtain ⟨k₁, hk₁, rfl⟩ := Option.map_eq_some_iff.mp hkey₁
    obtain ⟨k, hk, rfl⟩ := Option.map_eq_some_iff.mp hkey
    simp only [EntryKey.same, Bool.and_eq_true, beq_iff_eq] at hsame
    obtain ⟨⟨hfunction, hargs⟩, hkwargs⟩ := hsame
    obtain ⟨-, halike⟩ := Reduced.alike_of_same hk₁ hk hfunction
    have hleaves := Call.SameLeaves.of_abstract hargs hkwargs
    refine ⟨?_, hleaves.donationFlags_eq _ _, split_dynamic hs⟩
    simp only [Staged.provenance, Callable.provenance, bind_ok, pure_ok] at hp ⊢
    obtain ⟨names, hnames, rfl⟩ := hp
    exact ⟨names, nonStaticArgNames_congr _ (split_sameLeaves hs hs₁ halike hleaves) hnames
      (split_mask hs), rfl⟩
  | @compiled split entry hs hu hn hc =>
    cases hr
    obtain ⟨provenance, hp, rfl⟩ := compile_ok hc
    exact ⟨hp, rfl, split_dynamic hs⟩

/-- At any point of its use, a staged function gives every call that it accepts an entry with the
provenance and the flags of donation that compiling this very call gives, whether the entry was
compiled for it or found. -/
theorem lower_fresh (hs : s.Made f roles config) (uses : List Use) (cells : Cells) (c : Call)
    (hl : ((s.afterAll uses).lower cells c).result = .ok l) :
    f.provenance "jit" c ⟨s.resolved.staticArgnums, s.resolved.staticArgnames⟩ none f.signature =
        .ok l.entry.provenance ∧
      l.entry.donated =
        donationFlags s.resolved.donateArgnums s.resolved.donateArgnames l.dynamic ∧
      l.dynamic = Statics.dynamic ⟨s.resolved.staticArgnums, s.resolved.staticArgnames⟩ c := by
  have hu := hs.inUse.2.afterAll uses
  have hmeta := hu.lower_metadata ((s.afterAll uses).lowers cells c) hl
  rw [Staged.provenance, statics, hu.callable, hu.resolved] at hmeta
  have hown : (f.signature <|> f.signature) = (none <|> f.signature) := by
    cases f.signature <;> rfl
  rw [Callable.provenance, hown]
  exact hmeta

/-- A call that finds the entry of another: the leaves and the static zero are others, their
places are the same. -/
theorem lower_fresh_found :
    let f : Callable := .function (.echo 0)
    let roles : Roles := { staticArgnums := some (.int 0), donateArgnums := some (.int 1) }
    let s : Staged := { callable := f, resolved := ⟨[0], [], [0], []⟩, config := {} }
    let call (zero : UInt64) (n : Int64) : Call :=
      ⟨[.float ⟨zero⟩, .tuple [.int n, .absent]], .ofList [("x", .list [.int n])]⟩
    let used := s.afterAll [.call .blank (call 0 1)]
    let found := used.lower World.blank.cells (call 0x8000000000000000 2)
    s.Made f roles {} ∧ found.events = [.entryHit "echo"] ∧ ∃ l, found.result = .ok l ∧
      f.provenance "jit" (call 0x8000000000000000 2) ⟨[0], []⟩ none none =
        .ok l.entry.provenance ∧
      l.entry.provenance.argNames = ["args[1][0]", "kwargs['x'][0]"] ∧
      l.entry.donated = [true, false] := by
  intro f roles s call used found
  have hs : s.Made f roles {} := .of_resolve (by with_unfolding_all rfl)
  obtain ⟨l, hl⟩ := exists_ok (x := found.result) rfl
  obtain ⟨hprovenance, hdonated, hdynamic⟩ := lower_fresh hs _ _ _ hl
  refine ⟨hs, rfl, l, hl, hprovenance, ?_, ?_⟩
  · cases hl
    rfl
  · rw [hdonated, hdynamic]
    rfl

end Staged

end Staging
