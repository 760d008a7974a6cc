import Staging.Proofs.Metadata
import Staging.Proofs.Rebasing
import Staging.Proofs.RolePairs

namespace Staging

open Results

/-- What an index of a role stands for in the list of all arguments. -/
def indexIn (signature : Option Signature) (i : Int) : Int :=
  match signature with
  | some sig => sig.wrapIndex i
  | none => i

/-- Positions in the list of all arguments, in order and each once: those that the given indices
stand for or, where there are none, those of the parameters that are named. -/
structure Positions (signature : Option Signature) (given : Option Value) (names : List String)
    (positions : List Int) : Prop where
  sorted : positions.Pairwise (· < ·)
  of_given : ∀ v ∈ given, ∃ is, v.toIndices = .ok is ∧
    ∀ i, i ∈ positions ↔ ∃ j ∈ is, indexIn signature j = i
  of_names : given = none → ∀ i, i ∈ positions ↔ ∃ sig ∈ signature, ∃ (k : Nat) (q : Parameter),
    sig.parameters[k]? = some q ∧ q.kind = .positionalOrKeyword ∧ i = k ∧ q.name ∈ names
  wrapped : ∀ sig ∈ signature, sig.hasVarPositional = false →
    ∀ i ∈ positions, 0 ≤ i ∧ i < sig.numPositional

namespace Signature

variable {sig : Signature} {argnums argnames : Option Value} {role : Role}

theorem Reads.positions_of (h : sig.Reads argnums argnames role) :
    Positions (some sig) argnums role.argnames role.argnums := by
  refine ⟨h.argnums_pairwise, ?_, ?_, ?_⟩
  · rintro v hv
    obtain ⟨⟨nums, names, ⟨field, hnums⟩, -, rfl⟩, -, -⟩ := h
    obtain ⟨read, hread, -, rfl⟩ := wrapArgnums_ok hnums
    obtain rfl : argnums = some v := hv
    obtain ⟨is, his, rfl⟩ := map_ok.mp hread
    refine ⟨is, his, fun i => ?_⟩
    have hrole : (sig.completeRole (some (is.map sig.wrapIndex)) names).argnums =
        ascending (is.map sig.wrapIndex) := by
      cases names <;> rfl
    rw [Option.map_some, hrole, mem_ascending, List.mem_map]
    rfl
  · rintro rfl i
    obtain ⟨⟨nums, names, ⟨field, hnums⟩, -, rfl⟩, -, -⟩ := h
    obtain ⟨read, hread, -, rfl⟩ := wrapArgnums_ok hnums
    cases hread
    cases names with
    | none => simp [completeRole]
    | some names =>
      simp only [Option.map_none, completeRole, mem_ascending, mem_positionsOf, mem_eitherWay,
        Option.mem_some_iff, exists_eq_left']
      grind
  · rintro _ ⟨⟩ hv
    exact h.argnums_bounds hv

end Signature

namespace Roles

variable {function : String} {signature : Option Signature} {roles : Roles} {p : RolePair}

theorem unsigned_positions {given : Option Value} {nums : Option (List Int)}
    (h : readGiven Value.toIndices given = .ok nums) (names : List String) :
    Positions none given names (ascending (nums.getD [])) := by
  refine ⟨ascending_pairwise _, ?_, ?_, by rintro _ ⟨⟩⟩
  · rintro v ⟨⟩
    obtain ⟨is, his, rfl⟩ := map_ok.mp h
    exact ⟨is, his, fun i => by simp [mem_ascending, indexIn]⟩
  · rintro rfl i
    cases h
    simp [ascending]

theorem pair_positions (h : roles.pair function signature = .ok p) :
    Positions signature roles.staticArgnums p.static.argnames p.static.argnums ∧
      Positions signature roles.donateArgnums p.donate.argnames p.donate.argnums := by
  cases signature with
  | some sig =>
    obtain ⟨hstatic, hdonate⟩ := Signature.rolePair_reads h
    exact ⟨hstatic.positions_of, hdonate.positions_of⟩
  | none =>
    obtain ⟨-, _, _, _, hsn, -, hdn, rfl⟩ := unsignedPair_reads h
    exact ⟨unsigned_positions hsn _, unsigned_positions hdn _⟩

end Roles

/-- The flags of a call by the positions of all its arguments: one for each leaf of the arguments
that are not static, in the order of the leaves. -/
def RolePair.flags (p : RolePair) (c : Call) : List Bool :=
  (c.args.zipIdx.flatMap fun (v, i) =>
      if Designates p.static.argnums c.args.length i then []
      else List.replicate v.numLeaves (decide ((i : Int) ∈ p.donate.argnums))) ++
    c.kwargs.entries.flatMap fun (k, v) =>
      if k ∈ p.static.argnames then []
      else List.replicate v.numLeaves (decide (k ∈ p.donate.argnames))

/-- Items that are kept are counted anew, each by those kept before it. -/
theorem zipIdx_kept {α : Type} (keep : Nat → Prop) [DecidablePred keep] (xs : List α) (k : Nat) :
    (((xs.zipIdx k).filter fun e => keep e.2).map Prod.fst).zipIdx (Nat.count keep k) =
      ((xs.zipIdx k).filter fun e => keep e.2).map fun e => (e.1, Nat.count keep e.2) := by
  induction xs generalizing k with
  | nil => rfl
  | cons x xs ih =>
    have hrest := ih (k + 1)
    rw [Nat.count_succ] at hrest
    by_cases hk : keep k <;> simpa [List.zipIdx_cons, hk] using hrest

/-- Below the number of arguments, a list of positions from the front stands for its members. -/
theorem designates_iff_mem {static : List Int} (hs : ∀ s ∈ static, 0 ≤ s) {numArgs i : Nat}
    (hi : i < numArgs) : Designates static numArgs i ↔ (i : Int) ∈ static := by
  constructor
  · rintro ⟨j, hj, rfl | hend⟩
    · exact hj
    · have := hs j hj
      omega
  · intro h
    exact ⟨i, h, .inl rfl⟩

/-- An argument that is left is donated exactly if the number of those left before it is among
the rebased positions. -/
theorem count_mem_iff {donate static out : List Int} (h : rebaseDonated donate static = .ok out)
    {numArgs i : Nat} (hi : i < numArgs) (hd : ¬ Designates static numArgs i) :
    (Nat.count (fun j => ¬ Designates static numArgs j) i : Int) ∈ out ↔ (i : Int) ∈ donate := by
  rcases (rebaseDonated_ok_iff.mp h).1 with rfl | hr
  · obtain ⟨-, rfl⟩ := rebaseDonated_ok_iff.mp h
    simp [ascending]
  · have hkept : ∀ j < numArgs, ¬ Designates static numArgs j ↔ (j : Int) ∉ static :=
      fun j hj => not_congr (designates_iff_mem hr.static_nonneg hj)
    -- static positions past the end of the call are not among those below `i`
    have hcount : Nat.count (fun j => ¬ Designates static numArgs j) i = rank static i := by
      apply Nat.le_antisymm
      · exact Nat.count_mono_left fun j hj => (hkept j (by omega)).mp
      · exact Nat.count_mono_left fun j hj => (hkept j (by omega)).mpr
    rw [hcount, rank_mem_iff h ((hkept i hi).mp hd)]

/-- The flags for what is left of a call, by rebased positions, are those of the call as it was
made. -/
theorem Roles.Resolves.flags {function : String} {signature : Option Signature} {roles : Roles}
    {p : RolePair} {r : Resolved} (h : roles.Resolves function signature p r) (c : Call) :
    donationFlags r.donateArgnums r.donateArgnames
        (Statics.dynamic ⟨r.staticArgnums, r.staticArgnames⟩ c) = p.flags c := by
  have hargs : (dynamicArgs p.static.argnums c.args).zipIdx =
      (c.args.zipIdx.filter fun e => ¬ Designates p.static.argnums c.args.length e.2).map
        fun e => (e.1, Nat.count (fun j => ¬ Designates p.static.argnums c.args.length j) e.2) :=
    zipIdx_kept (fun j => ¬ Designates p.static.argnums c.args.length j) c.args 0
  have hkwargs : (c.kwargs.filter (!p.static.argnames.contains ·.1)).entries =
      c.kwargs.entries.filter fun e => ¬ e.1 ∈ p.static.argnames := by
    simp [Kwargs.filter]
  rw [donationFlags, Statics.dynamic, h.static.1, h.static.2, h.donateArgnames, hargs, hkwargs,
    RolePair.flags, flatMap_skip, flatMap_skip, List.flatMap_map]
  congr 1
  · apply List.flatMap_congr
    intro e he
    obtain ⟨hmem, hd⟩ := List.mem_filter.mp he
    have hi := (List.mem_zipIdx' hmem).1
    have hflag := count_mem_iff h.rebased hi (by simpa using hd)
    simp [List.contains_eq_mem, hflag]
  · apply List.flatMap_congr
    intro e _
    simp [List.contains_eq_mem]

namespace Staged

variable {f : Callable} {roles : Roles} {config : Config} {s : Staged}

/-- At any point of its use, the entry that a staged function gives a call has one flag for each
leaf of the arguments that are not static, and the flag says whether the argument is donated: by
its position in the call as it was made, or by its name. -/
theorem lower_donated (hs : s.Made f roles config) :
    ∃ p, roles.Resolves f.name f.signature p s.resolved ∧
      Positions f.signature roles.staticArgnums p.static.argnames p.static.argnums ∧
      Positions f.signature roles.donateArgnums p.donate.argnames p.donate.argnums ∧
      ∀ (uses : List Use) (cells : Cells) (c : Call) (l : Lowered),
        ((s.afterAll uses).lower cells c).result = .ok l → l.entry.donated = p.flags c := by
  obtain ⟨hresolve, hu⟩ := hs.inUse
  obtain ⟨p, hp⟩ := Roles.resolve_ok_iff.mp hresolve
  obtain ⟨hstatic, hdonate⟩ := Roles.pair_positions hp.pair
  refine ⟨p, hp, hstatic, hdonate, ?_⟩
  intro uses cells c l hl
  have hu := hu.afterAll uses
  obtain ⟨-, hdonated, hdynamic⟩ := hu.lower_metadata ((s.afterAll uses).lowers cells c) hl
  rw [hdonated, hdynamic, statics, hu.resolved]
  exact hp.flags c

/-- A call with fewer arguments than the static and donated positions reach. -/
theorem lower_donated_short :
    let f : Callable := .function (.echo 0)
    let roles : Roles :=
      { staticArgnums := some (.tuple [.int 0, .int 2, .int 5])
        donateArgnums := some (.tuple [.int 7, .int 3, .int 1, .int 3]) }
    let s : Staged := { callable := f, resolved := ⟨[0, 1, 4], [], [0, 2, 5], []⟩, config := {} }
    let c : Call := ⟨[.int 0, .tuple [.int 1, .int 1], .int 2, .int 3, .int 4],
      .ofList [("x", .int 5)]⟩
    s.Made f roles {} ∧ ∃ l, (s.lower World.blank.cells c).result = .ok l ∧
      l.entry.donated = [true, true, true, false, false] := by
  intro f roles s c
  have hs : s.Made f roles {} := .of_resolve (by with_unfolding_all rfl)
  obtain ⟨l, hl⟩ := exists_ok (x := (s.lower World.blank.cells c).result) rfl
  obtain ⟨p, hp, -, -, hflags⟩ := lower_donated hs
  have hpair : roles.pair f.name f.signature = .ok ⟨⟨[0, 2, 5], []⟩, ⟨[1, 3, 7], []⟩⟩ := by with_unfolding_all rfl
  obtain rfl := Except.ok.inj (hp.pair.symm.trans hpair)
  exact ⟨hs, l, hl, hflags [] _ _ _ hl⟩

end Staged

end Staging
