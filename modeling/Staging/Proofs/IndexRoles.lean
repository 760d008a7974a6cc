import Staging.Proofs.Rebasing
import Staging.Proofs.Slots
import Staging.Proofs.Spelling
import Staging.Proofs.Validation

namespace Staging

open Results

/-- Integers and booleans are indices. -/
inductive Value.IsIndex : Value → Int → Prop where
  | int (n : Int64) : IsIndex (.int n) n.toInt
  | bool (b : Bool) : IsIndex (.bool b) b.toInt

theorem Value.Lists.indices {v : Value} {is : List Int} (h : v.Lists Value.IsIndex is) :
    v.toIndices = .ok is := by
  obtain ⟨read, hread, hsame⟩ := h.toIndices (R := Eq) fun v i hv => by
    cases hv with
    | int n => exact ⟨_, rfl, rfl⟩
    | bool b => exact ⟨_, rfl, rfl⟩
  rw [List.forall₂_eq_eq_eq] at hsame
  rw [hread, hsame]

/-- A number that 64 bits with sign can hold. -/
def InInt64 (n : Int) : Prop := Int64.minValue.toInt ≤ n ∧ n ≤ Int64.maxValue.toInt

/-- The positions that indices stand for, in ascending order. -/
def designated (is : List Int) (n : Nat) : List Nat :=
  (List.range n).filter fun k => Designates is n k

/-- The positions that are left, in ascending order. -/
def undesignated (is : List Int) (n : Nat) : List Nat :=
  (List.range n).filter fun k => ¬ Designates is n k

theorem mem_designated {is : List Int} {n k : Nat} :
    k ∈ designated is n ↔ k < n ∧ Designates is n k := by
  simp [designated]

/-- The positions picked out of a range stand each after those picked below it. -/
theorem getElem?_filter_range {p : Nat → Prop} [DecidablePred p] {n k : Nat} (hk : k < n)
    (hp : p k) : ((List.range n).filter (p ·))[Nat.count p k]? = some k := by
  induction n with
  | zero => omega
  | succ n ih =>
    rw [List.range_succ, List.filter_append]
    by_cases hlt : k < n
    · have := ih hlt
      rw [List.getElem?_append_left (List.getElem?_eq_some_iff.mp this).1, this]
    · obtain rfl : k = n := by omega
      have hlen : ((List.range k).filter (p ·)).length = Nat.count p k := by
        rw [Nat.count, List.countP_eq_length_filter]
      rw [List.getElem?_append_right (Nat.le_of_eq hlen), hlen]
      simp [hp]

namespace Signature

variable {sig : Signature} {is static donate : List Int} {n k : Nat}

/-- All indices are of positional parameters, from the front or from the end. -/
def InBounds (sig : Signature) (is : List Int) : Prop :=
  ∀ i ∈ is, -(sig.numPositional : Int) ≤ i ∧ i < sig.numPositional

/-- The names, in ascending order, of the parameters at the positions designated that may be
passed either way. -/
structure NamesOf (sig : Signature) (is : List Int) (names : List String) : Prop where
  ordered : names.Pairwise (· < ·)
  mem_iff : ∀ name, name ∈ names ↔ ∃ k ∈ designated is sig.numPositional,
    ∃ q, sig.parameters[k]? = some q ∧ q.kind = .positionalOrKeyword ∧ q.name = name

/-- The role that indices alone make. -/
def roleAt (sig : Signature) (is : List Int) : Role :=
  sig.completeRole (some (is.map sig.wrapIndex)) none

theorem ascending_argnums_roleAt (sig : Signature) (is : List Int) :
    ascending (sig.roleAt is).argnums = (sig.roleAt is).argnums :=
  (ascending_pairwise _).eq_of_mem_iff (ascending_pairwise _) fun _ => mem_ascending

theorem wrapIndex_of_bounds (hv : sig.hasVarPositional = false) (i : Int) :
    sig.wrapIndex i = if i < 0 then i + sig.numPositional else i := by
  simp [wrapIndex, hv]

theorem argnums_roleAt (hv : sig.hasVarPositional = false) (h : sig.InBounds is) :
    (sig.roleAt is).argnums = (designated is sig.numPositional).map Nat.cast := by
  refine (ascending_pairwise _).eq_of_mem_iff ?_ fun i => ?_
  · rw [List.pairwise_map]
    exact (List.pairwise_lt_range.filter _).imp fun h => by exact_mod_cast h
  · rw [mem_ascending, List.mem_map, List.mem_map]
    constructor
    · intro hi
      obtain ⟨j, hj, rfl⟩ := hi
      have hb := h j hj
      rw [wrapIndex_of_bounds hv]
      refine ⟨(if j < 0 then j + sig.numPositional else j).toNat, ?_, ?_⟩
      · refine mem_designated.mpr ⟨by split <;> omega, j, hj, by split <;> omega⟩
      · split <;> omega
    · intro hk
      obtain ⟨k, hk, rfl⟩ := hk
      obtain ⟨hlt, j, hj, hkj⟩ := mem_designated.mp hk
      refine ⟨j, hj, ?_⟩
      have hb := h j hj
      rw [wrapIndex_of_bounds hv]
      split <;> omega

theorem argnames_roleAt (hv : sig.hasVarPositional = false) (h : sig.InBounds is) :
    sig.NamesOf is (sig.roleAt is).argnames := by
  refine ⟨ascending_pairwise _, fun name => ?_⟩
  have hnums : ∀ i : Int, i ∈ is.map sig.wrapIndex ↔
      ∃ k ∈ designated is sig.numPositional, (k : Int) = i := by
    intro i
    rw [← mem_ascending, ← List.mem_map, ← argnums_roleAt hv h]
    rfl
  change name ∈ ascending (sig.namesAt _) ↔ _
  rw [mem_ascending, mem_namesAt]
  simp only [hnums, mem_eitherWay]
  constructor
  · intro hname
    obtain ⟨_, ⟨k, hk, rfl⟩, j, q, hq, hkind, hkj, rfl⟩ := hname
    obtain rfl : k = j := by exact_mod_cast hkj
    exact ⟨k, hk, q, hq, hkind, rfl⟩
  · intro hname
    obtain ⟨k, hk, q, hq, hkind, rfl⟩ := hname
    exact ⟨k, ⟨k, hk, rfl⟩, k, q, hq, hkind, rfl, rfl⟩

theorem wrapArgnums_of_lists (hv : sig.hasVarPositional = false) {v : Value}
    (h : v.Lists Value.IsIndex is) {field : String} {nums : Option (List Int)} :
    sig.wrapArgnums field (some v) = .ok nums ↔
      sig.InBounds is ∧ nums = some (is.map sig.wrapIndex) := by
  have hread : readGiven Value.toIndices (some v) = .ok (some is) := by
    rw [readGiven, h.indices]
    rfl
  rw [wrapArgnums, hread]
  constructor
  · intro hw
    obtain ⟨_, ⟨⟩, hw⟩ := bind_ok.mp hw
    obtain ⟨⟨⟩, hvalid, hw⟩ := bind_ok.mp hw
    exact ⟨(validateArgnums_ok_iff.mp hvalid).resolve_left (by simp [hv]), (pure_ok.mp hw).symm⟩
  · intro hb
    obtain ⟨hb, rfl⟩ := hb
    exact bind_ok.mpr ⟨_, rfl, bind_ok.mpr ⟨(), validateArgnums_ok_iff.mpr (.inr hb), rfl⟩⟩

/-- What is found from indices in bounds is valid. -/
theorem validateRole_roleAt (hv : sig.hasVarPositional = false) (h : sig.InBounds is)
    (numsField namesField : String) :
    sig.validateRole (sig.roleAt is) numsField namesField = .ok () := by
  refine bind_ok.mpr ⟨(), validateArgnums_ok_iff.mpr (.inr fun i hi => ?_),
    validateArgnames_ok_iff.mpr fun name hname => ?_⟩
  · rw [argnums_roleAt hv h] at hi
    obtain ⟨k, hk, rfl⟩ := List.mem_map.mp hi
    have := (mem_designated.mp hk).1
    omega
  · obtain ⟨k, -, q, hq, hkind, rfl⟩ := ((argnames_roleAt hv h).mem_iff name).mp hname
    refine passable_of_takes (takes_iff.mpr ⟨q, List.mem_of_getElem? hq, ?_, rfl⟩)
    rw [hkind]
    rfl

theorem rolePair_of_lists (hv : sig.hasVarPositional = false) {staticNums donateNums : Value}
    (hs : staticNums.Lists Value.IsIndex static) (hd : donateNums.Lists Value.IsIndex donate)
    {p : RolePair} :
    sig.rolePair { staticArgnums := some staticNums, donateArgnums := some donateNums } = .ok p ↔
      sig.InBounds static ∧ sig.InBounds donate ∧ p = ⟨sig.roleAt static, sig.roleAt donate⟩ := by
  constructor
  · intro h
    simp only [rolePair, bind_ok, wrapArgnums_of_lists hv hs, wrapArgnums_of_lists hv hd,
      pure_ok] at h
    obtain ⟨_, ⟨hsb, rfl⟩, _, ⟨hdb, rfl⟩, _, ⟨⟩, _, ⟨⟩, _, -, _, -, rfl⟩ := h
    exact ⟨hsb, hdb, rfl⟩
  · intro h
    obtain ⟨hsb, hdb, rfl⟩ := h
    simp only [rolePair, bind_ok, wrapArgnums_of_lists hv hs, wrapArgnums_of_lists hv hd, pure_ok]
    exact ⟨_, ⟨hsb, rfl⟩, _, ⟨hdb, rfl⟩, none, rfl, none, rfl, (),
      validateRole_roleAt hv hsb _ _, (), validateRole_roleAt hv hdb _ _, rfl⟩

/-- What is resolved from indices. -/
structure ResolvesIndices (sig : Signature) (static donate : List Int) (r : Resolved) : Prop where
  staticArgnums : r.staticArgnums = (designated static sig.numPositional).map Nat.cast
  staticArgnames : sig.NamesOf static r.staticArgnames
  donateArgnames : sig.NamesOf donate r.donateArgnames
  donateArgnums_nonneg : ∀ d ∈ r.donateArgnums, 0 ≤ d
  donateArgnums : r.donateArgnums.map (fun d => (undesignated static sig.numPositional)[d.toNat]?) =
    (designated donate sig.numPositional).map some

/-- No position is designated twice, once for each role. -/
def Apart (sig : Signature) (static donate : List Int) : Prop :=
  ∀ k < sig.numPositional, ¬ (Designates static sig.numPositional k ∧
    Designates donate sig.numPositional k)

theorem mem_argnums_roleAt (hv : sig.hasVarPositional = false) (h : sig.InBounds is) {i : Int} :
    i ∈ (sig.roleAt is).argnums ↔ ∃ k ∈ designated is sig.numPositional, (k : Int) = i := by
  rw [argnums_roleAt hv h, List.mem_map]

theorem argnums_roleAt_nonneg (hv : sig.hasVarPositional = false) (h : sig.InBounds is) :
    ∀ i ∈ (sig.roleAt is).argnums, 0 ≤ i := by
  intro i hi
  obtain ⟨k, -, rfl⟩ := (mem_argnums_roleAt hv h).mp hi
  exact Int.natCast_nonneg k

theorem natCast_mem_argnums_roleAt (hv : sig.hasVarPositional = false) (h : sig.InBounds is)
    (hk : k < sig.numPositional) :
    (k : Int) ∈ (sig.roleAt is).argnums ↔ Designates is sig.numPositional k := by
  rw [mem_argnums_roleAt hv h]
  constructor
  · intro hmem
    obtain ⟨j, hj, hjk⟩ := hmem
    obtain rfl : j = k := by exact_mod_cast hjk
    exact (mem_designated.mp hj).2
  · intro hdesignates
    exact ⟨k, mem_designated.mpr ⟨hk, hdesignates⟩, rfl⟩

theorem disjoint_iff_apart (hv : sig.hasVarPositional = false) (hs : sig.InBounds static)
    (hd : sig.InBounds donate) :
    (∀ d ∈ (sig.roleAt donate).argnums, d ∉ (sig.roleAt static).argnums) ↔
      sig.Apart static donate := by
  constructor
  · intro h k hk hboth
    refine h k ?_ ?_
    · exact (natCast_mem_argnums_roleAt hv hd hk).mpr hboth.2
    · exact (natCast_mem_argnums_roleAt hv hs hk).mpr hboth.1
  · intro h d hmem hmem'
    obtain ⟨k, hk, rfl⟩ := (mem_argnums_roleAt hv hd).mp hmem
    obtain ⟨hlt, hdonated⟩ := mem_designated.mp hk
    exact h k hlt ⟨(natCast_mem_argnums_roleAt hv hs hlt).mp hmem', hdonated⟩

/-- Names are of one position each, so roles that share no position share no name. -/
theorem Apart.names (h : sig.Apart static donate) {names others : List String}
    (hs : sig.NamesOf static names) (hd : sig.NamesOf donate others) :
    ∀ name ∈ others, name ∉ names := by
  intro name hdonated hstatic
  obtain ⟨k, hk, q, hq, -, rfl⟩ := (hd.mem_iff name).mp hdonated
  obtain ⟨j, hj, p, hp, -, hname⟩ := (hs.mem_iff q.name).mp hstatic
  obtain rfl := getElem?_name_inj hp hq hname
  exact h j (mem_designated.mp hk).1 ⟨(mem_designated.mp hj).2, (mem_designated.mp hk).2⟩

theorem undesignated_eq (hv : sig.hasVarPositional = false) (h : sig.InBounds is) :
    undesignated is sig.numPositional =
      (List.range sig.numPositional).filter fun k : Nat =>
        (k : Int) ∉ (sig.roleAt is).argnums := by
  apply List.filter_congr
  intro k hk
  simp only [natCast_mem_argnums_roleAt hv h (List.mem_range.mp hk)]

/-- A donated position is found by its rank among those that are not static. -/
theorem getElem?_undesignated (hv : sig.hasVarPositional = false) (hs : sig.InBounds static)
    (hk : k < sig.numPositional) (hn : (k : Int) ∉ (sig.roleAt static).argnums) :
    (undesignated static sig.numPositional)[rank (sig.roleAt static).argnums k]? = some k := by
  rw [undesignated_eq hv hs]
  exact getElem?_filter_range hk hn

end Signature

namespace Roles

open Signature

variable {function : String} {sig : Signature} {static donate : List Int}
  {staticNums donateNums : Value} {r : Resolved}

/-- Both roles by index, with no names. -/
def byIndex (staticNums donateNums : Value) : Roles :=
  { staticArgnums := some staticNums, donateArgnums := some donateNums }

theorem resolves_of_indices (hv : sig.hasVarPositional = false)
    (hs : staticNums.Lists Value.IsIndex static) (hd : donateNums.Lists Value.IsIndex donate)
    (h : (byIndex staticNums donateNums).resolve function (some sig) = .ok r) :
    (sig.InBounds static ∧ sig.InBounds donate ∧ sig.Apart static donate) ∧
      sig.ResolvesIndices static donate r := by
  obtain ⟨p, hp⟩ := resolve_ok_iff.mp h
  obtain ⟨hsb, hdb, rfl⟩ := (rolePair_of_lists hv hs hd).mp hp.pair
  have hrebased : rebaseDonated (sig.roleAt donate).argnums (sig.roleAt static).argnums =
    .ok r.donateArgnums := hp.rebased
  obtain ⟨hor, hout⟩ := rebaseDonated_ok_iff.mp hrebased
  have hdisjoint : ∀ d ∈ (sig.roleAt donate).argnums, d ∉ (sig.roleAt static).argnums := by
    rcases hor with hnil | hr
    · simp [hnil]
    · exact hr.disjoint
  rw [sig.ascending_argnums_roleAt donate, argnums_roleAt hv hdb, List.map_map] at hout
  have hrank := sub_countP_eq_rank (argnums_roleAt_nonneg hv hsb)
  refine ⟨⟨hsb, hdb, (disjoint_iff_apart hv hsb hdb).mp hdisjoint⟩, ?_, ?_, ?_, ?_, ?_⟩
  · rw [hp.static.1, argnums_roleAt hv hsb]
  · rw [hp.static.2]
    exact argnames_roleAt hv hsb
  · rw [hp.donateArgnames]
    exact argnames_roleAt hv hdb
  · intro d hmem
    rw [hout] at hmem
    obtain ⟨k, hk, rfl⟩ := List.mem_map.mp hmem
    rw [Function.comp_apply, hrank k]
    exact Int.natCast_nonneg _
  · rw [hout, List.map_map]
    apply List.map_congr_left
    intro k hk
    rw [Function.comp_apply, Function.comp_apply, hrank k, Int.toNat_natCast]
    refine getElem?_undesignated hv hsb (mem_designated.mp hk).1 (hdisjoint _ ?_)
    exact (mem_argnums_roleAt hv hdb).mpr ⟨k, hk, rfl⟩

theorem exists_resolve_of_indices (hv : sig.hasVarPositional = false)
    (hs : staticNums.Lists Value.IsIndex static) (hd : donateNums.Lists Value.IsIndex donate)
    (hsb : sig.InBounds static) (hdb : sig.InBounds donate) (h : sig.Apart static donate) :
    ∃ r, (byIndex staticNums donateNums).resolve function (some sig) = .ok r := by
  have hrebased := rebaseDonated_ok_iff.mpr ⟨.inr ⟨argnums_roleAt_nonneg hv hdb,
    argnums_roleAt_nonneg hv hsb, (disjoint_iff_apart hv hsb hdb).mpr h⟩, rfl⟩
  refine ⟨⟨_, (sig.roleAt donate).argnames, (sig.roleAt static).argnums,
    (sig.roleAt static).argnames⟩, resolve_ok_iff.mpr ⟨⟨sig.roleAt static, sig.roleAt donate⟩,
      (rolePair_of_lists hv hs hd).mpr ⟨hsb, hdb, rfl⟩, ?_, hrebased, rfl, rfl, rfl⟩⟩
  exact h.names (argnames_roleAt hv hsb) (argnames_roleAt hv hdb)

/-- Every difference that rebasing takes lies among the positions. -/
theorem differences_of_indices (hv : sig.hasVarPositional = false)
    (hs : staticNums.Lists Value.IsIndex static) (hd : donateNums.Lists Value.IsIndex donate)
    {p : RolePair} (h : (byIndex staticNums donateNums).pair function (some sig) = .ok p) :
    ∀ x ∈ differences 0 (ascending p.donate.argnums) (ascending p.static.argnums),
      0 ≤ x ∧ x < sig.numPositional := by
  obtain ⟨hsb, hdb, rfl⟩ := (rolePair_of_lists hv hs hd).mp h
  intro x hx
  obtain ⟨h0, d, hmem, hxd⟩ := differences_bounds (ascending_pairwise _) (ascending_pairwise _)
    (Int.le_refl 0) (fun d hmem => argnums_roleAt_nonneg hv hdb d (mem_ascending.mp hmem))
    (fun s hmem => argnums_roleAt_nonneg hv hsb s (mem_ascending.mp hmem)) x hx
  obtain ⟨k, hk, rfl⟩ := (mem_argnums_roleAt hv hdb).mp (mem_ascending.mp hmem)
  have := (mem_designated.mp hk).1
  omega

/-- Where the positional parameters have an end, roles given by index resolve exactly if every
index is of one of these parameters and no position has both roles. What they resolve to are the
static positions and, by their place among the positions left, the donated ones, with the names of
those parameters that may be passed either way. For 64-bit indices nothing that is computed on
the way leaves 64 bits. -/
theorem resolve_byIndex (function : String) (hv : sig.hasVarPositional = false)
    (hs : staticNums.Lists Value.IsIndex static) (hd : donateNums.Lists Value.IsIndex donate) :
    ((∃ r, (byIndex staticNums donateNums).resolve function (some sig) = .ok r) ↔
      sig.InBounds static ∧ sig.InBounds donate ∧ sig.Apart static donate) ∧
    (∀ r, (byIndex staticNums donateNums).resolve function (some sig) = .ok r →
      sig.ResolvesIndices static donate r) ∧
    (InInt64 sig.numPositional → InInt64 (-(sig.numPositional : Int)) ∧
      (∀ i : Int64, InInt64 (sig.wrapIndex i.toInt)) ∧
      ∀ p, (byIndex staticNums donateNums).pair function (some sig) = .ok p →
        ∀ x ∈ differences 0 (ascending p.donate.argnums) (ascending p.static.argnums),
          InInt64 x) := by
  refine ⟨⟨fun h => ?_, fun h => ?_⟩, fun r h => (resolves_of_indices hv hs hd h).2, fun hn => ?_⟩
  · obtain ⟨r, hr⟩ := h
    exact (resolves_of_indices hv hs hd hr).1
  · exact exists_resolve_of_indices hv hs hd h.1 h.2.1 h.2.2
  · have hmin : Int64.minValue.toInt = -2 ^ 63 := Int64.toInt_minValue
    have hmax : Int64.maxValue.toInt = 2 ^ 63 - 1 := Int64.toInt_maxValue
    unfold InInt64 at hn ⊢
    refine ⟨by omega, fun i => ?_, fun p hp x hx => ?_⟩
    · have hlow := i.le_toInt
      have hhigh := i.toInt_lt
      rw [wrapIndex_of_bounds hv]
      split <;> omega
    · have := differences_of_indices hv hs hd hp x hx
      omega

/-- A position-only parameter static, spelled both ways, and the last positional one donated. -/
theorem resolve_byIndex_both_ways :
    let sig : Signature := ⟨[{ name := "p", kind := .positionalOnly },
      { name := "a", kind := .positionalOrKeyword }, { name := "b", kind := .positionalOrKeyword },
      { name := "c", kind := .keywordOnly }, { name := "rest", kind := .varKeyword }], rfl⟩
    let staticNums : Value := .list [.int (-3), .bool false]
    let donateNums : Value := .tuple [.int 2, .int (-1)]
    sig.hasVarPositional = false ∧ staticNums.Lists Value.IsIndex [-3, 0] ∧
      donateNums.Lists Value.IsIndex [2, -1] ∧
      ∃ r, (byIndex staticNums donateNums).resolve "f" (some sig) = .ok r ∧
        r.staticArgnums = [0] ∧ sig.ResolvesIndices [-3, 0] [2, -1] r := by
  intro sig staticNums donateNums
  have hs : staticNums.Lists Value.IsIndex [-3, 0] :=
    .list (.cons (.int (-3)) (.cons (.bool false) .nil))
  have hd : donateNums.Lists Value.IsIndex [2, -1] :=
    .tuple (.cons (.int 2) (.cons (.int (-1)) .nil))
  have hv : sig.hasVarPositional = false := rfl
  obtain ⟨hiff, hok, -⟩ := resolve_byIndex "f" hv hs hd
  have hn : sig.numPositional = 3 := rfl
  obtain ⟨r, hr⟩ := hiff.mpr ⟨by rw [InBounds, hn]; decide, by rw [InBounds, hn]; decide,
    by rw [Apart, hn]; decide⟩
  refine ⟨hv, hs, hd, r, hr, ?_, hok r hr⟩
  rw [(hok r hr).staticArgnums, hn]
  decide

end Roles

end Staging
