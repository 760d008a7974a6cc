import Staging.Proofs.Results
import Staging.Proofs.Signatures
import Staging.Roles.Resolved

namespace Staging

open Results

theorem readGiven_some {α : Type} {f : Value → Except Error α} {given : Option Value}
    {r : Option α} (h : readGiven f given = .ok r) : ∀ v ∈ given, ∃ a, f v = .ok a := by
  cases given with
  | none => simp
  | some v =>
    obtain ⟨a, ha, -⟩ := map_ok.mp h
    simpa using ⟨a, ha⟩

theorem readGiven_isSome {α : Type} {f : Value → Except Error α} {given : Option Value}
    {r : Option α} (h : readGiven f given = .ok r) : r.isSome = given.isSome := by
  cases given with
  | none => cases h; rfl
  | some v =>
    obtain ⟨a, -, rfl⟩ := map_ok.mp h
    rfl

namespace Signature

variable {sig : Signature} {given : Option Value} {nums : Option (List Int)}

theorem validateArgnums_ok_iff {argnums : List Int} {field : String} :
    sig.validateArgnums argnums field = .ok () ↔ sig.hasVarPositional = true ∨
      ∀ i ∈ argnums, -(sig.numPositional : Int) ≤ i ∧ i < sig.numPositional := by
  unfold validateArgnums
  dsimp only
  split
  · rename_i h
    simpa using h
  · rename_i h
    simpa using h

/-- A name that an argument can be passed under: of no parameter that only positions reach, and of
one that takes its argument by name unless any other name is collected. -/
def Passable (sig : Signature) (name : String) : Prop :=
  sig.hasName name takesPositionOnly = false ∧
    (sig.varKeyword?.isSome = true ∨ sig.hasName name Parameter.Kind.acceptsKeyword = true)

theorem validateArgnames_ok_iff {argnames : List String} {field : String} :
    sig.validateArgnames argnames field = .ok () ↔ ∀ name ∈ argnames, sig.Passable name := by
  have hnone : ∀ p : String → Bool, ((ascending argnames).filter p).isEmpty = true ↔
      ∀ name ∈ argnames, p name = false := by
    intro p
    simp [List.filter_eq_nil_iff, mem_ascending]
  have hclosed := hnone (sig.hasName · takesPositionOnly)
  have hunknown := hnone fun name => !sig.hasName name Parameter.Kind.acceptsKeyword
  simp only [Bool.not_eq_false'] at hunknown
  unfold validateArgnames
  dsimp only
  split
  · rename_i hfound
    constructor
    · intro h
      cases h
    · intro h
      rw [hclosed.mpr fun name hname => (h name hname).1] at hfound
      cases hfound
  · rename_i hempty
    have hopen := hclosed.mp (by simpa using hempty)
    split
    · rename_i hknown
      rw [Bool.or_eq_true, hunknown] at hknown
      refine iff_of_true rfl fun name hname => ⟨hopen name hname, ?_⟩
      exact hknown.imp_right fun h => h name hname
    · rename_i hmissing
      rw [Bool.or_eq_true, hunknown] at hmissing
      refine iff_of_false (fun h => by cases h) fun h => hmissing ?_
      by_cases hk : sig.varKeyword?.isSome = true
      · exact .inl hk
      · exact .inr fun name hname => (h name hname).2.resolve_left hk

theorem wrapArgnums_ok {field : String} (h : sig.wrapArgnums field given = .ok nums) :
    ∃ read, readGiven Value.toIndices given = .ok read ∧
      (∀ is ∈ read, sig.validateArgnums is field = .ok ()) ∧
      nums = read.map (List.map sig.wrapIndex) := by
  unfold wrapArgnums at h
  rw [bind_ok] at h
  obtain ⟨read, hread, h⟩ := h
  refine ⟨read, hread, ?_⟩
  cases read with
  | none =>
    rw [pure_ok] at h
    exact ⟨by simp, h.symm⟩
  | some is =>
    rw [bind_ok] at h
    obtain ⟨⟨⟩, hvalid, h⟩ := h
    rw [pure_ok] at h
    exact ⟨by simpa using hvalid, h.symm⟩

/-- A role read from what is given, completed and found valid. -/
structure Reads (sig : Signature) (argnums argnames : Option Value) (role : Role) : Prop where
  completed : ∃ nums names, (∃ field, sig.wrapArgnums field argnums = .ok nums) ∧
    readGiven Value.toNames argnames = .ok names ∧ role = sig.completeRole nums names
  positions : ∃ field, sig.validateArgnums role.argnums field = .ok ()
  names : ∃ field, sig.validateArgnames role.argnames field = .ok ()

theorem rolePair_reads {roles : Roles} {p : RolePair} (h : sig.rolePair roles = .ok p) :
    sig.Reads roles.staticArgnums roles.staticArgnames p.static ∧
      sig.Reads roles.donateArgnums roles.donateArgnames p.donate := by
  simp only [rolePair, validateRole, bind_ok, pure_ok] at h
  obtain ⟨staticNums, hsn, donateNums, hdn, staticNames, hsa, donateNames, hda, _,
    ⟨⟨⟩, hsp, hsv⟩, _, ⟨⟨⟩, hdp, hdv⟩, rfl⟩ := h
  exact ⟨⟨⟨staticNums, staticNames, ⟨_, hsn⟩, hsa, rfl⟩, ⟨_, hsp⟩, ⟨_, hsv⟩⟩,
    ⟨⟨donateNums, donateNames, ⟨_, hdn⟩, hda, rfl⟩, ⟨_, hdp⟩, ⟨_, hdv⟩⟩⟩

/-- Parameters that may be passed either way, by position. -/
theorem mem_eitherWay {i : Int} {name : String} :
    (i, name) ∈ sig.eitherWay ↔ ∃ (k : Nat) (q : Parameter), sig.parameters[k]? = some q ∧
      q.kind = .positionalOrKeyword ∧ i = k ∧ name = q.name := by
  simp only [eitherWay, List.mem_filterMap, Prod.exists, List.mk_mem_zipIdx_iff_getElem?]
  constructor
  · intro h
    obtain ⟨q, k, hq, hsome⟩ := h
    split at hsome
    · rename_i hk
      cases hsome
      exact ⟨k, q, hq, hk, rfl, rfl⟩
    · cases hsome
  · intro h
    obtain ⟨k, q, hq, hk, rfl, rfl⟩ := h
    exact ⟨q, k, hq, by rw [if_pos hk]⟩

theorem mem_positionsOf {argnames : List String} {i : Int} :
    i ∈ sig.positionsOf argnames ↔ ∃ name ∈ argnames, (i, name) ∈ sig.eitherWay := by
  simp only [positionsOf, List.mem_filterMap, Prod.exists]
  constructor
  · intro h
    obtain ⟨j, name, hmem, hsome⟩ := h
    split at hsome
    · rename_i hname
      cases hsome
      exact ⟨name, hname, hmem⟩
    · cases hsome
  · intro h
    obtain ⟨name, hname, hmem⟩ := h
    exact ⟨i, name, hmem, by rw [if_pos hname]⟩

theorem mem_namesAt {argnums : List Int} {name : String} :
    name ∈ sig.namesAt argnums ↔ ∃ i ∈ argnums, (i, name) ∈ sig.eitherWay := by
  simp only [namesAt, List.mem_filterMap, Prod.exists]
  constructor
  · intro h
    obtain ⟨i, other, hmem, hsome⟩ := h
    split at hsome
    · rename_i hi
      cases hsome
      exact ⟨i, hi, hmem⟩
    · cases hsome
  · intro h
    obtain ⟨i, hi, hmem⟩ := h
    exact ⟨i, name, hmem, by rw [if_pos hi]⟩

/-- No two parameters have one name, so a name has one position. -/
theorem getElem?_name_inj {i j : Nat} {p q : Parameter} (hp : sig.parameters[i]? = some p)
    (hq : sig.parameters[j]? = some q) (h : p.name = q.name) : i = j := by
  have hnodup : (sig.parameters.map (·.name)).Nodup :=
    List.pairwise_map.mpr sig.wellFormed.distinct
  obtain ⟨hi, -⟩ := List.getElem?_eq_some_iff.mp hp
  refine (List.getElem?_inj (by simpa using hi) hnodup).mp ?_
  rw [List.getElem?_map, List.getElem?_map, hp, hq, Option.map_some, Option.map_some, h]

theorem mem_eitherWay_of_position {i : Nat} {q : Parameter} {name : String}
    (hq : sig.parameters[i]? = some q) :
    ((i : Int), name) ∈ sig.eitherWay ↔ q.kind = .positionalOrKeyword ∧ name = q.name := by
  rw [mem_eitherWay]
  constructor
  · intro h
    obtain ⟨j, p, hp, hk, hij, rfl⟩ := h
    obtain rfl : i = j := by exact_mod_cast hij
    rw [hq] at hp
    cases hp
    exact ⟨hk, rfl⟩
  · intro h
    exact ⟨i, q, hq, h.1, rfl, h.2⟩

theorem mem_eitherWay_of_name {i : Nat} {q : Parameter} {j : Int}
    (hq : sig.parameters[i]? = some q) :
    (j, q.name) ∈ sig.eitherWay ↔ q.kind = .positionalOrKeyword ∧ j = i := by
  rw [mem_eitherWay]
  constructor
  · intro h
    obtain ⟨k, p, hp, hk, rfl, hname⟩ := h
    obtain rfl := getElem?_name_inj hq hp hname
    rw [hq] at hp
    cases hp
    exact ⟨hk, rfl⟩
  · intro h
    exact ⟨i, q, hq, h.1, h.2, rfl⟩

/-- Parameters that take one positional argument come before all others. -/
theorem isPositional_of_lt {i : Nat} {q : Parameter} (hq : sig.parameters[i]? = some q)
    (hi : i < sig.numPositional) : q.kind.isPositional = true := by
  have hlen : i < sig.positional.length := by
    rwa [positional, ← List.countP_eq_length_filter]
  rw [parameters_eq, List.getElem?_append_left hlen] at hq
  exact (List.mem_filter.mp (List.mem_of_getElem? hq)).2

namespace Reads

variable {argnums argnames : Option Value} {role : Role} {i : Nat} {q : Parameter}

theorem argnums_pairwise (h : sig.Reads argnums argnames role) :
    role.argnums.Pairwise (· < ·) := by
  obtain ⟨⟨nums, names, -, -, rfl⟩, -, -⟩ := h
  cases nums <;> cases names
  · exact .nil
  all_goals exact ascending_pairwise _

/-- Where the positional parameters have an end, positions count from the front and are theirs. -/
theorem argnums_bounds (h : sig.Reads argnums argnames role)
    (hv : sig.hasVarPositional = false) : ∀ i ∈ role.argnums, 0 ≤ i ∧ i < sig.numPositional := by
  obtain ⟨⟨nums, names, ⟨field, hnums⟩, -, rfl⟩, ⟨_, hvalid⟩, -⟩ := h
  have hbound := (validateArgnums_ok_iff.mp hvalid).resolve_left (by simp [hv])
  intro i hi
  refine ⟨?_, (hbound i hi).2⟩
  obtain ⟨read, -, hread, rfl⟩ := wrapArgnums_ok hnums
  -- what is given is wrapped, what is found is the position of a parameter
  have hwrapped : ∀ is ∈ read, ∀ j ∈ is, 0 ≤ sig.wrapIndex j := by
    intro is his j hj
    have := (validateArgnums_ok_iff.mp (hread is his)).resolve_left (by simp [hv]) j hj
    unfold wrapIndex
    split
    · omega
    · rename_i hneg
      simpa [hv] using hneg
  cases read with
  | none =>
    cases names with
    | none => cases hi
    | some names =>
      obtain ⟨_, -, hmem⟩ := mem_positionsOf.mp (mem_ascending.mp hi)
      obtain ⟨k, _, -, -, rfl, -⟩ := mem_eitherWay.mp hmem
      exact Int.natCast_nonneg k
  | some is =>
    have hmem : i ∈ is.map sig.wrapIndex := by
      cases names <;> exact mem_ascending.mp hi
    obtain ⟨j, hj, rfl⟩ := List.mem_map.mp hmem
    exact hwrapped is rfl j hj

/-- Unless both halves are given, they are of the same parameters that may be passed either
way. -/
theorem agrees (h : sig.Reads argnums argnames role) (hone : argnums = none ∨ argnames = none)
    (hq : sig.parameters[i]? = some q) (hk : q.kind = .positionalOrKeyword) :
    (i : Int) ∈ role.argnums ↔ q.name ∈ role.argnames := by
  obtain ⟨⟨nums, names, ⟨field, hnums⟩, hnames, rfl⟩, -, -⟩ := h
  obtain ⟨read, hread, -, rfl⟩ := wrapArgnums_ok hnums
  have hboth : read = none ∨ names = none := by
    have hreadSome := readGiven_isSome hread
    have hnamesSome := readGiven_isSome hnames
    rcases hone with rfl | rfl
    · exact .inl (by simpa using hreadSome)
    · exact .inr (by simpa using hnamesSome)
  have heither : ((i : Int), q.name) ∈ sig.eitherWay :=
    (mem_eitherWay_of_position hq).mpr ⟨hk, rfl⟩
  cases read with
  | none =>
    cases names with
    | none => exact iff_of_false List.not_mem_nil List.not_mem_nil
    | some names =>
      simp only [Option.map_none, completeRole, mem_ascending, mem_positionsOf]
      constructor
      · intro hmem
        obtain ⟨name, hn, he⟩ := hmem
        exact ((mem_eitherWay_of_position hq).mp he).2 ▸ hn
      · intro hn
        exact ⟨q.name, hn, heither⟩
  | some is =>
    obtain rfl := hboth.resolve_left (by simp)
    simp only [Option.map_some, completeRole, mem_ascending, mem_namesAt]
    constructor
    · intro hi
      exact ⟨i, hi, heither⟩
    · intro hmem
      obtain ⟨j, hj, he⟩ := hmem
      exact ((mem_eitherWay_of_name hq).mp he).2 ▸ hj

/-- From names only positions of parameters are found that may be passed either way. -/
theorem argnums_given (h : sig.Reads argnums argnames role) (hq : sig.parameters[i]? = some q)
    (hk : q.kind ≠ .positionalOrKeyword) (hi : (i : Int) ∈ role.argnums) :
    argnums.isSome = true := by
  obtain ⟨⟨nums, names, ⟨_, hnums⟩, -, rfl⟩, -, -⟩ := h
  obtain ⟨read, hread, -, rfl⟩ := wrapArgnums_ok hnums
  rw [← readGiven_isSome hread]
  cases read with
  | some is => rfl
  | none =>
    cases names with
    | none => cases hi
    | some names =>
      obtain ⟨_, -, hmem⟩ := mem_positionsOf.mp (mem_ascending.mp hi)
      exact absurd ((mem_eitherWay_of_position hq).mp hmem).1 hk

/-- From positions only names of parameters are found that may be passed either way. -/
theorem argnames_given (h : sig.Reads argnums argnames role) (hq : sig.parameters[i]? = some q)
    (hk : q.kind ≠ .positionalOrKeyword) (hn : q.name ∈ role.argnames) :
    argnames.isSome = true := by
  obtain ⟨⟨nums, names, -, hnames, rfl⟩, -, -⟩ := h
  rw [← readGiven_isSome hnames]
  cases names with
  | some names => rfl
  | none =>
    cases nums with
    | none => cases hn
    | some nums =>
      obtain ⟨_, -, hmem⟩ := mem_namesAt.mp (mem_ascending.mp hn)
      exact absurd ((mem_eitherWay_of_name hq).mp hmem).1 hk

/-- A name is of no parameter that only positions reach. -/
theorem takesPositionOnly_of_name (h : sig.Reads argnums argnames role) (hq : q ∈ sig.parameters)
    (hn : q.name ∈ role.argnames) : takesPositionOnly q.kind = false := by
  obtain ⟨-, -, field, hvalid⟩ := h
  have hnone := (validateArgnames_ok_iff.mp hvalid q.name hn).1
  rw [hasName, List.any_eq_false] at hnone
  simpa using hnone q hq

end Reads

end Signature

theorem checkDisjoint_ok_iff {static donate : List String} :
    checkDisjoint static donate = .ok () ↔ ∀ name ∈ donate, name ∉ static := by
  unfold checkDisjoint
  dsimp only
  split
  · rename_i h
    simpa using h
  · rename_i h
    simpa using h

namespace Roles

variable {function : String} {signature : Option Signature} {roles : Roles} {p : RolePair}
  {r : Resolved}

theorem unsignedPair_reads (h : roles.unsignedPair function = .ok p) :
    roles.donateArgnames = none ∧ ∃ staticNums staticNames donateNums,
      readGiven Value.toIndices roles.staticArgnums = .ok staticNums ∧
      readGiven Value.toNames roles.staticArgnames = .ok staticNames ∧
      readGiven Value.toIndices roles.donateArgnums = .ok donateNums ∧
      p = ⟨⟨ascending (staticNums.getD []), ascending (staticNames.getD [])⟩,
        ⟨ascending (donateNums.getD []), []⟩⟩ := by
  cases hd : roles.donateArgnames with
  | some v => simp [unsignedPair, hd, bind_ok] at h
  | none =>
    simp only [unsignedPair, hd, Option.isSome_none, Bool.false_eq_true, ↓reduceIte, bind_ok,
      pure_ok] at h
    obtain ⟨staticNums, hsn, staticNames, hsa, donateNums, hdn, rfl⟩ := h
    exact ⟨rfl, staticNums, staticNames, donateNums, hsn, hsa, hdn, rfl⟩

/-- A resolution is a pair of roles that share no name, with the donated positions rebased. -/
structure Resolves (roles : Roles) (function : String) (signature : Option Signature)
    (p : RolePair) (r : Resolved) : Prop where
  pair : roles.pair function signature = .ok p
  names_disjoint : ∀ name ∈ p.donate.argnames, name ∉ p.static.argnames
  rebased : rebaseDonated p.donate.argnums p.static.argnums = .ok r.donateArgnums
  donateArgnames : r.donateArgnames = p.donate.argnames
  static : r.staticArgnums = p.static.argnums ∧ r.staticArgnames = p.static.argnames

theorem resolve_ok_iff : roles.resolve function signature = .ok r ↔
    ∃ p, roles.Resolves function signature p r := by
  unfold resolve
  simp only [bind_ok, pure_ok]
  constructor
  · intro h
    obtain ⟨p, hp, ⟨⟩, hnames, rebased, hrebased, rfl⟩ := h
    exact ⟨p, hp, checkDisjoint_ok_iff.mp hnames, hrebased, rfl, rfl, rfl⟩
  · intro h
    obtain ⟨p, hp, hnames, hrebased, hdonate, hstatic, hstaticNames⟩ := h
    refine ⟨p, hp, (), checkDisjoint_ok_iff.mpr hnames, _, hrebased, ?_⟩
    rw [← hdonate, ← hstatic, ← hstaticNames]

/-- A resolution has read all that was given. -/
theorem reads_of_resolve (h : roles.resolve function signature = .ok r) :
    (∀ v ∈ roles.donateArgnums, ∃ is, v.toIndices = .ok is) ∧
      (∀ v ∈ roles.donateArgnames, ∃ names, v.toNames = .ok names) ∧
      (∀ v ∈ roles.staticArgnums, ∃ is, v.toIndices = .ok is) ∧
      ∀ v ∈ roles.staticArgnames, ∃ names, v.toNames = .ok names := by
  obtain ⟨p, hp⟩ := resolve_ok_iff.mp h
  have hpair := hp.pair
  cases signature with
  | some sig =>
    obtain ⟨⟨⟨_, _, ⟨_, hsn⟩, hsa, -⟩, -, -⟩, ⟨⟨_, _, ⟨_, hdn⟩, hda, -⟩, -, -⟩⟩ :=
      Signature.rolePair_reads hpair
    obtain ⟨_, hsn, -⟩ := Signature.wrapArgnums_ok hsn
    obtain ⟨_, hdn, -⟩ := Signature.wrapArgnums_ok hdn
    exact ⟨readGiven_some hdn, readGiven_some hda, readGiven_some hsn, readGiven_some hsa⟩
  | none =>
    obtain ⟨hd, _, _, _, hsn, hsa, hdn, -⟩ := unsignedPair_reads hpair
    exact ⟨readGiven_some hdn, by simp [hd], readGiven_some hsn, readGiven_some hsa⟩

end Roles

end Staging
