import Staging.Proofs.Places
import Staging.Proofs.RolePairs

namespace Staging

open Results

theorem Kwargs.contains_ofList {pairs : List (String × Value)} {k : String} :
    (ofList pairs).contains k = true ↔ k ∈ pairs.map Prod.fst := by
  have hfold : ∀ es : List (String × Value),
      ((pairs.foldl (fun es e => Entries.put e.1 e.2 es) es).lookup k).isSome = true ↔
        k ∈ pairs.map Prod.fst ∨ (es.lookup k).isSome = true := by
    induction pairs with
    | nil => simp
    | cons e pairs ih =>
      intro es
      rw [List.foldl_cons, ih, Entries.lookup_put, List.map_cons, List.mem_cons]
      by_cases hk : k = e.1 <;> simp [hk]
  have hempty := hfold []
  rw [List.lookup_nil, Option.isSome_none] at hempty
  rw [contains_eq]
  exact hempty.trans (or_iff_left Bool.false_ne_true)

/-- So many positional arguments and these keyword arguments, all of them absent values. -/
def Call.blank (count : Nat) (names : List String) : Call where
  args := List.replicate count .absent
  kwargs := .ofList (names.map (·, .absent))

@[simp] theorem Call.length_blank (count : Nat) (names : List String) :
    (blank count names).args.length = count :=
  List.length_replicate

theorem Call.contains_blank {count : Nat} {names : List String} {k : String} :
    (blank count names).kwargs.contains k = true ↔ k ∈ names := by
  simp [blank, Kwargs.contains_ofList, Function.comp_def]

namespace Signature

variable {sig : Signature} {c : Call} {name : String}

/-- What is wrong with a call that is refused. -/
inductive Refuses (sig : Signature) (c : Call) : BindError → Prop where
  | surplus (h : sig.numPositional < c.args.length) (hv : sig.hasVarPositional = false) :
    Refuses sig c .tooManyPositional
  | twice {p : Parameter} (hp : p ∈ sig.parameters) (hk : p.kind = .positionalOrKeyword)
    (hc : c.kwargs.contains p.name = true) : Refuses sig c (.multipleValues p.name)
  | missing {p : Parameter} (hp : p ∈ sig.parameters) (ho : p.isOptional = false) :
    Refuses sig c (.missing p.name)
  | named {p : Parameter} (hp : p ∈ sig.parameters) (hk : p.kind = .positionalOnly)
    (hc : c.kwargs.contains p.name = true) : Refuses sig c (.positionalOnlyAsKeyword p.name)
  | unknown {k : String} (hv : sig.varKeyword? = none) (ht : takes sig.parameters k = false)
    (hc : c.kwargs.contains k = true) : Refuses sig c (.unexpectedKeyword k)

theorem place_error {kwargs : Kwargs} {ps : List Parameter} {vs : List Value} {e : BindError}
    (h : place kwargs ps vs = .error e) : ∃ p ∈ ps, p.kind = .positionalOrKeyword ∧
      kwargs.contains p.name = true ∧ e = .multipleValues p.name := by
  induction ps generalizing vs with
  | nil => cases h
  | cons p ps ih =>
    cases vs with
    | nil => cases h
    | cons v vs =>
      have hrest : (place kwargs ps vs).map (Placed.push p.name (.value v)) = .error e →
          ∃ q ∈ p :: ps, q.kind = .positionalOrKeyword ∧ kwargs.contains q.name = true ∧
            e = .multipleValues q.name := by
        intro h
        obtain ⟨q, hq, hfault⟩ := ih (map_error.mp h)
        exact ⟨q, List.mem_cons_of_mem p hq, hfault⟩
      cases hk : p.kind with
      | positionalOnly =>
        simp only [place, hk] at h
        exact hrest h
      | positionalOrKeyword =>
        simp only [place, hk] at h
        split at h
        · rename_i hc
          cases h
          exact ⟨p, List.mem_cons_self, hk, hc, rfl⟩
        · exact hrest h
      | varPositional | keywordOnly | varKeyword =>
        simp [place, hk] at h

/-- Why keyword arguments do not do for a parameter. -/
def Unmet (kwargs : Kwargs) (p : Parameter) (e : BindError) : Prop :=
  p.isOptional = false ∧ e = .missing p.name ∨
    p.kind = .positionalOnly ∧ kwargs.contains p.name = true ∧
      e = .positionalOnlyAsKeyword p.name

theorem Unmet.of_erase {kwargs : Kwargs} {key : String} {p : Parameter} {e : BindError}
    (h : Unmet (kwargs.erase key) p e) : Unmet kwargs p e := by
  refine h.imp_right fun h => ⟨h.1, ?_, h.2.2⟩
  have hc := h.2.1
  rw [Kwargs.contains_erase, Bool.and_eq_true] at hc
  exact hc.2

theorem takeKeywords_error {absorbs : Bool} {ps : List Parameter} {kwargs : Kwargs} {e : BindError}
    (h : takeKeywords absorbs ps kwargs = .error e) : ∃ p ∈ ps, Unmet kwargs p e := by
  induction ps generalizing kwargs with
  | nil => cases h
  | cons p ps ih =>
    have hrest : takeKeywords absorbs ps kwargs = .error e → ∃ q ∈ p :: ps, Unmet kwargs q e := by
      intro h
      obtain ⟨q, hq, hunmet⟩ := ih h
      exact ⟨q, List.mem_cons_of_mem p hq, hunmet⟩
    have hmissing : (if p.isOptional then takeKeywords absorbs ps kwargs else
        .error (.missing p.name)) = .error e → ∃ q ∈ p :: ps, Unmet kwargs q e := by
      intro h
      split at h
      · exact hrest h
      · rename_i ho
        cases h
        exact ⟨p, List.mem_cons_self, .inl ⟨by simpa using ho, rfl⟩⟩
    cases hk : p.kind with
    | varPositional | varKeyword =>
      simp only [takeKeywords, hk] at h
      exact hrest h
    | positionalOnly =>
      simp only [takeKeywords, hk] at h
      split at h
      · rename_i hc
        cases h
        exact ⟨p, List.mem_cons_self, .inr ⟨hk, (Bool.and_eq_true_iff.mp hc).1, rfl⟩⟩
      · exact hmissing h
    | positionalOrKeyword | keywordOnly =>
      simp only [takeKeywords, hk] at h
      split at h
      · obtain ⟨q, hq, hunmet⟩ := ih (map_error.mp h)
        exact ⟨q, List.mem_cons_of_mem p hq, hunmet.of_erase⟩
      · exact hmissing h

/-- Whatever binding reports is wrong with the call. -/
theorem refuses_of_bind {e : BindError} (h : sig.bind c = .error e) : sig.Refuses c e := by
  unfold bind at h
  rcases bind_error.mp h with hplace | ⟨placed, hplace, h⟩
  · obtain ⟨p, hp, hk, hc, rfl⟩ := place_error hplace
    exact .twice hp hk hc
  obtain ⟨honce, rfl⟩ := place_parameters_ok_iff.mp hplace
  dsimp only at h
  split at h
  · rename_i hsurplus
    obtain rfl : BindError.tooManyPositional = e := by simpa [bind_error] using h
    have hplaced := mt (surplus_iff sig c.args).mpr (by simpa using hsurplus)
    rw [not_or, length_positional, collector?_isSome] at hplaced
    exact .surplus (by omega) (by simpa using hplaced.2)
  · rcases bind_error.mp h with hnamed | ⟨named, hnamed, h⟩
    · obtain ⟨p, hp, hunmet⟩ := takeKeywords_error hnamed
      have hmem := (sig.unreached_sublist _).subset hp
      rcases hunmet with ⟨ho, rfl⟩ | ⟨hk, hc, rfl⟩
      · exact .missing hmem ho
      · exact .named hmem hk hc
    · have hdistinct : (sig.unreached c.args.length).Pairwise fun p q => p.name ≠ q.name :=
        sig.wellFormed.distinct.sublist (sig.unreached_sublist _)
      obtain ⟨-, rfl⟩ := (takeKeywords_ok_iff hdistinct).mp hnamed
      rw [untaken_unreached honce] at h
      split at h
      · simp at h
      · simp at h
      · rename_i key keys hkeys hv
        rw [throw_error] at h
        subst h
        have hkey : (untaken c.kwargs sig.parameters).contains key = true := by
          have hmem : key ∈ (untaken c.kwargs sig.parameters).keys := by simp [hkeys]
          obtain ⟨e, he, rfl⟩ := List.mem_map.mp hmem
          exact List.any_eq_true.mpr ⟨e, he, beq_self_eq_true e.1⟩
        rw [untaken, c.kwargs.contains_filter fun k => !takes sig.parameters k,
          Bool.and_eq_true, Bool.not_eq_true'] at hkey
        exact .unknown hv hkey.1 hkey.2

/-- Parameters that no name reaches come first among the positional ones. -/
theorem positional_eq (sig : Signature) :
    sig.positional.filter (·.kind == .positionalOnly) ++
      sig.positional.filter (!·.kind == .positionalOnly) = sig.positional := by
  refine filter_append_filter_not ((sig.wellFormed.ordered.filter _).imp_of_mem ?_)
  intro p q hp hq hpq hkind
  have hpos := (mem_positional.mp hp).2
  cases hk : p.kind <;>
    simp_all [mayFollow, Parameter.Kind.rank, Parameter.Kind.isPositional]

/-- Some parameter takes its argument under a name that is passed, or some parameter collects
it. -/
theorem passable_iff : sig.Passable name ↔ sig.hasName name takesPositionOnly = false ∧
    (sig.varKeyword?.isSome = true ∨ takes sig.parameters name = true) := by
  unfold Passable hasName takes
  simp only [Bool.and_comm]

/-- What is taken by name is of no parameter that only positions reach. -/
theorem passable_of_takes (h : takes sig.parameters name = true) : sig.Passable name := by
  refine passable_iff.mpr ⟨?_, .inr h⟩
  obtain ⟨p, hp, hk, rfl⟩ := takes_iff.mp h
  rw [hasName, List.any_eq_false]
  intro q hq hc
  rw [Bool.and_eq_true, beq_iff_eq] at hc
  obtain rfl := eq_of_name_eq hq hp hc.1
  cases hkind : q.kind <;> simp_all [takesPositionOnly, Parameter.Kind.acceptsKeyword]

/-- A call that passes an argument under a name, and by name whatever else can be. -/
def callNaming (sig : Signature) (name : String) : Call :=
  .blank (sig.positional.filter (·.kind == .positionalOnly)).length
    (name :: (sig.parameters.filter (·.kind.acceptsKeyword)).map (·.name))

theorem accepts_callNaming (h : sig.Passable name) : sig.Accepts (sig.callNaming name) := by
  have hall : ∀ p ∈ sig.parameters, p.kind.acceptsKeyword = true →
      (sig.callNaming name).kwargs.contains p.name = true := by
    intro p hp hk
    refine Call.contains_blank.mpr (List.mem_cons_of_mem _ ?_)
    exact List.mem_map.mpr ⟨p, List.mem_filter.mpr ⟨hp, hk⟩, rfl⟩
  have htake : sig.positional.take (sig.callNaming name).args.length =
      sig.positional.filter (·.kind == .positionalOnly) := by
    rw [callNaming, Call.length_blank]
    exact (congrArg (List.take _) sig.positional_eq.symm).trans List.take_left
  have hdrop : sig.positional.drop (sig.callNaming name).args.length =
      sig.positional.filter (!·.kind == .positionalOnly) := by
    rw [callNaming, Call.length_blank]
    exact (congrArg (List.drop _) sig.positional_eq.symm).trans List.drop_left
  refine ⟨.inl ?_, ?_, ?_, ?_, ?_⟩
  · rw [callNaming, Call.length_blank, ← length_positional]
    exact List.length_filter_le _ _
  · intro p hp hk
    rw [htake] at hp
    simp [hk] at hp
  · intro p hp
    rw [hdrop, List.mem_filter, mem_positional] at hp
    obtain ⟨⟨hmem, hpos⟩, hk⟩ := hp
    have hkind : p.kind = .positionalOrKeyword := by
      cases hk' : p.kind <;> simp_all [Parameter.Kind.isPositional]
    exact .inr ⟨hkind, hall p hmem (by rw [hkind]; rfl)⟩
  · intro p hp hk
    exact .inr (hall p hp (by rw [hk]; rfl))
  · intro k hk
    rw [← takes_iff, ← varKeyword?_isSome_iff]
    rcases List.mem_cons.mp (Call.contains_blank.mp hk) with rfl | hk
    · exact (passable_iff.mp h).2.symm
    · obtain ⟨p, hp, rfl⟩ := List.mem_map.mp hk
      obtain ⟨hp, ha⟩ := List.mem_filter.mp hp
      exact .inl (takes_iff.mpr ⟨p, hp, ha, rfl⟩)

/-- A call of so many positional arguments at least, with all that only names can pass. -/
def callReaching (sig : Signature) (count : Nat) : Call :=
  .blank (max count sig.numPositional)
    ((sig.parameters.filter (·.kind == .keywordOnly)).map (·.name))

theorem contains_callReaching {count : Nat} {k : String} :
    (sig.callReaching count).kwargs.contains k = true ↔
      ∃ p ∈ sig.parameters, p.kind = .keywordOnly ∧ p.name = k := by
  rw [callReaching, Call.contains_blank]
  simp [and_assoc]

theorem accepts_callReaching {count : Nat}
    (h : count ≤ sig.numPositional ∨ sig.hasVarPositional = true) :
    sig.Accepts (sig.callReaching count) := by
  have hlength : (sig.callReaching count).args.length = max count sig.numPositional :=
    Call.length_blank _ _
  refine ⟨?_, ?_, ?_, ?_, ?_⟩
  · rw [hlength]
    exact h.imp_left fun h => by omega
  · intro p hp hk
    rw [Bool.eq_false_iff]
    intro hc
    obtain ⟨q, hq, hqk, hqp⟩ := contains_callReaching.mp hc
    have hmem := (mem_positional.mp (List.mem_of_mem_take hp)).1
    rw [eq_of_name_eq hq hmem hqp, hk] at hqk
    cases hqk
  · intro p hp
    rw [List.drop_eq_nil_of_le (by rw [hlength, length_positional]; omega)] at hp
    cases hp
  · intro p hp hk
    exact .inr (contains_callReaching.mpr ⟨p, hp, hk, rfl⟩)
  · intro k hk
    obtain ⟨p, hp, hpk, hname⟩ := contains_callReaching.mp hk
    exact .inl ⟨p, hp, by rw [hpk]; rfl, hname⟩

/-- Names that pass are never the fault of a call. -/
theorem bind_ne_error_of_passable (h : ∀ k, c.kwargs.contains k = true → sig.Passable k)
    (k : String) : sig.bind c ≠ .error (.unexpectedKeyword k) ∧
      sig.bind c ≠ .error (.positionalOnlyAsKeyword k) := by
  constructor
  · intro hb
    cases refuses_of_bind hb with
    | unknown hv ht hc =>
      have hpass := (passable_iff.mp (h k hc)).2
      rw [hv, ht] at hpass
      simp at hpass
  · intro hb
    cases refuses_of_bind hb with
    | @named p hp hk hc =>
      have hpass := (h p.name hc).1
      rw [hasName, List.any_eq_false] at hpass
      simpa [hk, takesPositionOnly] using hpass p hp

/-- A name that does not pass is refused in every call, unless other names are collected. -/
theorem bind_error_of_not_passable (hv : sig.varKeyword? = none) (hn : ¬ sig.Passable name)
    (hc : c.kwargs.contains name = true) : ∃ e, sig.bind c = .error e := by
  refine bind_error_of_not_binds fun hbinds => hn (passable_of_takes ?_)
  exact (hbinds.known name hc).resolve_right (by simp [hv])

theorem exists_bind_iff_reaches {i : Nat} :
    (∃ c b, i < c.args.length ∧ sig.bind c = .ok b) ↔
      i < sig.numPositional ∨ sig.hasVarPositional = true := by
  constructor
  · intro h
    obtain ⟨c, b, hi, hb⟩ := h
    exact (accepts_of_bind hb).room.imp_left fun h => by omega
  · intro h
    obtain ⟨b, hb⟩ := exists_bind_of_accepts (@accepts_callReaching sig (i + 1) h)
    refine ⟨sig.callReaching (i + 1), b, ?_, hb⟩
    rw [callReaching, Call.length_blank]
    omega

/-- Names pass validation exactly where calls can pass arguments under them, and an index exactly
where calls can reach it by position. Names that pass are never unexpected and never positional
only, and each of them is in some call that is bound; a name that does not pass is in none, unless
the signature collects other names. -/
theorem validates_as_bound (sig : Signature) (field : String) :
    (∀ names, sig.validateArgnames names field = .ok () →
      (∀ c : Call, (∀ k, c.kwargs.contains k = true → k ∈ names) → ∀ k,
        sig.bind c ≠ .error (.unexpectedKeyword k) ∧
          sig.bind c ≠ .error (.positionalOnlyAsKeyword k)) ∧
      ∀ name ∈ names, ∃ c b, c.kwargs.contains name = true ∧ sig.bind c = .ok b) ∧
    (sig.varKeyword? = none → ∀ name e, sig.validateArgnames [name] field = .error e →
      ∀ c : Call, c.kwargs.contains name = true → ∃ e', sig.bind c = .error e') ∧
    ∀ i : Nat, sig.validateArgnums [(i : Int)] field = .ok () ↔
      ∃ c b, i < c.args.length ∧ sig.bind c = .ok b := by
  refine ⟨?_, ?_, ?_⟩
  · intro names hnames
    have hpass := validateArgnames_ok_iff.mp hnames
    refine ⟨fun c hc => bind_ne_error_of_passable fun k hk => hpass k (hc k hk), ?_⟩
    intro name hname
    obtain ⟨b, hb⟩ := exists_bind_of_accepts (accepts_callNaming (hpass name hname))
    exact ⟨_, b, Call.contains_blank.mpr List.mem_cons_self, hb⟩
  · intro hv name e he c hc
    refine bind_error_of_not_passable hv (fun hpass => ?_) hc
    rw [validateArgnames_ok_iff.mpr (by simpa using hpass)] at he
    cases he
  · intro i
    rw [exists_bind_iff_reaches, validateArgnums_ok_iff, or_comm]
    simp only [List.mem_singleton, forall_eq]
    refine or_congr_left ⟨fun h => by omega, fun h => by omega⟩

/-- Of three names two pass; the other one is in no call that is bound. -/
theorem validates_as_bound_positional_only :
    let sig : Signature := ⟨[{ name := "a", kind := .positionalOnly },
      { name := "b", kind := .positionalOrKeyword }, { name := "rest", kind := .varPositional },
      { name := "c", kind := .keywordOnly }], rfl⟩
    let c : Call := ⟨[.int 1], .ofList [("c", .int 4), ("b", .int 3), ("a", .int 2)]⟩
    sig.validateArgnames ["c", "b"] "static_argnames" = .ok () ∧
      (∃ c b, c.kwargs.contains "b" = true ∧ sig.bind c = .ok b) ∧
      sig.varKeyword? = none ∧
      (∃ e, sig.validateArgnames ["a"] "static_argnames" = .error e) ∧
      c.kwargs.contains "a" = true ∧ (∃ e, sig.bind c = .error e) ∧
      sig.validateArgnums [7] "static_argnums" = .ok () ∧
      ∃ c b, 7 < c.args.length ∧ sig.bind c = .ok b := by
  intro sig c
  obtain ⟨hnames, hrefused, hnums⟩ := validates_as_bound sig "static_argnames"
  have hpass : sig.validateArgnames ["c", "b"] "static_argnames" = .ok () := by rfl
  have hfail : sig.validateArgnames ["a"] "static_argnames" =
    .error (.invalidArgnames "static_argnames" ["a"] .positionalOnly) := by rfl
  have hnamed : c.kwargs.contains "a" = true := by rfl
  have hnum : sig.validateArgnums [7] "static_argnums" = .ok () := by rfl
  exact ⟨hpass, (hnames _ hpass).2 "b" (by simp), rfl, ⟨_, hfail⟩, hnamed,
    hrefused rfl _ _ hfail c hnamed, hnum, (hnums 7).mp hnum⟩

end Signature

end Staging
