import Staging.Proofs.Keywords
import Staging.Proofs.Results
import Staging.Proofs.Signatures
import Staging.Signature.Binding

namespace Staging

open Results

namespace Kwargs

theorem get?_erase (kw : Kwargs) (key k : String) :
    (kw.erase key).get? k = if k = key then none else kw.get? k := by
  rw [erase, get?_filter kw (· != key)]
  by_cases h : k = key <;> simp [h]

theorem contains_filter (kw : Kwargs) (p : String → Bool) (k : String) :
    (kw.filter fun e => p e.1).contains k = (p k && kw.contains k) := by
  rw [contains_eq, contains_eq, get?_filter]
  cases p k <;> simp

theorem contains_erase (kw : Kwargs) (key k : String) :
    (kw.erase key).contains k = (k != key && kw.contains k) :=
  kw.contains_filter (· != key) k

end Kwargs

namespace Signature

/-- Positional parameters with an argument each. -/
def placed (ps : List Parameter) (vs : List Value) : Arguments :=
  ps.zipWith (fun p v => (p.name, .value v)) vs

/-- The positional arguments left over, if there are any, under the parameter that collects
them. -/
def collected : Option Parameter → List Value → Arguments
  | some p, v :: vs => [(p.name, .varArgs (v :: vs))]
  | _, _ => []

/-- A parameter that has its argument by position has none by name. -/
def GivenOnce (kwargs : Kwargs) (p : Parameter) : Prop :=
  p.kind = .positionalOrKeyword → kwargs.contains p.name = false

theorem place_cons_ok_iff {kwargs : Kwargs} {p : Parameter} {ps : List Parameter} {v : Value}
    {vs : List Value} {r : Placed} (hp : p.kind.isPositional = true) :
    place kwargs (p :: ps) (v :: vs) = .ok r ↔ GivenOnce kwargs p ∧
      ∃ rest, place kwargs ps vs = .ok rest ∧ rest.push p.name (.value v) = r := by
  unfold GivenOnce
  rw [← map_ok]
  cases hk : p.kind with
  | positionalOnly => simp [place, hk]
  | positionalOrKeyword =>
    simp only [place, hk, true_implies]
    cases kwargs.contains p.name <;> simp
  | varPositional | keywordOnly | varKeyword =>
    rw [hk] at hp
    cases hp

/-- Positional parameters take their arguments in order, and placing goes on with what is left on
either side. -/
theorem place_ok_iff {kwargs : Kwargs} {ps more : List Parameter} {vs : List Value} {r : Placed}
    (hp : ∀ p ∈ ps, p.kind.isPositional = true) :
    place kwargs (ps ++ more) vs = .ok r ↔
      (∀ p ∈ ps.take vs.length, GivenOnce kwargs p) ∧
        ∃ rest, place kwargs (ps.drop vs.length ++ more) (vs.drop ps.length) = .ok rest ∧
          r = { rest with arguments := placed ps vs ++ rest.arguments } := by
  induction ps generalizing vs r with
  | nil => simp [placed]
  | cons p ps ih =>
    cases vs with
    | nil => simp [placed]
    | cons v vs =>
      have hps : ∀ q ∈ ps, q.kind.isPositional = true := by
        intro q hq
        exact hp q (by simp [hq])
      rw [List.cons_append, place_cons_ok_iff (hp p (by simp))]
      simp only [List.length_cons, List.take_succ_cons, List.drop_succ_cons,
        List.forall_mem_cons, and_assoc]
      refine and_congr_right fun _ => ?_
      constructor
      · intro h
        obtain ⟨s, hs, rfl⟩ := h
        obtain ⟨honce, rest, hrest, rfl⟩ := (ih hps).mp hs
        exact ⟨honce, rest, hrest, rfl⟩
      · intro h
        obtain ⟨honce, rest, hrest, rfl⟩ := h
        exact ⟨_, (ih hps).mpr ⟨honce, rest, hrest, rfl⟩, rfl⟩

theorem place_nil (kwargs : Kwargs) (ps : List Parameter) :
    place kwargs ps [] = .ok ⟨[], ps, []⟩ := by
  cases ps <;> rfl

/-- Past the positional parameters all arguments are collected, or none has a place. -/
theorem place_leftover {kwargs : Kwargs} {collector? : Option Parameter} {ps : List Parameter}
    (hc : ∀ p ∈ collector?, p.kind = .varPositional)
    (hp : ∀ p ∈ ps, p.kind = .keywordOnly ∨ p.kind = .varKeyword) (v : Value) (vs : List Value) :
    place kwargs (collector?.toList ++ ps) (v :: vs) =
      .ok ⟨collected collector? (v :: vs), ps, if collector?.isSome then [] else v :: vs⟩ := by
  cases collector? with
  | some p => simp [place, collected, hc p rfl]
  | none =>
    cases ps with
    | nil => rfl
    | cons p ps =>
      rcases hp p (by simp) with hk | hk <;> simp [place, collected, hk]

/-- The parameters that so many positional arguments leave to be found by name. -/
def unreached (sig : Signature) (count : Nat) : List Parameter :=
  sig.positional.drop count ++
    ((if sig.positional.length < count then [] else sig.collector?.toList) ++ sig.byName)

/-- The positional arguments that no parameter takes. -/
def surplus (sig : Signature) (args : List Value) : List Value :=
  if sig.collector?.isSome then [] else args.drop sig.positional.length

theorem place_parameters_ok_iff {sig : Signature} {kwargs : Kwargs} {args : List Value}
    {r : Placed} :
    place kwargs sig.parameters args = .ok r ↔
      (∀ p ∈ sig.positional.take args.length, GivenOnce kwargs p) ∧
        r = ⟨placed sig.positional args ++
            collected sig.collector? (args.drop sig.positional.length),
          sig.unreached args.length, sig.surplus args⟩ := by
  have hpos : ∀ p ∈ sig.positional, p.kind.isPositional = true := by
    intro p hp
    exact (List.mem_filter.mp hp).2
  have hc : ∀ p ∈ sig.collector?, p.kind = .varPositional := by
    intro p hp
    simpa using List.find?_some hp
  have hn : ∀ p ∈ sig.byName, p.kind = .keywordOnly ∨ p.kind = .varKeyword := by
    intro p hp
    simpa using (List.mem_filter.mp hp).2
  unfold unreached surplus
  rw [parameters_eq, place_ok_iff hpos]
  refine and_congr_right fun _ => ?_
  cases hd : args.drop sig.positional.length with
  | nil =>
    have hle : ¬ sig.positional.length < args.length := by
      have := congrArg List.length hd
      simp only [List.length_drop, List.length_nil] at this
      omega
    rw [place_nil, if_neg hle]
    simp [collected]
  | cons v vs =>
    have hlt : sig.positional.length < args.length := by
      have := congrArg List.length hd
      simp only [List.length_drop, List.length_cons] at this
      omega
    rw [List.drop_eq_nil_of_le (Nat.le_of_lt hlt), List.nil_append, place_leftover hc hn,
      if_pos hlt]
    simp

/-- A parameter gets its argument by name or can do without. An argument under the name of a
parameter that takes none by name is one that another parameter must collect. -/
def Supplied (absorbs : Bool) (kwargs : Kwargs) (p : Parameter) : Prop :=
  match p.kind with
  | .varPositional | .varKeyword => True
  | .positionalOnly => p.isOptional = true ∧ (kwargs.contains p.name = true → absorbs = true)
  | .positionalOrKeyword | .keywordOnly => kwargs.contains p.name = true ∨ p.isOptional = true

/-- What parameters take by name. -/
def taken (kwargs : Kwargs) (ps : List Parameter) : Arguments :=
  ps.filterMap fun p =>
    if p.kind.acceptsKeyword then (kwargs.get? p.name).map fun v => (p.name, .value v) else none

/-- Some parameter takes its argument by this name. -/
def takes (ps : List Parameter) (name : String) : Bool :=
  ps.any fun p => p.kind.acceptsKeyword && p.name == name

theorem takes_cons (p : Parameter) (ps : List Parameter) (name : String) :
    takes (p :: ps) name = ((p.kind.acceptsKeyword && p.name == name) || takes ps name) := rfl

/-- The keyword arguments that no parameter takes. -/
def untaken (kwargs : Kwargs) (ps : List Parameter) : Kwargs :=
  kwargs.filter fun e => !takes ps e.1

theorem get?_untaken (kwargs : Kwargs) (ps : List Parameter) (k : String) :
    (untaken kwargs ps).get? k = if takes ps k then none else kwargs.get? k := by
  rw [untaken, kwargs.get?_filter fun k => !takes ps k]
  cases takes ps k <;> rfl

theorem supplied_erase {absorbs : Bool} {kwargs : Kwargs} {key : String} {p : Parameter}
    (h : key ≠ p.name) :
    Supplied absorbs (kwargs.erase key) p ↔ Supplied absorbs kwargs p := by
  have hc : (kwargs.erase key).contains p.name = kwargs.contains p.name := by
    rw [Kwargs.contains_erase]
    simp [h.symm]
  simp only [Supplied, hc]

theorem taken_erase {kwargs : Kwargs} {key : String} {ps : List Parameter}
    (h : ∀ p ∈ ps, key ≠ p.name) : taken (kwargs.erase key) ps = taken kwargs ps := by
  apply List.filterMap_congr
  intro p hp
  rw [Kwargs.get?_erase, if_neg (h p hp).symm]

theorem untaken_cons_erase {kwargs : Kwargs} {p : Parameter} (ps : List Parameter)
    (hk : p.kind.acceptsKeyword = true) :
    untaken (kwargs.erase p.name) ps = untaken kwargs (p :: ps) := by
  apply Kwargs.ext_get?
  intro k
  rw [get?_untaken, get?_untaken, Kwargs.get?_erase]
  by_cases h : k = p.name
  · simp [takes_cons, h, hk]
  · have hne : (p.name == k) = false := by simpa using fun he => h he.symm
    rw [takes_cons, hne, if_neg h, Bool.and_false, Bool.false_or]

theorem untaken_cons_absent {kwargs : Kwargs} {p : Parameter} (ps : List Parameter)
    (h : p.kind.acceptsKeyword = false ∨ kwargs.get? p.name = none) :
    untaken kwargs (p :: ps) = untaken kwargs ps := by
  apply Kwargs.ext_get?
  intro k
  rw [get?_untaken, get?_untaken]
  by_cases hk : (p.kind.acceptsKeyword && p.name == k) = true
  · obtain ⟨ha, rfl⟩ : p.kind.acceptsKeyword = true ∧ p.name = k := by simpa using hk
    have hg : kwargs.get? p.name = none := by simpa [ha] using h
    simp [hg]
  · rw [takes_cons, Bool.eq_false_iff.mpr hk, Bool.false_or]

theorem taken_cons_absent {kwargs : Kwargs} {p : Parameter} (ps : List Parameter)
    (h : p.kind.acceptsKeyword = false ∨ kwargs.get? p.name = none) :
    taken kwargs (p :: ps) = taken kwargs ps := by
  rcases h with h | h <;> simp [taken, h]

/-- A parameter that takes nothing by name only has to do without. -/
theorem takeKeywords_cons_absent {absorbs : Bool} {p : Parameter} {ps : List Parameter}
    {kwargs : Kwargs} {r : Named} (h : p.kind.acceptsKeyword = false ∨ kwargs.get? p.name = none) :
    takeKeywords absorbs (p :: ps) kwargs = .ok r ↔
      Supplied absorbs kwargs p ∧ takeKeywords absorbs ps kwargs = .ok r := by
  unfold Supplied
  cases hk : p.kind with
  | varPositional | varKeyword => simp only [takeKeywords, hk, true_and]
  | positionalOnly =>
    simp only [takeKeywords, hk]
    cases kwargs.contains p.name <;> cases absorbs <;> cases p.isOptional <;> simp
  | positionalOrKeyword | keywordOnly =>
    have hg : kwargs.get? p.name = none := by simpa [hk, Parameter.Kind.acceptsKeyword] using h
    simp only [takeKeywords, hk, hg, Kwargs.contains_eq]
    cases p.isOptional <;> simp

theorem takeKeywords_cons_present {absorbs : Bool} {p : Parameter} (ps : List Parameter)
    {kwargs : Kwargs} {v : Value} (ha : p.kind.acceptsKeyword = true)
    (hg : kwargs.get? p.name = some v) :
    takeKeywords absorbs (p :: ps) kwargs =
      (takeKeywords absorbs ps (kwargs.erase p.name)).map fun r =>
        { r with arguments := (p.name, .value v) :: r.arguments } := by
  cases hk : p.kind with
  | positionalOrKeyword | keywordOnly => simp only [takeKeywords, hk, hg]
  | positionalOnly | varPositional | varKeyword =>
    rw [hk] at ha
    cases ha

theorem supplied_of_present {absorbs : Bool} {p : Parameter} {kwargs : Kwargs}
    (ha : p.kind.acceptsKeyword = true) (hc : kwargs.contains p.name = true) :
    Supplied absorbs kwargs p := by
  unfold Supplied
  cases hk : p.kind with
  | positionalOrKeyword | keywordOnly => exact .inl hc
  | positionalOnly | varPositional | varKeyword =>
    rw [hk] at ha
    cases ha

theorem takeKeywords_ok_iff {absorbs : Bool} {ps : List Parameter} {kwargs : Kwargs} {r : Named}
    (hd : ps.Pairwise fun p q => p.name ≠ q.name) :
    takeKeywords absorbs ps kwargs = .ok r ↔
      (∀ p ∈ ps, Supplied absorbs kwargs p) ∧ r = ⟨taken kwargs ps, untaken kwargs ps⟩ := by
  induction ps generalizing kwargs r with
  | nil =>
    have hall : untaken kwargs [] = kwargs := by
      apply Kwargs.ext_get?
      intro k
      rw [get?_untaken]
      rfl
    unfold takeKeywords
    rw [hall]
    constructor
    · intro h
      cases h
      exact ⟨fun _ hp => absurd hp List.not_mem_nil, rfl⟩
    · intro h
      obtain ⟨-, rfl⟩ := h
      rfl
  | cons p ps ih =>
    obtain ⟨hp, hps⟩ := List.pairwise_cons.mp hd
    rw [List.forall_mem_cons]
    by_cases habsent : p.kind.acceptsKeyword = false ∨ kwargs.get? p.name = none
    · rw [takeKeywords_cons_absent habsent, ih hps, taken_cons_absent ps habsent,
        untaken_cons_absent ps habsent, and_assoc]
    · obtain ⟨ha, v, hg⟩ : p.kind.acceptsKeyword = true ∧ ∃ v, kwargs.get? p.name = some v := by
        simpa [Option.ne_none_iff_exists'] using habsent
      have hself : Supplied absorbs kwargs p :=
        supplied_of_present ha (Kwargs.contains_iff.mpr ⟨v, hg⟩)
      have hsupplied : (∀ q ∈ ps, Supplied absorbs (kwargs.erase p.name) q) ↔
          ∀ q ∈ ps, Supplied absorbs kwargs q :=
        forall₂_congr fun q hq => supplied_erase (hp q hq)
      have ht : taken kwargs (p :: ps) =
          (p.name, .value v) :: taken (kwargs.erase p.name) ps := by
        rw [taken_erase hp]
        simp [taken, ha, hg]
      rw [takeKeywords_cons_present ps ha hg, map_ok, ht, ← untaken_cons_erase ps ha]
      simp only [ih hps, hsupplied, hself, true_and]
      constructor
      · intro h
        obtain ⟨_, ⟨hs, rfl⟩, rfl⟩ := h
        exact ⟨hs, rfl⟩
      · intro h
        obtain ⟨hs, rfl⟩ := h
        exact ⟨_, ⟨hs, rfl⟩, rfl⟩

theorem unreached_sublist (sig : Signature) (count : Nat) :
    (sig.unreached count).Sublist sig.parameters := by
  rw [parameters_eq, unreached]
  refine (List.drop_sublist count sig.positional).append ?_
  split
  · exact List.sublist_append_right _ _
  · exact .refl _

/-- A parameter that has an argument under its name to take. -/
def isNamedIn (kwargs : Kwargs) (p : Parameter) : Bool :=
  p.kind.acceptsKeyword && kwargs.contains p.name

/-- Parameters that positional arguments reach have none by name, so they can be left out. -/
theorem filter_isNamedIn_unreached {sig : Signature} {c : Call}
    (honce : ∀ p ∈ sig.positional.take c.args.length, GivenOnce c.kwargs p) :
    (sig.unreached c.args.length).filter (isNamedIn c.kwargs) =
      sig.parameters.filter (isNamedIn c.kwargs) := by
  have hreached : (sig.positional.take c.args.length).filter (isNamedIn c.kwargs) = [] := by
    rw [List.filter_eq_nil_iff]
    intro p hp hnamed
    obtain ⟨ha, hc⟩ : p.kind.acceptsKeyword = true ∧ c.kwargs.contains p.name = true := by
      simpa [isNamedIn] using hnamed
    have hpos := (List.mem_filter.mp (List.mem_of_mem_take hp)).2
    rw [honce p hp (Parameter.Kind.eq_positionalOrKeyword hpos ha)] at hc
    cases hc
  have hcollector : sig.collector?.toList.filter (isNamedIn c.kwargs) = [] := by
    rw [List.filter_eq_nil_iff]
    intro p hp
    have hkind : p.kind = .varPositional := by
      simpa using List.find?_some (Option.mem_toList.mp hp)
    simp [isNamedIn, hkind, Parameter.Kind.acceptsKeyword]
  have hpositional : sig.positional.filter (isNamedIn c.kwargs) =
      (sig.positional.drop c.args.length).filter (isNamedIn c.kwargs) := by
    rw [← List.nil_append (List.filter _ (sig.positional.drop _)), ← hreached,
      ← List.filter_append, List.take_append_drop]
  rw [parameters_eq, unreached]
  simp only [List.filter_append, hpositional, hcollector]
  split
  · rfl
  · rw [hcollector]

theorem taken_filter (kwargs : Kwargs) (ps : List Parameter) :
    taken kwargs (ps.filter (isNamedIn kwargs)) = taken kwargs ps := by
  rw [taken, taken, List.filterMap_filter]
  apply List.filterMap_congr
  intro p _
  rw [isNamedIn, Kwargs.contains_eq]
  cases p.kind.acceptsKeyword <;> cases kwargs.get? p.name <;> rfl

theorem untaken_filter (kwargs : Kwargs) (ps : List Parameter) :
    untaken kwargs (ps.filter (isNamedIn kwargs)) = untaken kwargs ps := by
  apply Kwargs.ext_get?
  intro k
  rw [get?_untaken, get?_untaken]
  cases hk : kwargs.get? k with
  | none => simp
  | some v =>
    have htakes : takes (ps.filter (isNamedIn kwargs)) k = takes ps k := by
      rw [takes, takes, List.any_filter]
      congr 1
      funext p
      by_cases hp : p.name = k
      · simp [isNamedIn, hp, Kwargs.contains_eq, hk]
      · simp [hp]
    rw [htakes]

theorem taken_unreached {sig : Signature} {c : Call}
    (honce : ∀ p ∈ sig.positional.take c.args.length, GivenOnce c.kwargs p) :
    taken c.kwargs (sig.unreached c.args.length) = taken c.kwargs sig.parameters := by
  rw [← taken_filter, filter_isNamedIn_unreached honce, taken_filter]

theorem untaken_unreached {sig : Signature} {c : Call}
    (honce : ∀ p ∈ sig.positional.take c.args.length, GivenOnce c.kwargs p) :
    untaken c.kwargs (sig.unreached c.args.length) = untaken c.kwargs sig.parameters := by
  rw [← untaken_filter, filter_isNamedIn_unreached honce, untaken_filter]

/-- Everything that a call must be for its arguments to be bound. -/
structure Binds (sig : Signature) (c : Call) : Prop where
  placed : c.args.length ≤ sig.positional.length ∨ sig.collector?.isSome = true
  once : ∀ p ∈ sig.positional.take c.args.length, GivenOnce c.kwargs p
  supplied : ∀ p ∈ sig.unreached c.args.length, Supplied sig.varKeyword?.isSome c.kwargs p
  known : ∀ k, c.kwargs.contains k = true →
    takes sig.parameters k = true ∨ sig.varKeyword?.isSome = true

/-- The keyword arguments left over, if there are any, under the parameter that collects them. -/
def absorbed (collector? : Option String) (rest : Kwargs) : Arguments :=
  match collector? with
  | some name => if rest.isEmpty then [] else [(name, .varKwargs rest)]
  | none => []

/-- What the arguments of a call are bound to. -/
def boundArguments (sig : Signature) (c : Call) : Arguments :=
  Signature.placed sig.positional c.args ++
    collected sig.collector? (c.args.drop sig.positional.length) ++
    taken c.kwargs sig.parameters ++ absorbed sig.varKeyword? (untaken c.kwargs sig.parameters)

/-- What is left over goes to the parameter that collects it, if there is one. -/
theorem known_iff (sig : Signature) (kwargs : Kwargs) :
    ((untaken kwargs sig.parameters).keys = [] ∨ sig.varKeyword?.isSome = true) ↔
      ∀ k, kwargs.contains k = true →
        takes sig.parameters k = true ∨ sig.varKeyword?.isSome = true := by
  have hkeys : (untaken kwargs sig.parameters).keys = [] ↔
      ∀ k, kwargs.contains k = true → takes sig.parameters k = true := by
    rw [Kwargs.keys, List.map_eq_nil_iff, untaken, Kwargs.filter, List.filter_eq_nil_iff]
    simp [Kwargs.contains]
  rw [hkeys]
  constructor
  · intro h k hk
    rcases h with h | h
    · exact .inl (h k hk)
    · exact .inr h
  · intro h
    by_cases hv : sig.varKeyword?.isSome = true
    · exact .inr hv
    · exact .inl fun k hk => (h k hk).resolve_right hv

theorem absorbed_of_keys_nil {collector? : Option String} {rest : Kwargs} (h : rest.keys = []) :
    absorbed collector? rest = [] := by
  have hempty : rest.isEmpty = true := by
    simpa [Kwargs.keys, Kwargs.isEmpty] using h
  cases collector? <;> simp [absorbed, hempty]

theorem absorbed_of_keys_cons {name key : String} {keys : List String} {rest : Kwargs}
    (h : rest.keys = key :: keys) : absorbed (some name) rest = [(name, .varKwargs rest)] := by
  have hempty : rest.isEmpty = false := by
    cases he : rest.entries <;> simp_all [Kwargs.keys, Kwargs.isEmpty]
  simp [absorbed, hempty]

theorem surplus_iff (sig : Signature) (args : List Value) :
    (sig.surplus args).isEmpty = true ↔
      args.length ≤ sig.positional.length ∨ sig.collector?.isSome = true := by
  unfold surplus
  split
  · rename_i hc
    simp [hc]
  · rename_i hc
    simp [hc]

/-- A call that is bound at all is bound in the one way there is. -/
theorem bind_ok_iff (sig : Signature) (c : Call) (b : BoundCall) :
    sig.bind c = .ok b ↔ sig.Binds c ∧ b = ⟨sig, sig.boundArguments c⟩ := by
  have hdistinct : (sig.unreached c.args.length).Pairwise fun p q => p.name ≠ q.name :=
    sig.wellFormed.distinct.sublist (sig.unreached_sublist _)
  unfold bind
  rw [bind_ok]
  constructor
  · intro hok
    obtain ⟨placed, hplaced, h⟩ := hok
    obtain ⟨honce, rfl⟩ := place_parameters_ok_iff.mp hplaced
    dsimp only at h
    split at h
    · simp [bind_ok] at h
    · rename_i hsurplus
      rw [bind_ok] at h
      obtain ⟨named, hnamed, h⟩ := h
      obtain ⟨hsupplied, rfl⟩ := (takeKeywords_ok_iff hdistinct).mp hnamed
      rw [taken_unreached honce, untaken_unreached honce] at h
      have hplace := (surplus_iff sig c.args).mp (by simpa using hsurplus)
      split at h
      · rename_i hkeys
        rw [pure_ok] at h
        subst h
        refine ⟨⟨hplace, honce, hsupplied, (known_iff sig c.kwargs).mp (.inl hkeys)⟩, ?_⟩
        rw [boundArguments, absorbed_of_keys_nil hkeys, List.append_nil]
      · rename_i hkeys hcollector
        rw [pure_ok] at h
        subst h
        refine ⟨⟨hplace, honce, hsupplied, (known_iff sig c.kwargs).mp (.inr ?_)⟩, ?_⟩
        · rw [hcollector]
          rfl
        · rw [boundArguments, hcollector, absorbed_of_keys_cons hkeys]
      · simp at h
  · intro hbound
    obtain ⟨h, rfl⟩ := hbound
    refine ⟨_, place_parameters_ok_iff.mpr ⟨h.once, rfl⟩, ?_⟩
    have hsurplus := (surplus_iff sig c.args).mpr h.placed
    dsimp only
    rw [if_neg (by simpa using hsurplus), bind_ok]
    refine ⟨_, (takeKeywords_ok_iff hdistinct).mpr ⟨h.supplied, rfl⟩, ?_⟩
    rw [taken_unreached h.once, untaken_unreached h.once]
    split
    · rename_i hkeys
      rw [boundArguments, absorbed_of_keys_nil hkeys, List.append_nil]
      rfl
    · rename_i hkeys hcollector
      rw [boundArguments, hcollector, absorbed_of_keys_cons hkeys]
      rfl
    · rename_i hkeys hcollector
      have hknown := (known_iff sig c.kwargs).mpr h.known
      rw [hkeys, hcollector] at hknown
      simp at hknown

theorem bind_isOk_iff (sig : Signature) (c : Call) : (sig.bind c).isOk = true ↔ sig.Binds c := by
  constructor
  · intro h
    obtain ⟨b, hb⟩ := exists_ok h
    exact ((bind_ok_iff sig c b).mp hb).1
  · intro h
    rw [(bind_ok_iff sig c _).mpr ⟨h, rfl⟩]
    rfl

theorem bind_error_of_not_binds {sig : Signature} {c : Call} (h : ¬ sig.Binds c) :
    ∃ e, sig.bind c = .error e := by
  cases hbind : sig.bind c with
  | error e => exact ⟨e, rfl⟩
  | ok b => exact absurd ((bind_ok_iff sig c b).mp hbind).1 h

/-- Whether a call is bound depends on how many arguments it has and on their names only. -/
theorem Binds.congr {sig : Signature} {c d : Call} (h : sig.Binds c)
    (hl : d.args.length = c.args.length)
    (hk : ∀ k, d.kwargs.contains k = c.kwargs.contains k) : sig.Binds d where
  placed := hl ▸ h.placed
  once p hp := by
    rw [GivenOnce, hk]
    exact h.once p (hl ▸ hp)
  supplied p hp := by
    have hs := h.supplied p (hl ▸ hp)
    simp only [Supplied, hk] at hs ⊢
    exact hs
  known k hkd := h.known k (hk k ▸ hkd)

/-- The parameter that a positional argument goes to. -/
def parameterAt? (positional : List Parameter) (collector? : Option Parameter) (i : Nat) :
    Option Parameter :=
  positional[i]? <|> collector?

theorem collected_nil (collector? : Option Parameter) : collected collector? [] = [] := by
  cases collector? <;> rfl

theorem mem_collected {p : Parameter} {count : Nat} {args : List Value} (h : count < args.length) :
    (p.name, .varArgs (args.drop count)) ∈ collected (some p) (args.drop count) := by
  rw [List.drop_eq_getElem_cons h]
  exact List.mem_singleton.mpr rfl

section Places

variable {sig : Signature} {c : Call} {k : String}

theorem exists_parameterAt? {ps : List Parameter} {collector? : Option Parameter}
    {args : List Value} {e : String × Bound}
    (he : e ∈ placed ps args ++ collected collector? (args.drop ps.length)) :
    ∃ i < args.length, ∃ p, parameterAt? ps collector? i = some p ∧ p.name = e.1 := by
  rcases List.mem_append.mp he with he | he
  · obtain ⟨i, hi⟩ := List.mem_iff_getElem?.mp he
    obtain ⟨p, v, hp, hv, rfl⟩ := List.getElem?_zipWith_eq_some.mp hi
    obtain ⟨hlt, -⟩ := List.getElem?_eq_some_iff.mp hv
    exact ⟨i, hlt, p, by simp [parameterAt?, hp], rfl⟩
  · cases hd : args.drop ps.length with
    | nil =>
      rw [hd, collected_nil] at he
      cases he
    | cons v vs =>
      have hlen := congrArg List.length hd
      simp only [List.length_drop, List.length_cons] at hlen
      rw [hd] at he
      cases collector? with
      | none => cases he
      | some p =>
        obtain rfl := List.mem_singleton.mp he
        exact ⟨ps.length, by omega, p, by simp [parameterAt?], rfl⟩

theorem exists_reached {ps : List Parameter} {collector? : Option Parameter}
    {args : List Value} {i : Nat} {p : Parameter} (hi : i < args.length)
    (hp : parameterAt? ps collector? i = some p) :
    ∃ e ∈ placed ps args ++ collected collector? (args.drop ps.length), e.1 = p.name := by
  cases hps : ps[i]? with
  | some q =>
    obtain rfl : q = p := by simpa [parameterAt?, hps] using hp
    refine ⟨(q.name, .value args[i]), List.mem_append_left _ ?_, rfl⟩
    refine List.mem_iff_getElem?.mpr ⟨i, List.getElem?_zipWith_eq_some.mpr ?_⟩
    exact ⟨q, args[i], hps, List.getElem?_eq_getElem hi, rfl⟩
  | none =>
    have hlen : ps.length ≤ i := List.getElem?_eq_none_iff.mp hps
    obtain rfl : collector? = some p := by simpa [parameterAt?, hps] using hp
    have hcollected := @mem_collected p ps.length args (Nat.lt_of_le_of_lt hlen hi)
    exact ⟨_, List.mem_append_right _ hcollected, rfl⟩

theorem parameterAt?_some {i : Nat} {p : Parameter}
    (h : parameterAt? sig.positional sig.collector? i = some p) :
    p ∈ sig.parameters ∧ p.kind ≠ .varKeyword ∧
      (p.kind.acceptsKeyword = true → sig.positional[i]? = some p) := by
  cases hp : sig.positional[i]? with
  | some q =>
    obtain rfl : q = p := by simpa [parameterAt?, hp] using h
    obtain ⟨hmem, hkind⟩ := List.mem_filter.mp (List.mem_of_getElem? hp)
    have hne : q.kind ≠ .varKeyword := by
      intro hk
      rw [hk] at hkind
      cases hkind
    exact ⟨hmem, hne, fun _ => rfl⟩
  | none =>
    have hc : sig.collector? = some p := by simpa [parameterAt?, hp] using h
    have hkind : p.kind = .varPositional := by simpa using List.find?_some hc
    refine ⟨List.mem_of_find?_eq_some hc, by simp [hkind], ?_⟩
    intro ha
    rw [hkind] at ha
    cases ha

theorem takes_iff {ps : List Parameter} :
    takes ps k = true ↔ ∃ p ∈ ps, p.kind.acceptsKeyword = true ∧ p.name = k := by
  simp [takes]

/-- Where a positional argument goes. -/
theorem bind_argument {b : BoundCall} (h : sig.bind c = .ok b) {i : Nat} {v : Value}
    (hv : c.args[i]? = some v) :
    (∃ p, sig.positional[i]? = some p ∧ (p.name, .value v) ∈ b.arguments) ∨
      ∃ p items, sig.positional[i]? = none ∧ sig.collector? = some p ∧
        (p.name, .varArgs items) ∈ b.arguments ∧ items[i - sig.positional.length]? = some v := by
  obtain ⟨hbinds, rfl⟩ := (bind_ok_iff sig c b).mp h
  obtain ⟨hi, -⟩ := List.getElem?_eq_some_iff.mp hv
  cases hp : sig.positional[i]? with
  | some p =>
    refine .inl ⟨p, rfl, ?_⟩
    have hplaced : (p.name, Bound.value v) ∈ Signature.placed sig.positional c.args :=
      List.mem_iff_getElem?.mpr ⟨i, List.getElem?_zipWith_eq_some.mpr ⟨p, v, hp, hv, rfl⟩⟩
    simp only [boundArguments, List.mem_append, hplaced, true_or]
  | none =>
    have hlen : sig.positional.length ≤ i := List.getElem?_eq_none_iff.mp hp
    obtain ⟨p, hc⟩ : ∃ p, sig.collector? = some p := by
      rw [← Option.isSome_iff_exists]
      exact hbinds.placed.resolve_left (by omega)
    have hcollected : (p.name, Bound.varArgs (c.args.drop sig.positional.length)) ∈
        collected sig.collector? (c.args.drop sig.positional.length) := by
      rw [hc]
      exact mem_collected (Nat.lt_of_le_of_lt hlen hi)
    refine .inr ⟨p, c.args.drop sig.positional.length, rfl, hc, ?_, ?_⟩
    · simp only [boundArguments, List.mem_append, hcollected, or_true, true_or]
    · rw [List.getElem?_drop, Nat.add_sub_cancel' hlen, hv]

theorem mem_taken {kwargs : Kwargs} {ps : List Parameter} {e : String × Bound} :
    e ∈ taken kwargs ps ↔ ∃ p ∈ ps, p.kind.acceptsKeyword = true ∧
      ∃ v, kwargs.get? p.name = some v ∧ e = (p.name, .value v) := by
  rw [taken, List.mem_filterMap]
  refine exists_congr fun p => and_congr_right fun _ => ?_
  cases p.kind.acceptsKeyword with
  | false => simp
  | true => cases kwargs.get? p.name <;> simp [eq_comm]

theorem mem_absorbed {collector? : Option String} {rest : Kwargs} {e : String × Bound} :
    e ∈ absorbed collector? rest ↔
      rest.isEmpty = false ∧ ∃ name, collector? = some name ∧ e = (name, .varKwargs rest) := by
  cases collector? with
  | none => simp [absorbed]
  | some name => cases h : rest.isEmpty <;> simp [absorbed, h]

theorem mem_taken_of_takes {kwargs : Kwargs} {ps : List Parameter} {v : Value}
    (hv : kwargs.get? k = some v) (ht : takes ps k = true) :
    (k, .value v) ∈ taken kwargs ps := by
  obtain ⟨p, hp, ha, rfl⟩ := takes_iff.mp ht
  exact mem_taken.mpr ⟨p, hp, ha, v, hv, rfl⟩

/-- What no parameter takes is held by the one that collects it. -/
theorem mem_absorbed_of_untaken {kwargs : Kwargs} {ps : List Parameter} {v : Value}
    {collector? : Option String} {name : String} (hc : collector? = some name)
    (hv : kwargs.get? k = some v) (ht : takes ps k = false) :
    (untaken kwargs ps).get? k = some v ∧
      (name, .varKwargs (untaken kwargs ps)) ∈ absorbed collector? (untaken kwargs ps) := by
  have hget : (untaken kwargs ps).get? k = some v := by
    rw [get?_untaken, ht, hv]
    rfl
  exact ⟨hget, mem_absorbed.mpr ⟨Kwargs.isEmpty_of_get? hget, name, hc, rfl⟩⟩

/-- Where a keyword argument goes. -/
theorem bind_keyword {b : BoundCall} (h : sig.bind c = .ok b) {v : Value}
    (hv : c.kwargs.get? k = some v) :
    (takes sig.parameters k = true ∧ (k, .value v) ∈ b.arguments) ∨
      takes sig.parameters k = false ∧ ∃ name rest, sig.varKeyword? = some name ∧
        (name, .varKwargs rest) ∈ b.arguments ∧ rest.get? k = some v := by
  obtain ⟨hbinds, rfl⟩ := (bind_ok_iff sig c b).mp h
  cases ht : takes sig.parameters k with
  | true =>
    refine .inl ⟨rfl, ?_⟩
    simp only [boundArguments, List.mem_append, mem_taken_of_takes hv ht, or_true, true_or]
  | false =>
    obtain ⟨name, hname⟩ : ∃ name, sig.varKeyword? = some name := by
      rw [← Option.isSome_iff_exists]
      exact (hbinds.known k (Kwargs.contains_iff.mpr ⟨v, hv⟩)).resolve_left (by simp [ht])
    obtain ⟨hget, habsorbed⟩ := mem_absorbed_of_untaken hname hv ht
    exact .inr ⟨rfl, name, _, hname, List.mem_append_right _ habsorbed, hget⟩

end Places

end Signature

end Staging
