import Mathlib.Data.List.Nodup
import Staging.Proofs.Binding

namespace Staging

open Results

namespace Parameter.Kind

variable {kind : Kind}

theorem not_isVariadic_of_isPositional : kind.isPositional = true → kind.isVariadic = false := by
  cases kind <;> decide

theorem not_isVariadic_of_acceptsKeyword :
    kind.acceptsKeyword = true → kind.isVariadic = false := by
  cases kind <;> decide

end Parameter.Kind

namespace Signature

/-- Every argument has a parameter to go to, and every parameter has what it needs. -/
structure Accepts (sig : Signature) (c : Call) : Prop where
  room : c.args.length ≤ sig.numPositional ∨ sig.hasVarPositional = true
  once : ∀ p ∈ sig.positional.take c.args.length, p.kind = .positionalOrKeyword →
    c.kwargs.contains p.name = false
  supplied : ∀ p ∈ sig.positional.drop c.args.length, p.isOptional = true ∨
    p.kind = .positionalOrKeyword ∧ c.kwargs.contains p.name = true
  named : ∀ p ∈ sig.parameters, p.kind = .keywordOnly → p.isOptional = true ∨
    c.kwargs.contains p.name = true
  known : ∀ k, c.kwargs.contains k = true →
    (∃ p ∈ sig.parameters, p.kind.acceptsKeyword = true ∧ p.name = k) ∨
      ∃ p ∈ sig.parameters, p.kind = .varKeyword

/-- What goes to a parameter of the signature. -/
inductive Places (sig : Signature) (c : Call) (p : Parameter) : Bound → Prop where
  | position {i : Nat} {v : Value} (hp : sig.positional[i]? = some p)
    (hv : c.args[i]? = some v) : Places sig c p (.value v)
  | surplus (hk : p.kind = .varPositional) (hs : sig.numPositional < c.args.length) :
    Places sig c p (.varArgs (c.args.drop sig.numPositional))
  | keyword {v : Value} (hk : p.kind.acceptsKeyword = true)
    (hv : c.kwargs.get? p.name = some v) : Places sig c p (.value v)
  | others {rest : Kwargs} (hk : p.kind = .varKeyword)
    (hr : ∀ k, rest.get? k = if takes sig.parameters k then none else c.kwargs.get? k)
    (hne : rest.isEmpty = false) : Places sig c p (.varKwargs rest)

/-- Parameters are bound to what goes to them, in their order, and nothing else is bound. -/
structure LaidOut (sig : Signature) (c : Call) (b : BoundCall) : Prop where
  signature : b.signature = sig
  ordered : (b.arguments.map Prod.fst).Sublist (sig.parameters.map (·.name))
  places : ∀ name bound, (name, bound) ∈ b.arguments ↔
    ∃ p ∈ sig.parameters, p.name = name ∧ sig.Places c p bound

variable {sig : Signature} {c : Call} {b : BoundCall} {p q : Parameter}

theorem nodup_names (sig : Signature) : (sig.parameters.map (·.name)).Nodup :=
  List.pairwise_map.mpr sig.wellFormed.distinct

theorem nodup_positional (sig : Signature) : sig.positional.Nodup :=
  (List.Nodup.of_map _ sig.nodup_names).filter _

theorem length_positional (sig : Signature) : sig.positional.length = sig.numPositional :=
  List.countP_eq_length_filter.symm

theorem collector?_eq_some_iff :
    sig.collector? = some p ↔ p ∈ sig.parameters ∧ p.kind = .varPositional :=
  find?_kind_eq_some_iff rfl

theorem collector?_isSome (sig : Signature) : sig.collector?.isSome = sig.hasVarPositional := by
  rw [Bool.eq_iff_iff, collector?, List.find?_isSome, hasVarPositional, List.any_eq_true]

theorem varKeyword?_isSome_iff :
    sig.varKeyword?.isSome = true ↔ ∃ p ∈ sig.parameters, p.kind = .varKeyword := by
  simp [varKeyword?]

theorem mem_byName : p ∈ sig.byName ↔
    p ∈ sig.parameters ∧ (p.kind = .keywordOnly ∨ p.kind = .varKeyword) := by
  simp [byName]

theorem mem_positional : p ∈ sig.positional ↔
    p ∈ sig.parameters ∧ p.kind.isPositional = true := by
  simp [positional]

theorem not_isPositional_of_mem_byName (hp : p ∈ sig.byName) : p.kind.isPositional = false := by
  rcases (mem_byName.mp hp).2 with hk | hk <;> rw [hk] <;> rfl

theorem not_isPositional_of_mem_collector? (hp : p ∈ sig.collector?.toList) :
    p.kind.isPositional = false := by
  rw [(collector?_eq_some_iff.mp (Option.mem_toList.mp hp)).2]
  rfl

theorem mem_drop_of_mem_unreached {count : Nat} (hp : p ∈ sig.unreached count)
    (hk : p.kind.isPositional = true) : p ∈ sig.positional.drop count := by
  rw [unreached, List.mem_append, List.mem_append] at hp
  rcases hp with hp | hp | hp
  · exact hp
  · split at hp
    · cases hp
    · simp [not_isPositional_of_mem_collector? hp] at hk
  · simp [not_isPositional_of_mem_byName hp] at hk

theorem Accepts.binds (h : sig.Accepts c) : sig.Binds c where
  placed := by
    rw [length_positional, collector?_isSome]
    exact h.room
  once := h.once
  supplied p hp := by
    have hmem := (sig.unreached_sublist c.args.length).subset hp
    unfold Supplied
    cases hk : p.kind with
    | varPositional | varKeyword => trivial
    | keywordOnly => exact (h.named p hmem hk).symm
    | positionalOrKeyword =>
      have hs := h.supplied p (mem_drop_of_mem_unreached hp (by rw [hk]; rfl))
      exact hs.symm.imp_left And.right
    | positionalOnly =>
      have hs := h.supplied p (mem_drop_of_mem_unreached hp (by rw [hk]; rfl))
      refine ⟨hs.resolve_right (by simp [hk]), fun hc => ?_⟩
      -- no other parameter has its name, so the keyword argument has to be collected
      refine varKeyword?_isSome_iff.mpr ((h.known p.name hc).resolve_left ?_)
      rintro ⟨q, hq, hqk, hqp⟩
      rw [eq_of_name_eq hq hmem hqp, hk] at hqk
      cases hqk
  known k hk := by
    rw [takes_iff, varKeyword?_isSome_iff]
    exact h.known k hk

theorem Binds.accepts (h : sig.Binds c) : sig.Accepts c where
  room := by
    rw [← length_positional, ← collector?_isSome]
    exact h.placed
  once := h.once
  supplied p hp := by
    have hs := h.supplied p (List.mem_append_left _ hp)
    unfold Supplied at hs
    have hpos := (mem_positional.mp (List.mem_of_mem_drop hp)).2
    cases hk : p.kind with
    | positionalOnly =>
      rw [hk] at hs
      exact .inl hs.1
    | positionalOrKeyword =>
      rw [hk] at hs
      exact hs.symm.imp_right fun hc => ⟨rfl, hc⟩
    | varPositional | keywordOnly | varKeyword =>
      rw [hk] at hpos
      cases hpos
  named p hp hk := by
    have hs := h.supplied p (List.mem_append_right _ (List.mem_append_right _
      (mem_byName.mpr ⟨hp, .inl hk⟩)))
    rw [Supplied, hk] at hs
    exact hs.symm
  known k hk := by
    rw [← takes_iff, ← varKeyword?_isSome_iff]
    exact h.known k hk

theorem accepts_iff_binds : sig.Accepts c ↔ sig.Binds c :=
  ⟨Accepts.binds, Binds.accepts⟩

theorem exists_bind_of_accepts (h : sig.Accepts c) : ∃ b, sig.bind c = .ok b :=
  ⟨_, (bind_ok_iff sig c _).mpr ⟨h.binds, rfl⟩⟩

theorem accepts_of_bind (h : sig.bind c = .ok b) : sig.Accepts c :=
  ((bind_ok_iff sig c b).mp h).1.accepts

theorem mem_placed {ps : List Parameter} {args : List Value} {e : String × Bound} :
    e ∈ placed ps args ↔ ∃ (i : Nat) (p : Parameter) (v : Value),
      ps[i]? = some p ∧ args[i]? = some v ∧ e = (p.name, .value v) := by
  rw [placed, List.mem_iff_getElem?]
  simp only [List.getElem?_zipWith_eq_some, eq_comm (b := e)]

theorem mem_collected_iff {collector? : Option Parameter} {args : List Value}
    {e : String × Bound} : e ∈ collected collector? args ↔
      ∃ p, collector? = some p ∧ args ≠ [] ∧ e = (p.name, .varArgs args) := by
  cases collector? <;> cases args <;> simp [collected]

theorem mem_boundArguments {name : String} {bound : Bound} :
    (name, bound) ∈ sig.boundArguments c ↔
      ∃ p ∈ sig.parameters, p.name = name ∧ sig.Places c p bound := by
  have hsurplus : c.args.drop sig.positional.length ≠ [] ↔ sig.numPositional < c.args.length := by
    rw [length_positional, ne_eq, List.drop_eq_nil_iff, Nat.not_le]
  simp only [boundArguments, List.mem_append, mem_placed, mem_collected_iff, mem_taken,
    mem_absorbed, hsurplus, collector?_eq_some_iff, varKeyword?_eq_some_iff, Prod.mk.injEq]
  constructor
  · intro h
    rcases h with ((h | h) | h) | h
    · obtain ⟨i, p, v, hp, hv, rfl, rfl⟩ := h
      exact ⟨p, (mem_positional.mp (List.mem_of_getElem? hp)).1, rfl, .position hp hv⟩
    · obtain ⟨p, ⟨hp, hk⟩, hs, rfl, rfl⟩ := h
      rw [length_positional]
      exact ⟨p, hp, rfl, .surplus hk hs⟩
    · obtain ⟨p, hp, hk, v, hv, rfl, rfl⟩ := h
      exact ⟨p, hp, rfl, .keyword hk hv⟩
    · obtain ⟨hne, name, ⟨p, hp, hk, rfl⟩, rfl, rfl⟩ := h
      exact ⟨p, hp, rfl, .others hk (get?_untaken c.kwargs sig.parameters) hne⟩
  · intro h
    obtain ⟨p, hp, rfl, h⟩ := h
    cases h with
    | position hp hv => exact .inl (.inl (.inl ⟨_, _, _, hp, hv, rfl, rfl⟩))
    | surplus hk hs =>
      exact .inl (.inl (.inr ⟨_, ⟨hp, hk⟩, hs, rfl, by rw [length_positional]⟩))
    | keyword hk hv => exact .inl (.inr ⟨_, hp, hk, _, hv, rfl, rfl⟩)
    | @others rest hk hr hne =>
      have hrest : rest = untaken c.kwargs sig.parameters := by
        apply Kwargs.ext_get?
        intro k
        rw [hr, get?_untaken]
      subst hrest
      exact .inr ⟨hne, _, ⟨p, hp, hk, rfl⟩, rfl, rfl⟩

theorem names_taken (kwargs : Kwargs) (ps : List Parameter) :
    ((taken kwargs ps).map Prod.fst).Sublist
      ((ps.filter (·.kind.acceptsKeyword)).map (·.name)) := by
  induction ps with
  | nil => exact .slnil
  | cons p ps ih =>
    cases ha : p.kind.acceptsKeyword with
    | false => simpa [taken, ha] using ih
    | true =>
      cases hg : kwargs.get? p.name with
      | none => simpa [taken, ha, hg] using ih.cons p.name
      | some v => simpa [taken, ha, hg] using ih

/-- The parameters that only names reach come before the one that collects by name. -/
theorem byName_eq (sig : Signature) : sig.byName =
    sig.parameters.filter (·.kind == .keywordOnly) ++
      (sig.parameters.find? (·.kind == .varKeyword)).toList := by
  have hord := sig.wellFormed.ordered
  have hfirst : sig.byName.Pairwise fun p q =>
      (q.kind == .keywordOnly) = true → (p.kind == .keywordOnly) = true := by
    refine (hord.filter _).imp_of_mem fun {p q} hp _ hpq hq => ?_
    rcases (mem_byName.mp hp).2 with hk | hk
    · exact beq_iff_eq.mpr hk
    · simp [mayFollow, hk, beq_iff_eq.mp hq, Parameter.Kind.rank] at hpq
  have hsplit := filter_append_filter_not hfirst
  rw [← hsplit, ← sig.filter_kind rfl, byName, List.filter_filter, List.filter_filter]
  congr 1 <;>
  · apply List.filter_congr
    intro p _
    cases p.kind <;> rfl

theorem names_placed (ps : List Parameter) (args : List Value) :
    (placed ps args).map Prod.fst = (ps.take args.length).map (·.name) := by
  induction ps generalizing args with
  | nil => simp [placed]
  | cons p ps ih =>
    cases args with
    | nil => rfl
    | cons v args => simpa [placed] using ih args

theorem names_collected (collector? : Option Parameter) (args : List Value) :
    ((collected collector? args).map Prod.fst).Sublist (collector?.toList.map (·.name)) := by
  cases collector? <;> cases args <;> simp [collected]

theorem names_absorbed (sig : Signature) (rest : Kwargs) :
    ((absorbed sig.varKeyword? rest).map Prod.fst).Sublist
      ((sig.parameters.find? (·.kind == .varKeyword)).toList.map (·.name)) := by
  unfold varKeyword?
  cases sig.parameters.find? (·.kind == .varKeyword) <;> cases h : rest.isEmpty <;>
    simp [absorbed, h]

/-- Of the parameters that are not reached by position, those that can take an argument. -/
theorem filter_acceptsKeyword_unreached (sig : Signature) (count : Nat) :
    ((sig.unreached count).filter (·.kind.acceptsKeyword)).Sublist
      (sig.positional.drop count ++ sig.parameters.filter (·.kind == .keywordOnly)) := by
  have hcollector : (if sig.positional.length < count then [] else
      sig.collector?.toList).filter (·.kind.acceptsKeyword) = [] := by
    rw [List.filter_eq_nil_iff]
    intro p hp
    split at hp
    · cases hp
    · simp [(collector?_eq_some_iff.mp (Option.mem_toList.mp hp)).2, Parameter.Kind.acceptsKeyword]
  have hbyName : sig.byName.filter (·.kind.acceptsKeyword) =
      sig.parameters.filter (·.kind == .keywordOnly) := by
    rw [byName, List.filter_filter]
    apply List.filter_congr
    intro p _
    cases p.kind <;> rfl
  rw [unreached, List.filter_append, List.filter_append, hcollector, hbyName, List.nil_append]
  exact (List.filter_sublist).append (.refl _)

theorem names_reached (sig : Signature) (args : List Value) :
    ((placed sig.positional args).map Prod.fst ++
        (collected sig.collector? (args.drop sig.positional.length)).map Prod.fst ++
        (sig.positional.drop args.length).map (·.name)).Sublist
      (sig.positional.map (·.name) ++ sig.collector?.toList.map (·.name)) := by
  rw [names_placed]
  by_cases hle : args.length ≤ sig.positional.length
  · rw [List.drop_eq_nil_of_le hle, collected_nil, List.map_nil, List.append_nil, ← List.map_append,
      List.take_append_drop]
    exact List.sublist_append_left _ _
  · have hnone : sig.positional.drop args.length = [] := List.drop_eq_nil_of_le (by omega)
    rw [List.take_of_length_le (by omega), hnone, List.map_nil, List.append_nil]
    exact (List.Sublist.refl _).append (names_collected _ _)

/-- Arguments are bound in the order of the parameters. -/
theorem names_boundArguments
    (honce : ∀ p ∈ sig.positional.take c.args.length, GivenOnce c.kwargs p) :
    ((sig.boundArguments c).map Prod.fst).Sublist (sig.parameters.map (·.name)) := by
  have htaken := (names_taken c.kwargs (sig.unreached c.args.length)).trans
    ((sig.filter_acceptsKeyword_unreached c.args.length).map _)
  rw [taken_unreached honce, List.map_append] at htaken
  have hrest := htaken.append (sig.names_absorbed (untaken c.kwargs sig.parameters))
  have hreached := (sig.names_reached c.args).append
    (.refl ((sig.parameters.filter (·.kind == .keywordOnly)).map (·.name) ++
      (sig.parameters.find? (·.kind == .varKeyword)).toList.map (·.name)))
  have hnames := congrArg (List.map (·.name)) sig.parameters_eq
  rw [sig.byName_eq] at hnames
  rw [hnames, boundArguments]
  simp only [List.map_append, List.append_assoc] at hrest hreached ⊢
  exact ((List.Sublist.refl _).append ((List.Sublist.refl _).append hrest)).trans hreached

theorem laidOut_of_bind (h : sig.bind c = .ok b) : sig.LaidOut c b := by
  obtain ⟨hbinds, rfl⟩ := (bind_ok_iff sig c b).mp h
  exact ⟨rfl, names_boundArguments hbinds.once, fun _ _ => mem_boundArguments⟩

/-- There is one way to lay out a call. -/
theorem LaidOut.unique {b' : BoundCall} (h : sig.LaidOut c b) (h' : sig.LaidOut c b') : b = b' := by
  obtain ⟨signature, arguments⟩ := b
  obtain ⟨signature', arguments'⟩ := b'
  obtain rfl : signature = sig := h.signature
  obtain rfl : signature' = signature := h'.signature
  congr 1
  refine Entries.eq_of_mem_iff (nodup_names _) h.ordered h'.ordered fun name bound => ?_
  exact (h.places name bound).trans (h'.places name bound).symm

theorem LaidOut.get?_iff (h : sig.LaidOut c b) (hp : p ∈ sig.parameters) {x : Bound} :
    b.get? p.name = some x ↔ sig.Places c p x := by
  rw [BoundCall.get?, ← Entries.mem_iff_lookup (sig.nodup_names.sublist h.ordered), h.places]
  constructor
  · intro hx
    obtain ⟨q, hq, hname, hx⟩ := hx
    rwa [eq_of_name_eq hp hq hname.symm]
  · intro hx
    exact ⟨p, hp, rfl, hx⟩

theorem LaidOut.contains (h : sig.LaidOut c b) (hp : p ∈ sig.parameters) {x : Bound}
    (hx : sig.Places c p x) : b.contains p.name = true := by
  rw [BoundCall.contains, (h.get?_iff hp).mpr hx]
  rfl

/-- Binding succeeds exactly for the calls that a signature accepts. Then every argument is with
the one parameter it goes to, in the order of the parameters, and nothing else is bound. -/
theorem bind_lays_out (sig : Signature) (c : Call) :
    ((∃ b, sig.bind c = .ok b) ↔ sig.Accepts c) ∧
      ∀ b, sig.bind c = .ok b → sig.LaidOut c b := by
  refine ⟨?_, fun b h => laidOut_of_bind h⟩
  rw [accepts_iff_binds]
  constructor
  · intro h
    obtain ⟨b, hb⟩ := h
    exact ((bind_ok_iff sig c b).mp hb).1
  · intro h
    exact ⟨_, (bind_ok_iff sig c _).mpr ⟨h, rfl⟩⟩

/-- A keyword argument with the name of a positional-only parameter is collected. -/
theorem bind_lays_out_every_kind :
    let sig : Signature := ⟨[{ name := "a", kind := .positionalOnly },
      { name := "b", kind := .positionalOrKeyword, default := some (.int 0) },
      { name := "rest", kind := .varPositional }, { name := "c", kind := .keywordOnly },
      { name := "kw", kind := .varKeyword }], rfl⟩
    let c : Call := ⟨[.int 1, .int 2, .int 3], .ofList [("c", .int 4), ("a", .int 5)]⟩
    sig.Accepts c ∧ ∃ b, sig.bind c = .ok b ∧ sig.LaidOut c b ∧
      b.arguments = [("a", .value (.int 1)), ("b", .value (.int 2)), ("rest", .varArgs [.int 3]),
        ("c", .value (.int 4)), ("kw", .varKwargs (.ofList [("a", .int 5)]))] := by
  intro sig c
  obtain ⟨b, hb⟩ := exists_ok (x := sig.bind c) rfl
  have hlays := bind_lays_out sig c
  refine ⟨hlays.1.mp ⟨b, hb⟩, b, hb, hlays.2 b hb, ?_⟩
  cases hb
  rfl

end Signature
end Staging
