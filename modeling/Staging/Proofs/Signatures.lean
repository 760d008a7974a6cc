import Mathlib.Data.List.Pairwise
import Mathlib.Tactic.ByContra
import Staging.Signature.Basic

namespace Staging

/-- Where what is picked out comes before all else, picking splits a list in two. -/
theorem filter_append_filter_not {α : Type} {p : α → Bool} {xs : List α}
    (h : xs.Pairwise fun x y => p y = true → p x = true) :
    xs.filter p ++ xs.filter (!p ·) = xs := by
  induction xs with
  | nil => rfl
  | cons x xs ih =>
    obtain ⟨hx, hxs⟩ := List.pairwise_cons.mp h
    by_cases hp : p x = true
    · simp [hp, ih hxs]
    · have hnone : xs.filter p = [] := by
        rw [List.filter_eq_nil_iff]
        intro y hy hpy
        exact hp (hx y hy hpy)
      have hall : xs.filter (!p ·) = xs := by
        rw [List.filter_eq_self]
        intro y hy
        simpa using fun hpy => hp (hx y hy hpy)
      simp [hp, hnone, hall]

/-- What is picked out at most once is what is found first. -/
theorem filter_eq_find? {α : Type} {p : α → Bool} {xs : List α}
    (h : xs.Pairwise fun x y => p x = true → p y = false) :
    xs.filter p = (xs.find? p).toList := by
  induction xs with
  | nil => rfl
  | cons x xs ih =>
    obtain ⟨hx, hxs⟩ := List.pairwise_cons.mp h
    by_cases hp : p x = true
    · have hnone : xs.filter p = [] := by
        rw [List.filter_eq_nil_iff]
        intro y hy
        simp [hx y hy hp]
      simp [hp, hnone]
    · simp [hp, ih hxs]

theorem Parameter.Kind.eq_positionalOrKeyword {kind : Kind} (hp : kind.isPositional = true)
    (hk : kind.acceptsKeyword = true) : kind = .positionalOrKeyword := by
  cases kind with
  | positionalOrKeyword => rfl
  | positionalOnly => cases hk
  | varPositional => cases hp
  | keywordOnly => cases hp
  | varKeyword => cases hp

theorem Parameter.Kind.rank_inj {k l : Kind} (h : k.rank = l.rank) : k = l := by
  cases k <;> cases l <;> first | rfl | cases h

namespace Signature

/-- Kinds come in order, and no kind that collects comes next to itself. -/
theorem mayFollow_iff {p q : Parameter} : mayFollow q p = true ↔
    p.kind.rank ≤ q.kind.rank ∧ (p.kind = q.kind → p.kind.isVariadic = false) := by
  simp only [mayFollow, Bool.or_eq_true, decide_eq_true_eq, Bool.and_eq_true, beq_iff_eq,
    Bool.not_eq_true']
  constructor
  · intro h
    rcases h with hlt | ⟨hk, hv⟩
    · exact ⟨Nat.le_of_lt hlt, fun hk => absurd (congrArg _ hk) (Nat.ne_of_lt hlt)⟩
    · exact ⟨Nat.le_of_eq (congrArg _ hk), fun _ => hk ▸ hv⟩
  · intro h
    obtain ⟨hle, hv⟩ := h
    rcases Nat.lt_or_eq_of_le hle with hlt | heq
    · exact .inl hlt
    · have hk := Parameter.Kind.rank_inj heq
      exact .inr ⟨hk, hk ▸ hv hk⟩

theorem mayFollow_trans {p q r : Parameter} (hqp : mayFollow q p = true)
    (hrq : mayFollow r q = true) : mayFollow r p = true := by
  obtain ⟨hle, hv⟩ := mayFollow_iff.mp hqp
  obtain ⟨hle', -⟩ := mayFollow_iff.mp hrq
  refine mayFollow_iff.mpr ⟨Nat.le_trans hle hle', fun hk => hv ?_⟩
  -- between parameters of one kind there is no other
  rw [← hk] at hle'
  exact Parameter.Kind.rank_inj (Nat.le_antisymm hle hle')

theorem mayFollow_isPositional {p q : Parameter} (h : mayFollow q p = true)
    (hq : q.kind.isPositional = true) : p.kind.isPositional = true := by
  cases hp : p.kind <;> cases hq' : q.kind <;>
    simp_all [mayFollow, Parameter.Kind.rank, Parameter.Kind.isPositional]

theorem mayFollow_positionalOnly {p q : Parameter} (h : mayFollow q p = true)
    (hq : q.kind = .positionalOnly) : p.kind = .positionalOnly := by
  cases hp : p.kind <;> simp_all [mayFollow, Parameter.Kind.rank]

/-- The parameter lists that make a signature. -/
structure WellFormed (ps : List Parameter) : Prop where
  named : ∀ p ∈ ps, p.name.isEmpty = false
  distinct : ps.Pairwise fun p q => p.name ≠ q.name
  ordered : ps.Pairwise fun p q => mayFollow q p = true
  optional_last : ps.Pairwise fun p q =>
    p.kind.isPositional = true → p.isOptional = true → q.kind.isPositional = true →
      q.isOptional = true
  variadic_plain : ∀ p ∈ ps, p.kind.isVariadic = true → p.isOptional = false

namespace WellFormed

variable {ps qs before : List Parameter} {p : Parameter}

theorem nil : WellFormed [] :=
  ⟨fun _ h => absurd h List.not_mem_nil, .nil, .nil, .nil, fun _ h => absurd h List.not_mem_nil⟩

theorem sublist (h : WellFormed qs) (hs : ps.Sublist qs) : WellFormed ps where
  named p hp := h.named p (hs.subset hp)
  distinct := h.distinct.sublist hs
  ordered := h.ordered.sublist hs
  optional_last := h.optional_last.sublist hs
  variadic_plain p hp := h.variadic_plain p (hs.subset hp)

end WellFormed

/-- A parameter has no fault in its place. -/
structure Fits (before : List Parameter) (p : Parameter) : Prop where
  named : p.name.isEmpty = false
  distinct : ∀ q ∈ before, q.name ≠ p.name
  ordered : ∀ q ∈ before, mayFollow p q = true
  optional_last : ∀ q ∈ before, q.kind.isPositional = true → q.isOptional = true →
    p.kind.isPositional = true → p.isOptional = true
  variadic_plain : p.kind.isVariadic = true → p.isOptional = false

/-- To follow the nearest parameter is to follow all before it. -/
theorem follows_all_iff {before : List Parameter} {p : Parameter}
    (h : WellFormed before.reverse) :
    (∀ q, before.head? = some q → mayFollow p q = true) ↔ ∀ q ∈ before, mayFollow p q = true := by
  cases before with
  | nil => simp
  | cons r before =>
    constructor
    · intro hr q hq
      have hhead := hr r rfl
      rcases List.mem_cons.mp hq with rfl | hq
      · exact hhead
      · have hord := h.ordered
        rw [List.pairwise_reverse, List.pairwise_cons] at hord
        exact mayFollow_trans (hord.1 q hq) hhead
    · intro hall q hq
      exact hall q (List.mem_of_mem_head? hq)

/-- No check of a parameter finds a fault. -/
theorem fault?_eq_none {before : List Parameter} {p : Parameter} :
    fault? before p = none ↔ p.name.isEmpty = false ∧ before.any (·.name == p.name) = false ∧
      before.head?.filter (fun q => !mayFollow p q) = none ∧
      (p.kind.isPositional && !p.isOptional &&
        before.any fun q => q.kind.isPositional && q.isOptional) = false ∧
      (p.kind.isVariadic && p.isOptional) = false := by
  unfold fault?
  generalize p.name.isEmpty = unnamed
  generalize before.any (·.name == p.name) = repeated
  generalize before.head?.filter (fun q => !mayFollow p q) = misplaced
  generalize (p.kind.isPositional && !p.isOptional &&
    before.any fun q => q.kind.isPositional && q.isOptional) = late
  generalize (p.kind.isVariadic && p.isOptional) = defaulted
  cases unnamed <;> cases repeated <;> cases misplaced <;> cases late <;> cases defaulted <;> simp

theorem fault?_none_iff {before : List Parameter} {p : Parameter}
    (h : WellFormed before.reverse) : fault? before p = none ↔ Fits before p := by
  have hnear : before.head?.filter (fun q => !mayFollow p q) = none ↔
      ∀ q ∈ before, mayFollow p q = true := by
    rw [← follows_all_iff h, Option.filter_eq_none_iff]
    simp
  rw [fault?_eq_none, hnear]
  constructor
  · intro hf
    obtain ⟨hnamed, hdistinct, hordered, hoptional, hvariadic⟩ := hf
    refine ⟨hnamed, by simpa using hdistinct, hordered, ?_, by simpa using hvariadic⟩
    intro q hq hqp hqo hpp
    by_contra hpo
    simp only [Bool.and_eq_false_imp, Bool.and_eq_true, Bool.not_eq_true',
      List.any_eq_false] at hoptional
    exact hoptional ⟨hpp, by simpa using hpo⟩ q hq ⟨hqp, hqo⟩
  · intro hf
    refine ⟨hf.named, by simpa using hf.distinct, hf.ordered, ?_, ?_⟩
    · by_contra hc
      simp only [Bool.not_eq_false, Bool.and_eq_true, List.any_eq_true, Bool.not_eq_true'] at hc
      obtain ⟨⟨hpp, hpo⟩, q, hq, hqp, hqo⟩ := hc
      rw [hf.optional_last q hq hqp hqo hpp] at hpo
      cases hpo
    · by_contra hc
      simp only [Bool.not_eq_false, Bool.and_eq_true] at hc
      rw [hf.variadic_plain hc.1] at hc
      cases hc.2

theorem wellFormed_snoc {before : List Parameter} {p : Parameter} :
    WellFormed (p :: before).reverse ↔ WellFormed before.reverse ∧ Fits before p := by
  constructor
  · intro h
    refine ⟨h.sublist (List.reverse_sublist.mpr (List.sublist_cons_self p before)), ?_⟩
    have hd := h.distinct
    have ho := h.ordered
    have hp := h.optional_last
    rw [List.pairwise_reverse, List.pairwise_cons] at hd ho hp
    exact ⟨h.named p (by simp), hd.1, ho.1, hp.1, h.variadic_plain p (by simp)⟩
  · intro hfits
    obtain ⟨h, hf⟩ := hfits
    refine ⟨?_, ?_, ?_, ?_, ?_⟩
    · intro q hq
      rcases List.mem_cons.mp (List.mem_reverse.mp hq) with rfl | hq
      · exact hf.named
      · exact h.named q (List.mem_reverse.mpr hq)
    · have hd := h.distinct
      rw [List.pairwise_reverse] at hd ⊢
      exact .cons hf.distinct hd
    · have ho := h.ordered
      rw [List.pairwise_reverse] at ho ⊢
      exact .cons hf.ordered ho
    · have hp := h.optional_last
      rw [List.pairwise_reverse] at hp ⊢
      exact .cons hf.optional_last hp
    · intro q hq
      rcases List.mem_cons.mp (List.mem_reverse.mp hq) with rfl | hq
      · exact hf.variadic_plain
      · exact h.variadic_plain q (List.mem_reverse.mpr hq)

theorem checkAfter_ok_iff {before ps : List Parameter} (h : WellFormed before.reverse) :
    checkAfter before ps = .ok () ↔ WellFormed (before.reverse ++ ps) := by
  induction ps generalizing before with
  | nil => simpa [checkAfter] using h
  | cons p ps ih =>
    have hlist : before.reverse ++ p :: ps = (p :: before).reverse ++ ps := by simp
    unfold checkAfter
    rw [hlist]
    cases hf : fault? before p with
    | none => exact ih (wellFormed_snoc.mpr ⟨h, (fault?_none_iff h).mp hf⟩)
    | some e =>
      constructor
      · intro hc
        cases hc
      · intro hw
        have hsnoc := hw.sublist (List.sublist_append_left _ _)
        rw [(fault?_none_iff h).mpr (wellFormed_snoc.mp hsnoc).2] at hf
        cases hf

/-- The check accepts the well-formed parameter lists and no others. -/
theorem check_ok_iff (ps : List Parameter) : check ps = .ok () ↔ WellFormed ps :=
  checkAfter_ok_iff WellFormed.nil

theorem wellFormed (sig : Signature) : WellFormed sig.parameters :=
  (check_ok_iff _).mp sig.accepted

theorem ofParameters_self (sig : Signature) : ofParameters sig.parameters = .ok sig := by
  obtain ⟨ps, h⟩ := sig
  unfold ofParameters
  split
  · rfl
  · rename_i e he
    rw [h] at he
    cases he

theorem eq_of_name_eq {sig : Signature} {p q : Parameter} (hp : p ∈ sig.parameters)
    (hq : q ∈ sig.parameters) (h : p.name = q.name) : p = q := by
  by_contra hne
  have : Std.Symm fun p q : Parameter => p.name ≠ q.name := ⟨fun _ _ h => h.symm⟩
  exact sig.wellFormed.distinct.forall hp hq hne h

/-- There is one parameter at most of each kind that collects. -/
theorem filter_kind (sig : Signature) {kind : Parameter.Kind} (hv : kind.isVariadic = true) :
    sig.parameters.filter (·.kind == kind) = (sig.parameters.find? (·.kind == kind)).toList := by
  refine filter_eq_find? (sig.wellFormed.ordered.imp fun {p q} hpq hp => ?_)
  rw [beq_iff_eq] at hp
  rw [beq_eq_false_iff_ne]
  intro hq
  have hplain := (mayFollow_iff.mp hpq).2 (hp.trans hq.symm)
  rw [hp, hv] at hplain
  cases hplain

theorem find?_kind_eq_some_iff {sig : Signature} {kind : Parameter.Kind} {p : Parameter}
    (hv : kind.isVariadic = true) : sig.parameters.find? (·.kind == kind) = some p ↔
      p ∈ sig.parameters ∧ p.kind = kind := by
  rw [← Option.mem_toList, ← sig.filter_kind hv, List.mem_filter, beq_iff_eq]

theorem eq_of_variadic {sig : Signature} {p q : Parameter} (hp : p ∈ sig.parameters)
    (hq : q ∈ sig.parameters) (hk : p.kind = q.kind) (hv : p.kind.isVariadic = true) : p = q := by
  have hfound := (find?_kind_eq_some_iff hv).mpr ⟨hp, rfl⟩
  rw [(find?_kind_eq_some_iff hv).mpr ⟨hq, hk.symm⟩] at hfound
  exact (Option.some.inj hfound).symm

theorem varKeyword?_eq_some_iff {sig : Signature} {name : String} :
    sig.varKeyword? = some name ↔ ∃ p ∈ sig.parameters, p.kind = .varKeyword ∧ p.name = name := by
  rw [varKeyword?, Option.map_eq_some_iff]
  refine exists_congr fun p => ?_
  rw [find?_kind_eq_some_iff rfl, and_assoc]

/-- The parameters that take one positional argument each. -/
def positional (sig : Signature) : List Parameter :=
  sig.parameters.filter (·.kind.isPositional)

/-- The parameter that collects the positional arguments left over. -/
def collector? (sig : Signature) : Option Parameter :=
  sig.parameters.find? (·.kind == .varPositional)

/-- The parameters that no positional argument can reach. -/
def byName (sig : Signature) : List Parameter :=
  sig.parameters.filter fun p => p.kind == .keywordOnly || p.kind == .varKeyword

/-- The order that parameters are listed in. -/
theorem parameters_eq (sig : Signature) :
    sig.parameters = sig.positional ++ (sig.collector?.toList ++ sig.byName) := by
  have hord := sig.wellFormed.ordered
  have hpositional := filter_append_filter_not (p := fun p : Parameter => p.kind.isPositional)
    (hord.imp mayFollow_isPositional)
  have hrest := filter_append_filter_not (p := fun p : Parameter => p.kind == .varPositional)
    ((hord.filter fun p => !p.kind.isPositional).imp_of_mem fun {p q} hp _ hpq hq => by
      have hp := (List.mem_filter.mp hp).2
      cases hp' : p.kind <;> cases hq' : q.kind <;>
        simp_all [mayFollow, Parameter.Kind.rank, Parameter.Kind.isPositional])
  have hcollector : sig.parameters.filter (·.kind == .varPositional) = sig.collector?.toList :=
    sig.filter_kind rfl
  rw [List.filter_filter, List.filter_filter] at hrest
  rw [← hpositional, ← hrest, ← hcollector]
  congr 2
  · apply List.filter_congr
    intro p _
    cases p.kind <;> rfl
  · apply List.filter_congr
    intro p _
    cases p.kind <;> rfl

/-- Positional parameters are listed at the indices of the arguments they take. -/
theorem getElem?_parameters {sig : Signature} {i : Nat} {p : Parameter}
    (h : sig.positional[i]? = some p) : sig.parameters[i]? = some p := by
  rw [parameters_eq, List.getElem?_append_left (List.getElem?_eq_some_iff.mp h).1, h]

end Signature

end Staging
