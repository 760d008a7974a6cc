import Mathlib.Data.List.TakeWhile
import Staging.Proofs.Places

namespace Staging

open Signature (takes)

/-- Where every item gives something, results stand where their items do. -/
theorem getElem?_filterMap_of_isSome {α β : Type} {f : α → Option β} {xs : List α}
    (h : ∀ x ∈ xs, (f x).isSome = true) (i : Nat) : (xs.filterMap f)[i]? = xs[i]?.bind f := by
  induction xs generalizing i with
  | nil => rfl
  | cons x xs ih =>
    obtain ⟨y, hy⟩ := Option.isSome_iff_exists.mp (h x (by simp))
    rw [List.filterMap_cons, hy]
    cases i with
    | zero => simp [hy]
    | succ i => exact ih (fun z hz => h z (by simp [hz])) i

namespace Bound

/-- What parameters of a kind are bound to. -/
def Suits (kind : Parameter.Kind) : Bound → Prop
  | .value _ => kind.isVariadic = false
  | .varArgs _ => kind = .varPositional
  | .varKwargs _ => kind = .varKeyword

/-- Collects nothing. -/
def isVacant : Bound → Bool
  | .value _ => false
  | .varArgs items => items.isEmpty
  | .varKwargs kw => kw.isEmpty

/-- What a parameter of some name, once bound, passes on by name. -/
def Passes (name : String) (k : String) (v : Value) : Bound → Prop
  | .value w => k = name ∧ w = v
  | .varArgs _ => False
  | .varKwargs rest => rest.get? k = some v

end Bound

namespace BoundCall

/-- Without the collections that hold nothing. -/
def trimmed (b : BoundCall) : BoundCall :=
  { b with arguments := b.arguments.filter (!·.2.isVacant) }

/-- What binding makes of a call, and what it is with defaults filled in. -/
structure Regular (b : BoundCall) : Prop where
  ordered : (b.arguments.map Prod.fst).Sublist (b.signature.parameters.map (·.name))
  suits : ∀ p ∈ b.signature.parameters, ∀ x, b.get? p.name = some x → x.Suits p.kind
  optional : ∀ p ∈ b.signature.parameters, b.contains p.name = false →
    p.kind.isVariadic = true ∨ p.isOptional = true
  contiguous : b.signature.positional.Pairwise fun p q => q.kind = .positionalOnly →
    b.contains q.name = true → b.contains p.name = true
  full : ∀ q ∈ b.signature.parameters, q.kind = .varPositional → b.contains q.name = true →
    ∀ p ∈ b.signature.positional, b.contains p.name = true
  absorbed : ∀ p ∈ b.signature.parameters, ∀ rest, b.get? p.name = some (.varKwargs rest) →
    ∀ k, takes b.signature.parameters k = true → rest.get? k = none

/-- The positional parameters that what is read off passes by position. -/
def leading (b : BoundCall) : List Parameter :=
  b.signature.positional.takeWhile (b.contains ·.name)

def value? (b : BoundCall) (p : Parameter) : Option Value :=
  match b.get? p.name with
  | some (.value v) => some v
  | _ => none

/-- What the parameter that collects positional arguments has collected. -/
def items (b : BoundCall) : List Value :=
  match b.signature.collector?.bind (b.get? ·.name) with
  | some (.varArgs items) => items
  | _ => []

/-- What a parameter passes on by name. -/
def Gives (b : BoundCall) (k : String) (v : Value) (p : Parameter) : Prop :=
  ∃ x, b.get? p.name = some x ∧ x.Passes p.name k v

variable {b : BoundCall} {p q : Parameter} {k : String} {v : Value}

theorem value?_eq_some_iff : b.value? p = some v ↔ b.get? p.name = some (.value v) := by
  unfold value?
  cases b.get? p.name with
  | none => simp
  | some x => cases x <;> simp

theorem leading_append (b : BoundCall) :
    b.leading ++ b.signature.positional.dropWhile (b.contains ·.name) = b.signature.positional :=
  List.takeWhile_append_dropWhile

theorem mem_leading (hp : p ∈ b.leading) :
    p ∈ b.signature.positional ∧ b.contains p.name = true := by
  unfold leading at hp
  have hc := List.mem_takeWhile_imp hp
  exact ⟨(List.takeWhile_sublist _).subset hp, hc⟩

theorem not_leading (hk : p.kind.isPositional = false) : p ∉ b.leading := by
  intro hl
  rw [(Signature.mem_positional.mp (mem_leading hl).1).2] at hk
  cases hk

theorem positional_cons_value (ps : List Parameter) (hp : p.kind.isPositional = true)
    (hg : b.get? p.name = some (.value v)) : b.positional (p :: ps) = v :: b.positional ps := by
  rw [positional]
  cases hk : p.kind with
  | positionalOnly | positionalOrKeyword => simp only [hg]
  | varPositional | keywordOnly | varKeyword =>
    rw [hk] at hp
    cases hp

theorem positional_cons_unbound (ps : List Parameter) (hg : b.get? p.name = none) :
    b.positional (p :: ps) = [] := by
  rw [positional]
  cases p.kind <;> simp only [hg]

theorem positional_byName {ps : List Parameter}
    (hp : ∀ p ∈ ps, p.kind = .keywordOnly ∨ p.kind = .varKeyword) : b.positional ps = [] := by
  cases ps with
  | nil => rfl
  | cons p ps => rcases hp p (by simp) with hk | hk <;> simp only [positional, hk]

/-- Bound positional parameters are passed up to the first that is not bound. -/
theorem positional_append {ps : List Parameter} (more : List Parameter)
    (hp : ∀ p ∈ ps, p.kind.isPositional = true)
    (hv : ∀ p ∈ ps, b.contains p.name = true → ∃ v, b.get? p.name = some (.value v)) :
    b.positional (ps ++ more) = (ps.takeWhile (b.contains ·.name)).filterMap b.value? ++
      if ps.all (b.contains ·.name) then b.positional more else [] := by
  induction ps with
  | nil => simp
  | cons p ps ih =>
    have hrest := ih (fun q hq => hp q (by simp [hq])) (fun q hq => hv q (by simp [hq]))
    rw [List.cons_append]
    cases hc : b.contains p.name with
    | true =>
      obtain ⟨v, hg⟩ := hv p (by simp) hc
      have hvalue := value?_eq_some_iff.mpr hg
      rw [positional_cons_value _ (hp p (by simp)) hg, hrest]
      simp [hc, hvalue]
    | false =>
      have hg : b.get? p.name = none := by simpa [contains] using hc
      rw [positional_cons_unbound _ hg]
      simp [hc]

namespace Regular

variable (h : b.Regular)
include h

theorem nodup : (b.arguments.map Prod.fst).Nodup := b.signature.nodup_names.sublist h.ordered

theorem mem_arguments {name : String} {x : Bound} :
    (name, x) ∈ b.arguments ↔ b.get? name = some x :=
  Entries.mem_iff_lookup h.nodup

theorem exists_parameter {name : String} {x : Bound} (hx : b.get? name = some x) :
    ∃ p ∈ b.signature.parameters, p.name = name :=
  List.mem_map.mp (h.ordered.subset (List.mem_map_of_mem (h.mem_arguments.mpr hx)))

/-- Parameters that do not collect are bound to one value each. -/
theorem value_of_contains (hp : p ∈ b.signature.parameters) (hk : p.kind.isVariadic = false)
    (hc : b.contains p.name = true) : ∃ v, b.get? p.name = some (.value v) := by
  obtain ⟨x, hx⟩ := Option.isSome_iff_exists.mp hc
  have hs := h.suits p hp x hx
  cases x with
  | value v => exact ⟨v, hx⟩
  | varArgs items =>
    rw [show p.kind = .varPositional from hs] at hk
    cases hk
  | varKwargs rest =>
    rw [show p.kind = .varKeyword from hs] at hk
    cases hk

theorem value_of_positional (hp : p ∈ b.signature.positional) (hc : b.contains p.name = true) :
    ∃ v, b.get? p.name = some (.value v) := by
  obtain ⟨hmem, hk⟩ := Signature.mem_positional.mp hp
  exact h.value_of_contains hmem (Parameter.Kind.not_isVariadic_of_isPositional hk) hc

theorem varArgs_of_varPositional {x : Bound} (hp : p ∈ b.signature.parameters)
    (hk : p.kind = .varPositional) (hx : b.get? p.name = some x) : ∃ items, x = .varArgs items := by
  have hs := h.suits p hp x hx
  rw [hk] at hs
  cases x with
  | varArgs items => exact ⟨items, rfl⟩
  | value v | varKwargs rest => cases hs

theorem positional_collector : b.positional (b.signature.collector?.toList ++ b.signature.byName) =
    b.items := by
  have hbyName : b.positional b.signature.byName = [] :=
    positional_byName fun p hp => (Signature.mem_byName.mp hp).2
  unfold items
  cases hc : b.signature.collector? with
  | none => exact hbyName
  | some q =>
    obtain ⟨hq, hk⟩ := Signature.collector?_eq_some_iff.mp hc
    cases hg : b.get? q.name with
    | none => simp [positional_cons_unbound _ hg, hg]
    | some x =>
      obtain ⟨items, rfl⟩ := h.varArgs_of_varPositional hq hk hg
      simp [positional, hk, hg, hbyName]

/-- Nothing is collected unless all positional parameters are bound. -/
theorem items_eq_nil (hall : ¬ ∀ p ∈ b.signature.positional, b.contains p.name = true) :
    b.items = [] := by
  unfold items
  cases hc : b.signature.collector? with
  | none => rfl
  | some q =>
    obtain ⟨hq, hk⟩ := Signature.collector?_eq_some_iff.mp hc
    have hg : b.get? q.name = none := by
      by_contra hne
      exact hall (h.full q hq hk (Option.isSome_iff_ne_none.mpr hne))
    simp [hg]

theorem args_eq : b.args = b.leading.filterMap b.value? ++ b.items := by
  have hpos : ∀ p ∈ b.signature.positional, p.kind.isPositional = true := by
    intro p hp
    exact (Signature.mem_positional.mp hp).2
  rw [args, b.signature.parameters_eq, positional_append _ hpos fun p => h.value_of_positional,
    h.positional_collector, BoundCall.leading]
  split
  · rfl
  · rename_i hall
    rw [h.items_eq_nil (by simpa using hall)]

theorem isSome_value?_of_leading : ∀ p ∈ b.leading, (b.value? p).isSome = true := by
  intro p hp
  obtain ⟨hpos, hc⟩ := mem_leading hp
  obtain ⟨v, hv⟩ := h.value_of_positional hpos hc
  rw [value?_eq_some_iff.mpr hv]
  rfl

theorem length_filterMap_leading : (b.leading.filterMap b.value?).length = b.leading.length := by
  rw [List.length_filterMap_eq_countP, List.countP_eq_length]
  exact h.isSome_value?_of_leading

/-- A positional parameter takes its argument by position if those before it do. -/
theorem args_getElem? {i : Nat} (hp : b.signature.positional[i]? = some p) :
    b.args[i]? = if i < b.leading.length then b.value? p else none := by
  obtain ⟨hi, -⟩ := List.getElem?_eq_some_iff.mp hp
  have hlen := h.length_filterMap_leading
  rw [h.args_eq]
  split
  · rename_i hlt
    have hl : b.leading[i]? = some p := by
      rw [← hp, ← leading_append b, List.getElem?_append_left hlt]
    rw [List.getElem?_append_left (by omega),
      getElem?_filterMap_of_isSome h.isSome_value?_of_leading, hl]
    rfl
  · rename_i hge
    have hall : ¬ ∀ p ∈ b.signature.positional, b.contains p.name = true := by
      intro hall
      have : b.leading = b.signature.positional := List.takeWhile_eq_self_iff.mpr hall
      rw [this] at hge
      exact hge hi
    rw [h.items_eq_nil hall, List.append_nil, List.getElem?_eq_none (by omega)]

theorem drop_args : b.args.drop b.signature.numPositional = b.items := by
  have hlen := h.length_filterMap_leading
  rw [h.args_eq, ← Signature.length_positional]
  by_cases hall : ∀ p ∈ b.signature.positional, b.contains p.name = true
  · have : b.leading = b.signature.positional := List.takeWhile_eq_self_iff.mpr hall
    rw [this] at hlen ⊢
    rw [List.drop_left' hlen]
  · rw [h.items_eq_nil hall, List.append_nil, List.drop_eq_nil_iff, hlen, ← leading_append b,
      List.length_append]
    omega

end Regular

theorem mem_leading_iff {i : Nat} (hp : b.signature.positional[i]? = some p) :
    p ∈ b.leading ↔ i < b.leading.length := by
  have hfront : ∀ j < b.leading.length, b.leading[j]? = b.signature.positional[j]? := by
    intro j hj
    rw [← leading_append b, List.getElem?_append_left hj]
  constructor
  · intro hmem
    obtain ⟨j, hj⟩ := List.mem_iff_getElem?.mp hmem
    obtain ⟨hlt, -⟩ := List.getElem?_eq_some_iff.mp hj
    rw [hfront j hlt] at hj
    obtain ⟨hi, -⟩ := List.getElem?_eq_some_iff.mp hp
    rwa [(List.getElem?_inj hi b.signature.nodup_positional).mp (hp.trans hj.symm)]
  · intro hlt
    exact List.mem_of_getElem? ((hfront i hlt).trans hp)

theorem get?_pass (kw : Kwargs) :
    (b.pass kw p).get? k = some v ↔
      b.Gives k v p ∨ (∀ w, ¬ b.Gives k w p) ∧ kw.get? k = some v := by
  unfold pass Gives
  cases hg : b.get? p.name with
  | none => simp
  | some x =>
    cases x with
    | value w =>
      simp only [Kwargs.get?_put, Option.some.injEq, exists_eq_left', Bound.Passes]
      by_cases hk : k = p.name <;> simp [hk, eq_comm]
    | varArgs items => simp [Bound.Passes]
    | varKwargs rest =>
      simp only [Kwargs.get?_merge, Option.some.injEq, exists_eq_left', Bound.Passes]
      cases rest.get? k <;> simp [eq_comm]

/-- Parameters that pass on nothing by the same name may be gone through in any order. -/
theorem get?_foldl_pass {ps : List Parameter} (kw : Kwargs)
    (hd : ps.Pairwise fun p q => ∀ k v w, b.Gives k v p → ¬ b.Gives k w q) :
    (ps.foldl b.pass kw).get? k = some v ↔
      (∃ p ∈ ps, b.Gives k v p) ∨ (∀ p ∈ ps, ∀ w, ¬ b.Gives k w p) ∧ kw.get? k = some v := by
  induction ps generalizing kw with
  | nil => simp
  | cons p ps ih =>
    obtain ⟨hp, hps⟩ := List.pairwise_cons.mp hd
    rw [List.foldl_cons, ih _ hps, get?_pass, List.exists_mem_cons_iff, List.forall_mem_cons]
    constructor
    · intro h
      rcases h with h | ⟨hno, h | ⟨hpno, hkw⟩⟩
      · exact .inl (.inr h)
      · exact .inl (.inl h)
      · exact .inr ⟨⟨hpno, hno⟩, hkw⟩
    · intro h
      rcases h with (h | h) | ⟨⟨hpno, hno⟩, hkw⟩
      · exact .inr ⟨fun q hq w => hp q hq k v w h, .inl h⟩
      · exact .inl h
      · exact .inr ⟨hno, .inr ⟨hpno, hkw⟩⟩

theorem named_cons (ps : List Parameter)
    (hk : ¬ (p.kind = .keywordOnly ∨ p.kind = .varKeyword)) :
    b.named (p :: ps) = if b.contains p.name then b.named ps else ps := by
  rw [named]
  cases hp : p.kind with
  | positionalOnly | positionalOrKeyword | varPositional => rfl
  | keywordOnly => exact absurd (.inl hp) hk
  | varKeyword => exact absurd (.inr hp) hk

theorem named_byName {ps : List Parameter}
    (hp : ∀ p ∈ ps, p.kind = .keywordOnly ∨ p.kind = .varKeyword) : b.named ps = ps := by
  cases ps with
  | nil => rfl
  | cons p ps => rcases hp p (by simp) with hk | hk <;> simp only [named, hk]

theorem named_sublist (ps : List Parameter) : (b.named ps).Sublist ps := by
  induction ps with
  | nil => exact .refl _
  | cons p ps ih =>
    by_cases hk : p.kind = .keywordOnly ∨ p.kind = .varKeyword
    · rcases hk with hk | hk <;> simp [named, hk]
    · rw [named_cons _ hk]
      split
      · exact ih.cons p
      · exact List.sublist_cons_self p ps

/-- What is passed by name starts after the first parameter that is not bound. -/
theorem named_append {ps : List Parameter} (more : List Parameter)
    (hp : ∀ p ∈ ps, p.kind.isPositional = true) :
    b.named (ps ++ more) =
      if ps.all (b.contains ·.name) then b.named more
      else (ps.dropWhile (b.contains ·.name)).tail ++ more := by
  induction ps with
  | nil => rfl
  | cons p ps ih =>
    have hpos := hp p (by simp)
    have hk : ¬ (p.kind = .keywordOnly ∨ p.kind = .varKeyword) := by
      rintro (hk | hk) <;> rw [hk] at hpos <;> cases hpos
    rw [List.cons_append, named_cons _ hk, ih fun q hq => hp q (by simp [hq])]
    cases hc : b.contains p.name <;> simp [hc]

theorem named_parameters (b : BoundCall) : b.named b.signature.parameters =
    if b.signature.positional.all (b.contains ·.name) then b.signature.byName
    else (b.signature.positional.dropWhile (b.contains ·.name)).tail ++
      (b.signature.collector?.toList ++ b.signature.byName) := by
  have hbyName : b.named b.signature.byName = b.signature.byName :=
    named_byName fun p hp => (Signature.mem_byName.mp hp).2
  have hcollector : b.named (b.signature.collector?.toList ++ b.signature.byName) =
      b.signature.byName := by
    cases hc : b.signature.collector? with
    | none => exact hbyName
    | some q =>
      have hk := (Signature.collector?_eq_some_iff.mp hc).2
      rw [Option.toList_some, List.singleton_append, named_cons _ (by simp [hk]), hbyName, ite_self]
  conv => lhs; rw [b.signature.parameters_eq]
  rw [named_append _ fun p hp => (Signature.mem_positional.mp hp).2, hcollector]

/-- Parameters passed by name are not passed by position too. -/
theorem not_leading_of_named (hp : p ∈ b.named b.signature.parameters) : p ∉ b.leading := by
  rw [named_parameters] at hp
  split at hp
  · exact not_leading (Signature.not_isPositional_of_mem_byName hp)
  · rw [List.mem_append, List.mem_append] at hp
    rcases hp with hp | hp | hp
    · have hnodup := b.signature.nodup_positional
      rw [← leading_append b] at hnodup
      intro hl
      exact (List.nodup_append'.mp hnodup).2.2 hl (List.mem_of_mem_tail hp)
    · exact not_leading (Signature.not_isPositional_of_mem_collector? hp)
    · exact not_leading (Signature.not_isPositional_of_mem_byName hp)

/-- Past the leading parameters there is first one that is not bound. -/
theorem exists_first_unbound (hp : p ∈ b.signature.positional) (hl : p ∉ b.leading) :
    ∃ q qs, b.signature.positional.dropWhile (b.contains ·.name) = q :: qs ∧ p ∈ q :: qs ∧
      b.contains q.name = false := by
  rw [← leading_append b, List.mem_append] at hp
  have hp := hp.resolve_left hl
  have hne := List.ne_nil_of_mem hp
  refine ⟨_, _, (List.cons_head_tail hne).symm, ?_, List.head_dropWhile_not _ hne⟩
  rwa [List.cons_head_tail]

theorem mem_named_of_positional (hp : p ∈ b.signature.positional) (hl : p ∉ b.leading)
    (hc : b.contains p.name = true) : p ∈ b.named b.signature.parameters := by
  obtain ⟨q, qs, hd, hpq, hq⟩ := exists_first_unbound hp hl
  have hmem : q ∈ b.signature.positional :=
    (List.dropWhile_sublist _).subset (hd ▸ List.mem_cons_self)
  have hall : ¬ b.signature.positional.all (b.contains ·.name) = true := by
    intro hall
    rw [List.all_eq_true.mp hall q hmem] at hq
    cases hq
  have hne : p ≠ q := by
    rintro rfl
    rw [hc] at hq
    cases hq
  rw [named_parameters, if_neg hall, hd]
  exact List.mem_append_left _ ((List.mem_cons.mp hpq).resolve_left hne)

theorem mem_named_of_byName (hp : p ∈ b.signature.byName) :
    p ∈ b.named b.signature.parameters := by
  rw [named_parameters]
  split
  · exact hp
  · exact List.mem_append_right _ (List.mem_append_right _ hp)

/-- Whatever passes something on by name is among the parameters to pass by name. -/
theorem mem_named_of_gives (h : b.Regular) (hp : p ∈ b.signature.parameters) (hl : p ∉ b.leading)
    (hg : b.Gives k v p) : p ∈ b.named b.signature.parameters := by
  obtain ⟨x, hx, hpass⟩ := hg
  rw [b.signature.parameters_eq, List.mem_append, List.mem_append] at hp
  rcases hp with hp | hp | hp
  · refine mem_named_of_positional hp hl ?_
    rw [contains, hx]
    rfl
  · obtain ⟨hq, hk⟩ := Signature.collector?_eq_some_iff.mp (Option.mem_toList.mp hp)
    obtain ⟨items, rfl⟩ := h.varArgs_of_varPositional hq hk hx
    cases hpass
  · exact mem_named_of_byName hp

namespace Regular

variable (h : b.Regular)
include h

/-- A positional-only parameter that is not passed by position is not bound. -/
theorem unbound_of_positionalOnly (hp : p ∈ b.signature.parameters) (hk : p.kind = .positionalOnly)
    (hl : p ∉ b.leading) : b.contains p.name = false := by
  have hpos : p ∈ b.signature.positional := Signature.mem_positional.mpr ⟨hp, by rw [hk]; rfl⟩
  obtain ⟨q, qs, hd, hpq, hq⟩ := exists_first_unbound hpos hl
  have hcontiguous := h.contiguous.sublist (List.dropWhile_sublist (b.contains ·.name))
  rw [hd] at hcontiguous
  rcases List.mem_cons.mp hpq with rfl | hrest
  · exact hq
  · by_contra hc
    have := (List.pairwise_cons.mp hcontiguous).1 p hrest hk (by simpa using hc)
    rw [hq] at this
    cases this

/-- A value that is not passed by position is of a parameter that can be named. -/
theorem acceptsKeyword_of_value (hp : p ∈ b.signature.parameters) (hl : p ∉ b.leading)
    (hv : b.get? p.name = some (.value v)) : p.kind.acceptsKeyword = true := by
  have hs := h.suits p hp _ hv
  cases hk : p.kind with
  | positionalOrKeyword | keywordOnly => rfl
  | positionalOnly =>
    have := h.unbound_of_positionalOnly hp hk hl
    rw [contains, hv] at this
    cases this
  | varPositional | varKeyword =>
    rw [Bound.Suits, hk] at hs
    cases hs

/-- Under the name of a parameter that can be named only that parameter passes on anything. -/
theorem gives_of_takes (hp : p ∈ b.signature.parameters) (hk : p.kind.acceptsKeyword = true)
    (hq : q ∈ b.signature.parameters) (hg : b.Gives p.name v q) :
    q = p ∧ b.get? p.name = some (.value v) := by
  obtain ⟨x, hx, hpass⟩ := hg
  cases x with
  | value w =>
    obtain ⟨hname, rfl⟩ := hpass
    obtain rfl := Signature.eq_of_name_eq hp hq hname
    exact ⟨rfl, hx⟩
  | varArgs items => cases hpass
  | varKwargs rest =>
    have htakes := Signature.takes_iff.mpr ⟨p, hp, hk, rfl⟩
    rw [Bound.Passes, h.absorbed q hq rest hx _ htakes] at hpass
    cases hpass

/-- All other names are passed on from what was collected. -/
theorem gives_of_not_takes (hk : takes b.signature.parameters k = false)
    (hp : p ∈ b.signature.parameters) (hl : p ∉ b.leading) (hg : b.Gives k v p) :
    ∃ rest, b.get? p.name = some (.varKwargs rest) ∧ rest.get? k = some v := by
  obtain ⟨x, hx, hpass⟩ := hg
  cases x with
  | value w =>
    obtain ⟨rfl, -⟩ := hpass
    rw [Signature.takes_iff.mpr ⟨p, hp, h.acceptsKeyword_of_value hp hl hx, rfl⟩] at hk
    cases hk
  | varArgs items => cases hpass
  | varKwargs rest => exact ⟨rest, hx, hpass⟩

theorem eq_of_varKwargs {rest rest' : Kwargs} (hp : p ∈ b.signature.parameters)
    (hq : q ∈ b.signature.parameters) (hx : b.get? p.name = some (.varKwargs rest))
    (hy : b.get? q.name = some (.varKwargs rest')) : p = q := by
  have hpk : p.kind = .varKeyword := h.suits p hp _ hx
  have hqk : q.kind = .varKeyword := h.suits q hq _ hy
  exact Signature.eq_of_variadic hp hq (hpk.trans hqk.symm) (by rw [hpk]; rfl)

/-- No two parameters pass on anything by the same name. -/
theorem gives_unique {w : Value} (hp : p ∈ b.signature.parameters) (hpl : p ∉ b.leading)
    (hq : q ∈ b.signature.parameters) (hql : q ∉ b.leading) (hpk : b.Gives k v p)
    (hqk : b.Gives k w q) : p = q := by
  cases hk : takes b.signature.parameters k with
  | true =>
    obtain ⟨r, hr, hrk, rfl⟩ := Signature.takes_iff.mp hk
    exact (h.gives_of_takes hr hrk hp hpk).1.trans (h.gives_of_takes hr hrk hq hqk).1.symm
  | false =>
    obtain ⟨rest, hx, -⟩ := h.gives_of_not_takes hk hp hpl hpk
    obtain ⟨rest', hy, -⟩ := h.gives_of_not_takes hk hq hql hqk
    exact h.eq_of_varKwargs hp hq hx hy

/-- What is read off to be passed by name. -/
theorem get?_kwargs : b.kwargs.get? k = some v ↔
    ∃ p ∈ b.signature.parameters, p ∉ b.leading ∧ b.Gives k v p := by
  have hdisjoint : (b.named b.signature.parameters).Pairwise fun p q =>
      ∀ k v w, b.Gives k v p → ¬ b.Gives k w q := by
    refine (b.signature.wellFormed.distinct.sublist (named_sublist _)).imp_of_mem
      fun hp hq hne k v w hpk hqk => ?_
    exact hne (congrArg _ (h.gives_unique ((named_sublist _).subset hp) (not_leading_of_named hp)
      ((named_sublist _).subset hq) (not_leading_of_named hq) hpk hqk))
  have hnone : Kwargs.empty.get? k = none := rfl
  rw [kwargs, get?_foldl_pass _ hdisjoint, hnone]
  simp only [reduceCtorEq, and_false, or_false]
  constructor
  · intro hgives
    obtain ⟨p, hp, hg⟩ := hgives
    exact ⟨p, (named_sublist _).subset hp, not_leading_of_named hp, hg⟩
  · intro hgives
    obtain ⟨p, hp, hl, hg⟩ := hgives
    exact ⟨p, mem_named_of_gives h hp hl hg, hg⟩

/-- A parameter that can be named is passed by name unless it is passed by position. -/
theorem get?_kwargs_of_takes (hp : p ∈ b.signature.parameters)
    (hk : p.kind.acceptsKeyword = true) :
    b.kwargs.get? p.name = some v ↔ p ∉ b.leading ∧ b.get? p.name = some (.value v) := by
  rw [h.get?_kwargs]
  constructor
  · intro hgives
    obtain ⟨q, hq, hl, hg⟩ := hgives
    obtain ⟨rfl, hv⟩ := h.gives_of_takes hp hk hq hg
    exact ⟨hl, hv⟩
  · intro hv
    obtain ⟨hl, hv⟩ := hv
    exact ⟨p, hp, hl, _, hv, rfl, rfl⟩

/-- Under all other names stands what was collected. -/
theorem get?_kwargs_of_not_takes (hk : takes b.signature.parameters k = false) :
    b.kwargs.get? k = some v ↔ ∃ p ∈ b.signature.parameters, ∃ rest,
      b.get? p.name = some (.varKwargs rest) ∧ rest.get? k = some v := by
  rw [h.get?_kwargs]
  constructor
  · intro hgives
    obtain ⟨p, hp, hl, hg⟩ := hgives
    exact ⟨p, hp, h.gives_of_not_takes hk hp hl hg⟩
  · intro hrest
    obtain ⟨p, hp, rest, hx, hv⟩ := hrest
    have hpk : p.kind = .varKeyword := h.suits p hp _ hx
    exact ⟨p, hp, not_leading (by rw [hpk]; rfl), _, hx, hv⟩

/-- A positional parameter has an argument by position exactly if it is a leading one. -/
theorem args_getElem?_eq_some_iff {i : Nat} (hp : b.signature.positional[i]? = some p) :
    b.args[i]? = some v ↔ p ∈ b.leading ∧ b.get? p.name = some (.value v) := by
  rw [h.args_getElem? hp, mem_leading_iff hp, ← value?_eq_some_iff]
  split
  · rename_i hlt
    simp [hlt]
  · rename_i hge
    simp [hge]

theorem items_eq_of_get? {items : List Value} (hp : p ∈ b.signature.parameters)
    (hg : b.get? p.name = some (.varArgs items)) : b.items = items := by
  have hk : p.kind = .varPositional := h.suits p hp _ hg
  simp [BoundCall.items, Signature.collector?_eq_some_iff.mpr ⟨hp, hk⟩, hg]

theorem get?_of_items_ne_nil (hp : p ∈ b.signature.parameters) (hk : p.kind = .varPositional)
    (hne : b.items ≠ []) : b.get? p.name = some (.varArgs b.items) := by
  cases hg : b.get? p.name with
  | none =>
    have hc := Signature.collector?_eq_some_iff.mpr ⟨hp, hk⟩
    exact absurd (by simp [BoundCall.items, hc, hg]) hne
  | some x =>
    obtain ⟨items, rfl⟩ := h.varArgs_of_varPositional hp hk hg
    rw [h.items_eq_of_get? hp hg]

/-- What is read off to be collected by name is what was. -/
theorem get?_rest {rest : Kwargs} (hp : p ∈ b.signature.parameters)
    (hg : b.get? p.name = some (.varKwargs rest)) (k : String) :
    rest.get? k = if takes b.signature.parameters k then none else b.kwargs.get? k := by
  split
  · rename_i hk
    exact h.absorbed p hp rest hg k hk
  · rename_i hk
    apply Option.ext
    intro v
    rw [h.get?_kwargs_of_not_takes (by simpa using hk)]
    constructor
    · intro hv
      exact ⟨p, hp, rest, hg, hv⟩
    · intro hv
      obtain ⟨q, hq, rest', hg', hv⟩ := hv
      obtain rfl := h.eq_of_varKwargs hp hq hg hg'
      rw [hg] at hg'
      cases hg'
      exact hv

end Regular

end BoundCall
end Staging
