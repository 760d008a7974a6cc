import Staging.Proofs.ReadOff

namespace Staging

open Results
open Signature (Places LaidOut Accepts takes)

theorem Signature.Places.not_vacant {sig : Signature} {c : Call} {p : Parameter} {x : Bound}
    (h : sig.Places c p x) : x.isVacant = false := by
  cases h with
  | position | keyword => rfl
  | surplus hk hs => simpa [Bound.isVacant] using hs
  | others hk hr hne => exact hne

namespace BoundCall

variable {b : BoundCall} {p : Parameter}

namespace Regular

variable (h : b.Regular)
include h

/-- What is not passed by position is passed by name or has a default. -/
theorem named_or_optional (hp : p ∈ b.signature.parameters) (hk : p.kind.isVariadic = false)
    (hl : p ∉ b.leading) :
    p.kind.acceptsKeyword = true ∧ b.kwargs.contains p.name = true ∨ p.isOptional = true := by
  cases hc : b.contains p.name with
  | false =>
    refine .inr ((h.optional p hp hc).resolve_left ?_)
    simp [hk]
  | true =>
    obtain ⟨v, hv⟩ := h.value_of_contains hp hk hc
    have hacc := h.acceptsKeyword_of_value hp hl hv
    exact .inl ⟨hacc, Kwargs.contains_iff.mpr ⟨v, (h.get?_kwargs_of_takes hp hacc).mpr ⟨hl, hv⟩⟩⟩

/-- What is read off is accepted. -/
theorem accepts_toCall : Accepts b.signature b.toCall where
  room := by
    rw [← Signature.collector?_isSome, ← Signature.length_positional]
    by_cases hle : b.args.length ≤ b.signature.positional.length
    · exact .inl hle
    · right
      by_contra hno
      have hitems : b.items = [] := by
        simp [BoundCall.items, Option.not_isSome_iff_eq_none.mp hno]
      rw [← h.drop_args, ← Signature.length_positional, List.drop_eq_nil_iff] at hitems
      exact hle hitems
  once p hp hk := by
    obtain ⟨i, hi⟩ := List.mem_iff_getElem?.mp hp
    rw [List.getElem?_take] at hi
    split at hi
    · rename_i hlt
      have hl := ((h.args_getElem?_eq_some_iff hi).mp (List.getElem?_eq_getElem hlt)).1
      have hmem := (Signature.mem_positional.mp (List.mem_of_getElem? hi)).1
      rw [toCall, Kwargs.contains_eq, Option.isSome_eq_false_iff, Option.isNone_iff_eq_none]
      by_contra hne
      obtain ⟨v, hv⟩ := Option.ne_none_iff_exists'.mp hne
      exact ((h.get?_kwargs_of_takes hmem (by rw [hk]; rfl)).mp hv).1 hl
    · cases hi
  supplied p hp := by
    obtain ⟨i, hi⟩ := List.mem_iff_getElem?.mp hp
    rw [List.getElem?_drop] at hi
    have hpos := List.mem_of_getElem? hi
    obtain ⟨hmem, hpositional⟩ := Signature.mem_positional.mp hpos
    -- the arguments by position end before it
    have hl : p ∉ b.leading := by
      intro hl
      obtain ⟨v, hv⟩ := h.value_of_positional hpos (mem_leading hl).2
      have hget := (h.args_getElem?_eq_some_iff hi).mpr ⟨hl, hv⟩
      have hnone : b.args[b.args.length + i]? = none :=
        List.getElem?_eq_none (Nat.le_add_right _ _)
      cases hnone.symm.trans hget
    have hk := Parameter.Kind.not_isVariadic_of_isPositional hpositional
    rcases h.named_or_optional hmem hk hl with hs | hs
    · exact .inr ⟨Parameter.Kind.eq_positionalOrKeyword hpositional hs.1, hs.2⟩
    · exact .inl hs
  named p hp hk := by
    have hl : p ∉ b.leading := not_leading (by rw [hk]; rfl)
    exact (h.named_or_optional hp (by rw [hk]; rfl) hl).symm.imp_right And.right
  known k hk := by
    obtain ⟨v, hv⟩ := Kwargs.contains_iff.mp hk
    obtain ⟨p, hp, hl, x, hx, hpass⟩ := h.get?_kwargs.mp hv
    cases x with
    | value w =>
      obtain ⟨rfl, -⟩ := hpass
      exact .inl ⟨p, hp, h.acceptsKeyword_of_value hp hl hx, rfl⟩
    | varArgs items => cases hpass
    | varKwargs rest => exact .inr ⟨p, hp, h.suits p hp _ hx⟩

/-- What is read off goes where it was bound. -/
theorem places_toCall (hp : p ∈ b.signature.parameters) {x : Bound} (hx : b.get? p.name = some x)
    (hv : x.isVacant = false) : Places b.signature b.toCall p x := by
  cases x with
  | value v =>
    by_cases hl : p ∈ b.leading
    · obtain ⟨i, hi⟩ := List.mem_iff_getElem?.mp (mem_leading hl).1
      exact .position hi ((h.args_getElem?_eq_some_iff hi).mpr ⟨hl, hx⟩)
    · have hk := h.acceptsKeyword_of_value hp hl hx
      exact .keyword hk ((h.get?_kwargs_of_takes hp hk).mpr ⟨hl, hx⟩)
  | varArgs items =>
    have hitems := h.drop_args.trans (h.items_eq_of_get? hp hx)
    have hs : b.signature.numPositional < b.args.length := by
      by_contra hle
      rw [List.drop_eq_nil_of_le (Nat.not_lt.mp hle)] at hitems
      simp [Bound.isVacant, ← hitems] at hv
    rw [← hitems]
    exact .surplus (h.suits p hp _ hx) hs
  | varKwargs rest => exact .others (h.suits p hp _ hx) (h.get?_rest hp hx) hv

/-- Nothing else goes anywhere. -/
theorem get?_of_places (hp : p ∈ b.signature.parameters) {x : Bound}
    (hx : Places b.signature b.toCall p x) : b.get? p.name = some x := by
  cases hx with
  | position hi hv => exact ((h.args_getElem?_eq_some_iff hi).mp hv).2
  | surplus hk hs =>
    have hne : b.items ≠ [] := by
      rw [← h.drop_args, ne_eq, List.drop_eq_nil_iff, Nat.not_le]
      exact hs
    rw [toCall, h.drop_args]
    exact h.get?_of_items_ne_nil hp hk hne
  | keyword hk hv => exact ((h.get?_kwargs_of_takes hp hk).mp hv).2
  | @others rest hk hr hne =>
    -- some name in `rest` is that of no parameter, so it was collected
    obtain ⟨k, v, hv⟩ := Kwargs.exists_get?_of_isEmpty hne
    rw [hr] at hv
    split at hv
    · cases hv
    · rename_i htakes
      obtain ⟨q, hq, rest', hg, -⟩ := (h.get?_kwargs_of_not_takes (by simpa using htakes)).mp hv
      have hqk : q.kind = .varKeyword := h.suits q hq _ hg
      obtain rfl := Signature.eq_of_variadic hp hq (hk.trans hqk.symm) (by rw [hk]; rfl)
      obtain rfl : rest = rest' := Kwargs.ext_get? fun l => by
        rw [hr, h.get?_rest hp hg]
        rfl
      exact hg

/-- Reading off leaves nothing out but empty collections. -/
theorem laidOut_toCall : LaidOut b.signature b.toCall b.trimmed where
  signature := rfl
  ordered := (List.filter_sublist.map _).trans h.ordered
  places name x := by
    rw [trimmed, List.mem_filter, h.mem_arguments]
    constructor
    · intro hx
      obtain ⟨hx, hvacant⟩ := hx
      obtain ⟨p, hp, rfl⟩ := h.exists_parameter hx
      exact ⟨p, hp, rfl, h.places_toCall hp hx (by simpa using hvacant)⟩
    · intro hx
      obtain ⟨p, hp, rfl, hx⟩ := hx
      refine ⟨h.get?_of_places hp hx, ?_⟩
      rw [hx.not_vacant]
      rfl

/-- What is read off is bound as it was, but for empty collections. -/
theorem bind_toCall : b.signature.bind b.toCall = .ok b.trimmed := by
  have hbinds := h.accepts_toCall.binds
  have hbind := (Signature.bind_ok_iff b.signature b.toCall _).mpr ⟨hbinds, rfl⟩
  rw [hbind, (Signature.laidOut_of_bind hbind).unique h.laidOut_toCall]

theorem get?_trimmed (name : String) :
    b.trimmed.get? name = (b.get? name).filter (!·.isVacant) := by
  have hnodup : (b.trimmed.arguments.map Prod.fst).Nodup :=
    h.nodup.sublist (List.filter_sublist.map _)
  apply Option.ext
  intro x
  rw [get?, ← Entries.mem_iff_lookup hnodup, trimmed, List.mem_filter, h.mem_arguments,
    Option.filter_eq_some_iff]

end Regular

theorem fallback?_suits {x : Bound} (hx : fallback? p = some x) : x.Suits p.kind := by
  unfold fallback? at hx
  cases hk : p.kind with
  | varPositional | varKeyword =>
    simp only [hk, Option.some.injEq] at hx
    subst hx
    rfl
  | positionalOnly | positionalOrKeyword | keywordOnly =>
    simp only [hk, Option.map_eq_some_iff] at hx
    obtain ⟨v, -, rfl⟩ := hx
    rfl

theorem fallback?_isSome (hp : p.kind.isVariadic = true ∨ p.isOptional = true) :
    (fallback? p).isSome = true := by
  unfold fallback?
  cases hk : p.kind with
  | varPositional | varKeyword => rfl
  | positionalOnly | positionalOrKeyword | keywordOnly =>
    rw [hk] at hp
    rw [Option.isSome_map]
    exact hp.resolve_left nofun

/-- Parameters that collect have nothing to fall back on but an empty collection. -/
theorem fallback?_of_vacant {x : Bound} (hs : x.Suits p.kind) (hv : x.isVacant = true) :
    fallback? p = some x := by
  unfold fallback?
  cases x with
  | value v => cases hv
  | varArgs items =>
    obtain rfl := List.isEmpty_iff.mp hv
    rw [show p.kind = .varPositional from hs]
  | varKwargs rest =>
    obtain rfl : rest = .empty := by
      obtain ⟨es, hes⟩ := rest
      obtain rfl := List.isEmpty_iff.mp hv
      rfl
    rw [show p.kind = .varKeyword from hs]

theorem fallback?_varKwargs {rest : Kwargs} (h : fallback? p = some (.varKwargs rest)) :
    rest = .empty := by
  unfold fallback? at h
  split at h
  · cases h
  · cases h
    rfl
  · obtain ⟨v, -, hv⟩ := Option.map_eq_some_iff.mp h
    cases hv

theorem arguments_withDefaults (b : BoundCall) : b.withDefaults.arguments =
    b.signature.parameters.filterMap fun p =>
      ((b.get? p.name).or (fallback? p)).map fun x => (p.name, x) := by
  simp only [withDefaults, Option.orElse_eq_orElse, Option.orElse_eq_or]

theorem names_withDefaults (b : BoundCall) : b.withDefaults.arguments.map Prod.fst =
    (b.signature.parameters.filter fun p => ((b.get? p.name).or (fallback? p)).isSome).map
      (·.name) := by
  rw [arguments_withDefaults]
  induction b.signature.parameters with
  | nil => rfl
  | cons p ps ih =>
    rw [List.filterMap_cons, List.filter_cons]
    cases (b.get? p.name).or (fallback? p) with
    | none => simpa using ih
    | some x => simpa using ih

theorem nodup_withDefaults (b : BoundCall) : (b.withDefaults.arguments.map Prod.fst).Nodup := by
  rw [names_withDefaults]
  exact b.signature.nodup_names.sublist (List.filter_sublist.map _)

theorem get?_withDefaults (hp : p ∈ b.signature.parameters) :
    b.withDefaults.get? p.name = (b.get? p.name).or (fallback? p) := by
  apply Option.ext
  intro x
  rw [get?, ← Entries.mem_iff_lookup b.nodup_withDefaults, arguments_withDefaults,
    List.mem_filterMap]
  simp only [Option.map_eq_some_iff, Prod.mk.injEq]
  constructor
  · intro hx
    obtain ⟨q, hq, y, hy, hname, rfl⟩ := hx
    obtain rfl := Signature.eq_of_name_eq hp hq hname.symm
    exact hy
  · intro hx
    exact ⟨p, hp, x, hx, rfl, rfl⟩

theorem withDefaults_congr {b' : BoundCall} (hs : b'.signature = b.signature)
    (h : ∀ p ∈ b.signature.parameters,
      (b'.get? p.name).or (fallback? p) = (b.get? p.name).or (fallback? p)) :
    b'.withDefaults = b.withDefaults := by
  have harguments : b'.withDefaults.arguments = b.withDefaults.arguments := by
    rw [arguments_withDefaults, arguments_withDefaults, hs]
    apply List.filterMap_congr
    intro p hp
    rw [h p hp]
  exact congrArg₂ BoundCall.mk hs harguments

theorem withDefaults_withDefaults (b : BoundCall) :
    b.withDefaults.withDefaults = b.withDefaults := by
  refine withDefaults_congr rfl fun p hp => ?_
  rw [get?_withDefaults hp, Option.or_assoc, Option.or_self]

namespace Regular

variable (h : b.Regular)
include h

/-- With defaults filled in every parameter is bound. -/
theorem isSome_or_fallback? (hp : p ∈ b.signature.parameters) :
    ((b.get? p.name).or (fallback? p)).isSome = true := by
  cases hg : b.get? p.name with
  | some x => rfl
  | none => exact fallback?_isSome (h.optional p hp (by rw [contains, hg]; rfl))

theorem names_withDefaults_eq :
    b.withDefaults.arguments.map Prod.fst = b.signature.parameters.map (·.name) := by
  rw [names_withDefaults, List.filter_eq_self.mpr fun p => h.isSome_or_fallback?]

theorem get?_withDefaults_of_some {name : String} {x : Bound} (hx : b.get? name = some x) :
    b.withDefaults.get? name = some x := by
  obtain ⟨p, hp, rfl⟩ := h.exists_parameter hx
  rw [get?_withDefaults hp, hx]
  rfl

theorem contains_withDefaults (hp : p ∈ b.signature.parameters) :
    b.withDefaults.contains p.name = true := by
  rw [contains, get?_withDefaults hp]
  exact h.isSome_or_fallback? hp

theorem regular_withDefaults : b.withDefaults.Regular := by
  have hget : ∀ p ∈ b.withDefaults.signature.parameters,
      b.withDefaults.get? p.name = (b.get? p.name).or (fallback? p) :=
    fun _ hp => get?_withDefaults (b := b) hp
  have hcontains : ∀ p ∈ b.withDefaults.signature.parameters,
      b.withDefaults.contains p.name = true := fun _ hp => h.contains_withDefaults hp
  constructor
  case ordered =>
    rw [h.names_withDefaults_eq]
    exact .refl _
  case suits =>
    intro p hp x hx
    rw [hget p hp, Option.or_eq_some_iff] at hx
    rcases hx with hx | ⟨-, hx⟩
    · exact h.suits p hp x hx
    · exact fallback?_suits hx
  case optional =>
    intro p hp hc
    rw [hcontains p hp] at hc
    cases hc
  case contiguous =>
    apply List.Pairwise.imp_of_mem (p := List.pairwise_of_forall fun _ _ => True.intro)
    intro p q hp _ _ _ _
    exact hcontains p (Signature.mem_positional.mp hp).1
  case full =>
    intro q hq hk hc p hp
    exact hcontains p (Signature.mem_positional.mp hp).1
  case absorbed =>
    intro p hp rest hx k hk
    rw [hget p hp, Option.or_eq_some_iff] at hx
    rcases hx with hx | ⟨-, hx⟩
    · exact h.absorbed p hp rest hx k hk
    · rw [fallback?_varKwargs hx]
      rfl

/-- Empty collections are filled in again. -/
theorem withDefaults_trimmed : b.trimmed.withDefaults = b.withDefaults := by
  refine withDefaults_congr rfl fun p hp => ?_
  rw [h.get?_trimmed]
  cases hg : b.get? p.name with
  | none => rfl
  | some x =>
    cases hv : x.isVacant with
    | false => simp [hv]
    | true => simpa [hv] using fallback?_of_vacant (h.suits p hp x hg) hv

end Regular

end BoundCall

namespace Signature

variable {sig : Signature} {c : Call} {b : BoundCall}

theorem Places.suits {p : Parameter} {x : Bound} (h : sig.Places c p x) : x.Suits p.kind := by
  cases h with
  | position hp hv =>
    exact Parameter.Kind.not_isVariadic_of_isPositional
      (mem_positional.mp (List.mem_of_getElem? hp)).2
  | surplus hk hs => exact hk
  | keyword hk hv => exact Parameter.Kind.not_isVariadic_of_acceptsKeyword hk
  | others hk hr hne => exact hk

/-- Nothing goes to a positional-only parameter but an argument at its position. -/
theorem Places.lt_of_positionalOnly {i : Nat} {p : Parameter} {x : Bound} (h : sig.Places c p x)
    (hp : sig.positional[i]? = some p) (hk : p.kind = .positionalOnly) : i < c.args.length := by
  cases h with
  | @position j v hp' hv =>
    obtain ⟨hi, -⟩ := List.getElem?_eq_some_iff.mp hp
    rw [(List.getElem?_inj hi sig.nodup_positional).mp (hp.trans hp'.symm)]
    exact (List.getElem?_eq_some_iff.mp hv).1
  | surplus hk' hs => cases hk.symm.trans hk'
  | keyword hk' hv =>
    rw [hk] at hk'
    cases hk'
  | others hk' hr hne => cases hk.symm.trans hk'

/-- Nothing goes to the parameter that collects positional arguments unless there are more of them
than positional parameters. -/
theorem Places.lt_of_varPositional {p : Parameter} {x : Bound} (h : sig.Places c p x)
    (hk : p.kind = .varPositional) : sig.numPositional < c.args.length := by
  cases h with
  | position hp hv =>
    have hk' := (mem_positional.mp (List.mem_of_getElem? hp)).2
    rw [hk] at hk'
    cases hk'
  | surplus hk' hs => exact hs
  | keyword hk' hv =>
    rw [hk] at hk'
    cases hk'
  | others hk' hr hne => cases hk.symm.trans hk'

theorem Places.get?_eq_none {p : Parameter} {k : String} {rest : Kwargs}
    (h : sig.Places c p (.varKwargs rest)) (hk : takes sig.parameters k = true) :
    rest.get? k = none := by
  cases h with
  | others hp hr hne => rw [hr, if_pos hk]

namespace LaidOut

variable {p : Parameter}

theorem contains_of_lt (h : sig.LaidOut c b) {i : Nat} (hp : sig.positional[i]? = some p)
    (hi : i < c.args.length) : b.contains p.name = true :=
  h.contains (mem_positional.mp (List.mem_of_getElem? hp)).1
    (.position hp (List.getElem?_eq_getElem hi))

theorem contains_of_keyword (h : sig.LaidOut c b) (hp : p ∈ sig.parameters)
    (hk : p.kind.acceptsKeyword = true) (hc : c.kwargs.contains p.name = true) :
    b.contains p.name = true := by
  obtain ⟨v, hv⟩ := Kwargs.contains_iff.mp hc
  exact h.contains hp (.keyword hk hv)

theorem exists_places (h : sig.LaidOut c b) (hp : p ∈ sig.parameters)
    (hc : b.contains p.name = true) : ∃ x, sig.Places c p x := by
  obtain ⟨x, hx⟩ := Option.isSome_iff_exists.mp hc
  exact ⟨x, (h.get?_iff hp).mp hx⟩

/-- Parameters that nothing goes to have defaults, unless they collect. -/
theorem isOptional (h : sig.LaidOut c b) (ha : sig.Accepts c) (hp : p ∈ sig.parameters)
    (hc : b.contains p.name = false) : p.kind.isVariadic = true ∨ p.isOptional = true := by
  cases hk : p.kind with
  | varPositional | varKeyword => exact .inl rfl
  | keywordOnly =>
    refine .inr ((ha.named p hp hk).resolve_right fun hkw => ?_)
    rw [h.contains_of_keyword hp (by rw [hk]; rfl) hkw] at hc
    cases hc
  | positionalOnly | positionalOrKeyword =>
    have hpos : p ∈ sig.positional := mem_positional.mpr ⟨hp, by rw [hk]; rfl⟩
    obtain ⟨i, hi⟩ := List.mem_iff_getElem?.mp hpos
    have hle : c.args.length ≤ i := by
      by_contra hlt
      rw [h.contains_of_lt hi (Nat.not_le.mp hlt)] at hc
      cases hc
    have hdrop : p ∈ sig.positional.drop c.args.length := by
      refine List.mem_of_getElem? (i := i - c.args.length) ?_
      rw [List.getElem?_drop, Nat.add_sub_cancel' hle, hi]
    refine .inr ((ha.supplied p hdrop).resolve_right fun hkw => ?_)
    rw [h.contains_of_keyword hp (by rw [hkw.1]; rfl) hkw.2] at hc
    cases hc

end LaidOut

theorem regular_of_bind (h : sig.bind c = .ok b) : b.Regular := by
  have hlaid := laidOut_of_bind h
  have haccepts := accepts_of_bind h
  obtain rfl := hlaid.signature
  constructor
  case ordered => exact hlaid.ordered
  case suits =>
    intro p hp x hx
    exact ((hlaid.get?_iff hp).mp hx).suits
  case optional =>
    intro p hp hc
    exact hlaid.isOptional haccepts hp hc
  case contiguous =>
    rw [List.pairwise_iff_getElem]
    intro i j hi hj hij hk hc
    have hj := List.getElem?_eq_getElem hj
    obtain ⟨x, hx⟩ := hlaid.exists_places (mem_positional.mp (List.mem_of_getElem? hj)).1 hc
    have hlt := hij.trans (hx.lt_of_positionalOnly hj hk)
    exact hlaid.contains_of_lt (List.getElem?_eq_getElem hi) hlt
  case full =>
    intro q hq hk hc p hp
    obtain ⟨x, hx⟩ := hlaid.exists_places hq hc
    obtain ⟨i, hi⟩ := List.mem_iff_getElem?.mp hp
    obtain ⟨hlt, -⟩ := List.getElem?_eq_some_iff.mp hi
    rw [length_positional] at hlt
    exact hlaid.contains_of_lt hi (hlt.trans (hx.lt_of_varPositional hk))
  case absorbed =>
    intro p hp rest hx k hk
    exact ((hlaid.get?_iff hp).mp hx).get?_eq_none hk

theorem trimmed_of_bind (h : sig.bind c = .ok b) : b.trimmed = b := by
  have hlaid := laidOut_of_bind h
  have hfilter : b.arguments.filter (!·.2.isVacant) = b.arguments := by
    rw [List.filter_eq_self]
    intro e he
    obtain ⟨p, -, -, hp⟩ := (hlaid.places e.1 e.2).mp he
    rw [hp.not_vacant]
    rfl
  rw [BoundCall.trimmed, hfilter]

/-- What is read off a bound call is bound to the same arguments again. With defaults filled in,
which changes nothing that is bound, every parameter is bound, and what is then read off is bound
to the same arguments again, but for what defaults fill in. -/
theorem bind_again (h : sig.bind c = .ok b) :
    sig.bind b.toCall = .ok b ∧
      b.withDefaults.arguments.map Prod.fst = sig.parameters.map (·.name) ∧
      (∀ name x, b.get? name = some x → b.withDefaults.get? name = some x) ∧
      b.withDefaults.withDefaults = b.withDefaults ∧
      ∃ b', sig.bind b.withDefaults.toCall = .ok b' ∧ b'.withDefaults = b.withDefaults := by
  have hregular := regular_of_bind h
  have htrimmed := trimmed_of_bind h
  obtain rfl := (laidOut_of_bind h).signature
  refine ⟨?_, hregular.names_withDefaults_eq, fun name x => hregular.get?_withDefaults_of_some,
    b.withDefaults_withDefaults, b.withDefaults.trimmed, ?_, ?_⟩
  · rw [hregular.bind_toCall, htrimmed]
  · exact hregular.regular_withDefaults.bind_toCall
  · rw [hregular.regular_withDefaults.withDefaults_trimmed, b.withDefaults_withDefaults]

/-- Of `a=1, /, b=2, *, c=3, **kw` a call gives only `b`, by name, and another `a`. -/
theorem bind_again_past_gap :
    let sig : Signature := ⟨[{ name := "a", kind := .positionalOnly, default := some (.int 1) },
      { name := "b", kind := .positionalOrKeyword, default := some (.int 2) },
      { name := "c", kind := .keywordOnly, default := some (.int 3) },
      { name := "kw", kind := .varKeyword }], rfl⟩
    let c : Call := ⟨[], .ofList [("b", .int 8), ("a", .int 7)]⟩
    ∃ b, sig.bind c = .ok b ∧ sig.bind b.toCall = .ok b ∧
      b.withDefaults.toCall.args = [.int 1, .int 8] ∧
      ∃ b', sig.bind b.withDefaults.toCall = .ok b' ∧ b'.withDefaults = b.withDefaults := by
  intro sig c
  obtain ⟨b, hb⟩ := exists_ok (x := sig.bind c) rfl
  obtain ⟨hsame, -, -, -, hdefaults⟩ := bind_again hb
  have hargs : b.withDefaults.toCall.args = [.int 1, .int 8] := by
    cases hb
    rfl
  exact ⟨b, hb, hsame, hargs, hdefaults⟩

end Signature
end Staging
