import Staging.Callable.Positional
import Staging.Proofs.Rebinding

namespace Staging

/-- What every item gives, one by one. -/
theorem forall₂_filterMap {α β : Type} {f : α → Option β} {xs : List α}
    (h : ∀ x ∈ xs, (f x).isSome = true) :
    List.Forall₂ (fun x y => f x = some y) xs (xs.filterMap f) := by
  induction xs with
  | nil => exact .nil
  | cons x xs ih =>
    obtain ⟨hx, hxs⟩ := List.forall_mem_cons.mp h
    obtain ⟨y, hy⟩ := Option.isSome_iff_exists.mp hx
    rw [List.filterMap_cons_some hy]
    exact .cons hy (ih hxs)

/-- Every keyword argument is for a parameter that positional arguments reach too. -/
def Signature.Positionable (sig : Signature) (c : Call) : Prop :=
  ∀ k, c.kwargs.contains k = true →
    ∃ p ∈ sig.parameters, p.kind = .positionalOrKeyword ∧ p.name = k

namespace BoundCall.Regular

variable {b : BoundCall} {p : Parameter} (h : b.Regular)
include h

/-- With defaults filled in all positional parameters are passed by position. -/
theorem leading_withDefaults : b.withDefaults.leading = b.signature.positional :=
  List.takeWhile_eq_self_iff.mpr fun _ hp =>
    h.contains_withDefaults (Signature.mem_positional.mp hp).1

theorem get?_collector (hp : p ∈ b.signature.parameters) (hk : p.kind = .varPositional) :
    b.withDefaults.get? p.name = some (.varArgs b.items) := by
  rw [get?_withDefaults hp]
  have hc := Signature.collector?_eq_some_iff.mpr ⟨hp, hk⟩
  cases hg : b.get? p.name with
  | none => simp [items, hc, hg, fallback?, hk]
  | some x =>
    obtain ⟨items, rfl⟩ := h.varArgs_of_varPositional hp hk hg
    rw [h.items_eq_of_get? hp hg]
    rfl

theorem items_withDefaults : b.withDefaults.items = b.items := by
  cases hc : b.signature.collector? with
  | none =>
    have hnone : b.withDefaults.signature.collector? = none := hc
    simp [items, hc, hnone]
  | some q =>
    obtain ⟨hq, hk⟩ := Signature.collector?_eq_some_iff.mp hc
    exact h.regular_withDefaults.items_eq_of_get? hq (h.get?_collector hq hk)

/-- Without what collects, what is passed by position with defaults filled in. -/
theorem args_withDefaults : b.withDefaults.args =
    b.signature.positional.filterMap b.withDefaults.value? ++ b.items := by
  rw [h.regular_withDefaults.args_eq, h.leading_withDefaults, h.items_withDefaults]

/-- Every positional parameter has one of the arguments passed by position. -/
theorem forall₂_front : List.Forall₂ (fun p v => b.withDefaults.get? p.name = some (.value v))
    b.signature.positional (b.signature.positional.filterMap b.withDefaults.value?) := by
  have hsome := h.regular_withDefaults.isSome_value?_of_leading
  rw [h.leading_withDefaults] at hsome
  exact (forall₂_filterMap hsome).imp fun _ _ => value?_eq_some_iff.mp

theorem length_args_withDefaults :
    b.withDefaults.args.length = b.signature.numPositional + b.items.length := by
  rw [h.args_withDefaults, List.length_append, ← h.forall₂_front.length_eq,
    Signature.length_positional]

end BoundCall.Regular

namespace Signature

variable {sig : Signature} {c : Call} {b : BoundCall} {p : Parameter} {k : String}

/-- What is collected is what there are no positional parameters for. -/
theorem items_of_bind (h : sig.bind c = .ok b) : b.items = c.args.drop sig.numPositional := by
  have hregular := regular_of_bind h
  have hlaid := laidOut_of_bind h
  obtain rfl := hlaid.signature
  by_cases hlt : b.signature.numPositional < c.args.length
  · have hvar := (accepts_of_bind h).room.resolve_left (Nat.not_le.mpr hlt)
    rw [← collector?_isSome] at hvar
    obtain ⟨q, hq⟩ := Option.isSome_iff_exists.mp hvar
    obtain ⟨hq, hk⟩ := collector?_eq_some_iff.mp hq
    exact hregular.items_eq_of_get? hq ((hlaid.get?_iff hq).mpr (.surplus hk hlt))
  · rw [List.drop_eq_nil_of_le (Nat.not_lt.mp hlt)]
    cases hc : b.signature.collector? with
    | none => simp [BoundCall.items, hc]
    | some q =>
      obtain ⟨hq, hk⟩ := collector?_eq_some_iff.mp hc
      by_contra hne
      have hg := hregular.get?_of_items_ne_nil hq hk hne
      exact hlt (((hlaid.get?_iff hq).mp hg).lt_of_varPositional hk)

/-- A keyword argument is passed by name still, defaults or not, unless it has a position. -/
theorem contains_kwargs_withDefaults (h : sig.bind c = .ok b) (hk : c.kwargs.contains k = true) :
    b.withDefaults.kwargs.contains k = true ↔
      ¬ ∃ p ∈ sig.parameters, p.kind = .positionalOrKeyword ∧ p.name = k := by
  have hregular := regular_of_bind h
  have hfull := hregular.regular_withDefaults
  obtain rfl := (laidOut_of_bind h).signature
  constructor
  · rintro hc ⟨p, hp, hpk, rfl⟩
    obtain ⟨v, hv⟩ := Kwargs.contains_iff.mp hc
    refine ((hfull.get?_kwargs_of_takes hp (by rw [hpk]; rfl)).mp hv).1 ?_
    rw [hregular.leading_withDefaults]
    exact mem_positional.mpr ⟨hp, by rw [hpk]; rfl⟩
  · intro hno
    obtain ⟨v, hv⟩ := Kwargs.contains_iff.mp hk
    refine Kwargs.contains_iff.mpr ⟨v, ?_⟩
    rcases bind_keyword h hv with ⟨ht, hmem⟩ | ⟨ht, name, rest, -, hmem, hrest⟩
    · obtain ⟨p, hp, hpk, rfl⟩ := takes_iff.mp ht
      have hl : p ∉ b.withDefaults.leading := by
        refine BoundCall.not_leading (Bool.eq_false_iff.mpr fun hpos => hno ?_)
        exact ⟨p, hp, Parameter.Kind.eq_positionalOrKeyword hpos hpk, rfl⟩
      have hg := hregular.get?_withDefaults_of_some (hregular.mem_arguments.mp hmem)
      exact (hfull.get?_kwargs_of_takes hp hpk).mpr ⟨hl, hg⟩
    · have hg := hregular.mem_arguments.mp hmem
      obtain ⟨p, hp, rfl⟩ := hregular.exists_parameter hg
      exact (hfull.get?_kwargs_of_not_takes ht).mpr
        ⟨p, hp, rest, hregular.get?_withDefaults_of_some hg, hrest⟩

/-- Where every keyword argument has a position, nothing goes to the parameters past those that
positional arguments reach. -/
theorem LaidOut.get?_byName (h : sig.LaidOut c b) (hc : sig.Positionable c) (hp : p ∈ sig.byName) :
    b.get? p.name = none := by
  obtain ⟨hmem, hkind⟩ := mem_byName.mp hp
  have hpos := not_isPositional_of_mem_byName hp
  by_contra hne
  obtain ⟨x, hx⟩ := Option.ne_none_iff_exists'.mp hne
  cases (h.get?_iff hmem).mp hx with
  | position hi hv =>
    rw [(mem_positional.mp (List.mem_of_getElem? hi)).2] at hpos
    cases hpos
  | surplus hk hs =>
    rw [hk] at hkind
    simp at hkind
  | @keyword v hk hv =>
    obtain ⟨q, hq, hqk, hname⟩ := hc p.name (Kwargs.contains_iff.mpr ⟨v, hv⟩)
    obtain rfl := eq_of_name_eq hq hmem hname
    rw [hqk] at hpos
    cases hpos
  | others hk hr hrest =>
    obtain ⟨k, v, hv⟩ := Kwargs.exists_get?_of_isEmpty hrest
    rw [hr] at hv
    split at hv
    · cases hv
    · rename_i ht
      obtain ⟨q, hq, hqk, rfl⟩ := hc k (Kwargs.contains_iff.mpr ⟨v, hv⟩)
      exact ht (takes_iff.mpr ⟨q, hq, by rw [hqk]; rfl, rfl⟩)

/-- The positional arguments with defaults filled in do without any others. -/
theorem accepts_args_withDefaults (h : sig.bind c = .ok b) (hc : sig.Positionable c) :
    sig.Accepts ⟨b.withDefaults.args, .empty⟩ := by
  have hregular := regular_of_bind h
  have haccepts := accepts_of_bind h
  have hlen := hregular.length_args_withDefaults
  have hnone : ∀ k, Kwargs.empty.contains k = false := fun _ => rfl
  obtain rfl := (laidOut_of_bind h).signature
  constructor
  case room =>
    by_cases hv : b.signature.hasVarPositional = true
    · exact .inr hv
    · have hcollector : b.signature.collector? = none := by
        rw [← Option.not_isSome_iff_eq_none, collector?_isSome]
        exact hv
      have hitems : b.items = [] := by simp [BoundCall.items, hcollector]
      rw [hitems, List.length_nil, Nat.add_zero] at hlen
      exact .inl (Nat.le_of_eq hlen)
  case once => exact fun p _ _ => hnone p.name
  case supplied =>
    intro p hp
    rw [List.drop_eq_nil_of_le (by rw [length_positional, hlen]; exact Nat.le_add_right _ _)] at hp
    cases hp
  case named =>
    intro p hp hk
    refine .inl ((haccepts.named p hp hk).resolve_right fun hgiven => ?_)
    obtain ⟨q, hq, hqk, hname⟩ := hc p.name hgiven
    obtain rfl := eq_of_name_eq hq hp hname
    cases hqk.symm.trans hk
  case known =>
    intro k hk
    rw [hnone] at hk
    cases hk

/-- Bound again with defaults filled in, they are bound as the call was. -/
theorem withDefaults_args (h : sig.bind c = .ok b) (hc : sig.Positionable c) {b' : BoundCall}
    (h' : sig.bind ⟨b.withDefaults.args, .empty⟩ = .ok b') : b'.withDefaults = b.withDefaults := by
  have hregular := regular_of_bind h
  have hfull := hregular.regular_withDefaults
  have hregular' := regular_of_bind h'
  have hlaid := laidOut_of_bind h
  have hlaid' := laidOut_of_bind h'
  have hitems : b'.items = b.items := by
    rw [items_of_bind h', ← hlaid.signature, ← hregular.items_withDefaults]
    exact hfull.drop_args
  obtain rfl := hlaid.signature
  refine BoundCall.withDefaults_congr hlaid'.signature fun p hp => ?_
  rw [← BoundCall.get?_withDefaults hp]
  rw [parameters_eq, List.mem_append, List.mem_append] at hp
  rcases hp with hp | hp | hp
  · obtain ⟨i, hi⟩ := List.mem_iff_getElem?.mp hp
    have hmem := (mem_positional.mp hp).1
    obtain ⟨v, hv⟩ := hfull.value_of_positional hp (hregular.contains_withDefaults hmem)
    have hl : p ∈ b.withDefaults.leading := by rwa [hregular.leading_withDefaults]
    have harg := (hfull.args_getElem?_eq_some_iff hi).mpr ⟨hl, hv⟩
    rw [(hlaid'.get?_iff hmem).mpr (.position hi harg), hv]
    rfl
  · obtain ⟨hmem, hk⟩ := collector?_eq_some_iff.mp (Option.mem_toList.mp hp)
    have hmem' : p ∈ b'.signature.parameters := by rwa [hlaid'.signature]
    rw [hregular.get?_collector hmem hk, ← BoundCall.get?_withDefaults hmem',
      hregular'.get?_collector hmem' hk, hitems]
  · have hmem := (mem_byName.mp hp).1
    rw [BoundCall.get?_withDefaults hmem, hlaid.get?_byName hc hp,
      hlaid'.get?_byName (fun k hk => by cases hk) hp]

end Signature

namespace Callable

variable {f : Callable} {sig : Signature} {c : Call} {b : BoundCall} {out : List Value}

theorem toPositional_error (hf : f.signature = some sig) {e : BindError}
    (hb : sig.bind c = .error e) : f.toPositional c = .error (.binding e) := by
  rw [toPositional, hf]
  simp only [hb]

/-- A call that binds is refused for the keyword arguments that are passed by name still. -/
theorem toPositional_ok_iff (hf : f.signature = some sig) (hb : sig.bind c = .ok b) :
    f.toPositional c = .ok out ↔ sig.Positionable c ∧ out = b.withDefaults.args := by
  have hpassed : (b.withDefaults.kwargs.keys.filter (c.kwargs.contains ·)).isEmpty = true ↔
      sig.Positionable c := by
    rw [List.isEmpty_iff, List.filter_eq_nil_iff]
    constructor
    · intro h k hk
      by_contra hno
      exact h k (Kwargs.mem_keys.mpr ((Signature.contains_kwargs_withDefaults hb hk).mpr hno)) hk
    · intro h k hkey hk
      exact (Signature.contains_kwargs_withDefaults hb hk).mp (Kwargs.mem_keys.mp hkey) (h k hk)
  rw [toPositional, hf]
  simp only [hb]
  rw [← hpassed]
  split
  · rename_i h
    simp [h, eq_comm]
  · rename_i h
    simp [h]

theorem toPositional_ne_binding (hf : f.signature = some sig) (hb : sig.bind c = .ok b)
    (e : BindError) : f.toPositional c ≠ .error (.binding e) := by
  rw [toPositional, hf]
  simp only [hb]
  split <;> nofun

/-- A call can be made purely positional exactly if it binds and every keyword argument is for a
parameter that positional arguments reach too; binding errors are passed on, and there are none
otherwise. Without keyword arguments, what it is made into binds as the call did once defaults are
filled in. It has an argument for each positional parameter, then those that are collected, which
are all arguments of the call past these parameters. -/
theorem toPositional_rebinds (hf : f.signature = some sig) (c : Call) :
    ((∃ out, f.toPositional c = .ok out) ↔ (∃ b, sig.bind c = .ok b) ∧
      ∀ k, c.kwargs.contains k = true →
        ∃ p ∈ sig.parameters, p.kind = .positionalOrKeyword ∧ p.name = k) ∧
    (∀ e, f.toPositional c = .error (.binding e) ↔ sig.bind c = .error e) ∧
    ∀ out, f.toPositional c = .ok out → ∃ b b', sig.bind c = .ok b ∧
      sig.bind ⟨out, .empty⟩ = .ok b' ∧ b'.withDefaults = b.withDefaults ∧
      b.items = c.args.drop sig.numPositional ∧ ∃ front,
        List.Forall₂ (fun p v => b.withDefaults.get? p.name = some (.value v))
          sig.positional front ∧ out = front ++ b.items := by
  cases hb : sig.bind c with
  | error e =>
    rw [toPositional_error hf hb]
    refine ⟨⟨?_, ?_⟩, fun e' => ?_, fun out h => ?_⟩
    · rintro ⟨out, h⟩
      cases h
    · rintro ⟨⟨b, h⟩, -⟩
      cases h
    · rw [Except.error.injEq, Except.error.injEq, Error.binding.injEq]
    · cases h
  | ok b =>
    have hregular := Signature.regular_of_bind hb
    refine ⟨?_, fun e => iff_of_false (toPositional_ne_binding hf hb e) nofun, fun out h => ?_⟩
    · simp only [toPositional_ok_iff hf hb, exists_and_left, exists_eq, and_true, Except.ok.injEq,
        exists_eq', true_and]
      rfl
    · obtain ⟨hc, rfl⟩ := (toPositional_ok_iff hf hb).mp h
      obtain ⟨b', hb'⟩ :=
        Signature.exists_bind_of_accepts (Signature.accepts_args_withDefaults hb hc)
      have hsig := (Signature.laidOut_of_bind hb).signature
      refine ⟨b, b', rfl, hb', Signature.withDefaults_args hb hc hb',
        Signature.items_of_bind hb, _, ?_, hregular.args_withDefaults⟩
      rw [← hsig]
      exact hregular.forall₂_front

/-- Of `a=1, /, b=0, c=3, *rest, d=4` a call gives only `b`, by name. -/
theorem toPositional_rebinds_past_gap :
    let sig : Signature := ⟨[{ name := "a", kind := .positionalOnly, default := some (.int 1) },
      { name := "b", kind := .positionalOrKeyword, default := some (.int 0) },
      { name := "c", kind := .positionalOrKeyword, default := some (.int 3) },
      { name := "rest", kind := .varPositional },
      { name := "d", kind := .keywordOnly, default := some (.int 4) }], rfl⟩
    let f : Callable := .function ⟨0, "f", some sig, none, fun cells _ _ => (.ok .absent, cells)⟩
    let c : Call := ⟨[], .ofList [("b", .int 2)]⟩
    f.signature = some sig ∧ f.toPositional c = .ok [.int 1, .int 2, .int 3] ∧
      ∃ b b', sig.bind c = .ok b ∧ sig.bind ⟨[.int 1, .int 2, .int 3], .empty⟩ = .ok b' ∧
        b'.withDefaults = b.withDefaults := by
  intro sig f c
  have hf : f.signature = some sig := rfl
  have hout : f.toPositional c = .ok [.int 1, .int 2, .int 3] := rfl
  obtain ⟨-, -, hrebinds⟩ := toPositional_rebinds hf c
  obtain ⟨b, b', hb, hb', heq, -⟩ := hrebinds _ hout
  exact ⟨hf, hout, b, b', hb, hb', heq⟩

end Callable

end Staging
