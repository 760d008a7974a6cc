import Staging.Proofs.Signatures

namespace Staging

namespace Parameter

namespace Kind

/-- The kinds in the order they are declared in. -/
def declared : List Kind :=
  [.positionalOnly, .positionalOrKeyword, .varPositional, .keywordOnly, .varKeyword]

theorem idxOf_declared (kind : Kind) : declared.idxOf kind = kind.rank := by
  cases kind <;> rfl

theorem isVariadic_iff {kind : Kind} :
    kind.isVariadic = true ↔ kind = .varPositional ∨ kind = .varKeyword := by
  cases kind <;> simp [isVariadic]

/-- There are two kinds that collect. -/
theorem collects_once_iff {k l : Kind} : (k = l → k.isVariadic = false) ↔
    (k = .varPositional → l ≠ .varPositional) ∧ (k = .varKeyword → l ≠ .varKeyword) := by
  cases k <;> simp [isVariadic, eq_comm]

end Kind

theorem isOptional_iff {p : Parameter} : p.isOptional = true ↔ p.default ≠ none := by
  rw [isOptional, Option.isSome_iff_ne_none]

end Parameter

/-- What is counted once at most holds of no two elements. -/
theorem countP_le_one_iff {α : Type} {p : α → Bool} {xs : List α} :
    xs.countP p ≤ 1 ↔ xs.Pairwise fun x y => p x = true → p y = false := by
  induction xs with
  | nil => simp
  | cons x xs ih =>
    rw [List.pairwise_cons, ← ih, List.countP_cons]
    by_cases hp : p x = true
    · have hnone : (∀ y ∈ xs, p x = true → p y = false) ↔ xs.countP p = 0 := by
        simp [hp, List.countP_eq_zero]
      rw [hnone, if_pos hp]
      omega
    · simp [hp]

namespace Signature

/-- What a parameter list is like that can be declared. -/
structure Declared (ps : List Parameter) : Prop where
  named : ∀ p ∈ ps, p.name ≠ ""
  distinct : ps.Pairwise fun p q => p.name ≠ q.name
  ordered : ps.Pairwise fun p q =>
    Parameter.Kind.declared.idxOf p.kind ≤ Parameter.Kind.declared.idxOf q.kind
  one_varPositional : ps.countP (·.kind == .varPositional) ≤ 1
  one_varKeyword : ps.countP (·.kind == .varKeyword) ≤ 1
  collectors_plain : ∀ p ∈ ps, p.kind = .varPositional ∨ p.kind = .varKeyword → p.default = none
  required_first : (ps.filter (·.kind.isPositional)).Pairwise fun p q =>
    p.default ≠ none → q.default ≠ none

variable {ps : List Parameter}

/-- Each parameter may follow all before it if the kinds come in order and none collects twice. -/
theorem pairwise_mayFollow_iff : (ps.Pairwise fun p q => mayFollow q p = true) ↔
    (ps.Pairwise fun p q => p.kind.rank ≤ q.kind.rank) ∧
      ps.countP (·.kind == .varPositional) ≤ 1 ∧ ps.countP (·.kind == .varKeyword) ≤ 1 := by
  rw [countP_le_one_iff, countP_le_one_iff, ← List.pairwise_and_iff, ← List.pairwise_and_iff]
  refine List.Pairwise.iff fun p q => mayFollow_iff.trans (and_congr_right' ?_)
  simpa only [beq_iff_eq, beq_eq_false_iff_ne] using Parameter.Kind.collects_once_iff

theorem WellFormed.declared (h : WellFormed ps) : Declared ps := by
  obtain ⟨hordered, hpositional, hkeyword⟩ := pairwise_mayFollow_iff.mp h.ordered
  refine ⟨fun p hp => ?_, h.distinct, ?_, hpositional, hkeyword, fun p hp hk => ?_, ?_⟩
  · simpa using h.named p hp
  · simpa only [Parameter.Kind.idxOf_declared] using hordered
  · have hplain := h.variadic_plain p hp (Parameter.Kind.isVariadic_iff.mpr hk)
    simpa [Parameter.isOptional] using hplain
  · rw [List.pairwise_filter]
    refine h.optional_last.imp fun {p q} hpq hp hq => ?_
    simpa only [Parameter.isOptional_iff] using fun hd => hpq hp hd hq

theorem Declared.wellFormed (h : Declared ps) : WellFormed ps := by
  have hordered := h.ordered
  have hrequired := h.required_first
  simp only [Parameter.Kind.idxOf_declared] at hordered
  rw [List.pairwise_filter] at hrequired
  refine ⟨fun p hp => ?_, h.distinct, ?_, ?_, fun p hp hv => ?_⟩
  · simpa using h.named p hp
  · exact pairwise_mayFollow_iff.mpr ⟨hordered, h.one_varPositional, h.one_varKeyword⟩
  · refine hrequired.imp fun {p q} hpq hp ho hq => ?_
    exact Parameter.isOptional_iff.mpr (hpq hp hq (Parameter.isOptional_iff.mp ho))
  · have hplain := h.collectors_plain p hp (Parameter.Kind.isVariadic_iff.mp hv)
    simpa [Parameter.isOptional] using hplain

theorem check_ok_iff_declared : check ps = .ok () ↔ Declared ps :=
  (check_ok_iff ps).trans ⟨WellFormed.declared, Declared.wellFormed⟩

theorem exists_ofParameters_iff : (∃ sig, ofParameters ps = .ok sig) ↔ check ps = .ok () := by
  constructor
  · intro h
    obtain ⟨sig, hsig⟩ := h
    exact ofParameters_parameters hsig ▸ sig.accepted
  · intro h
    exact ⟨⟨ps, h⟩, ofParameters_self ⟨ps, h⟩⟩

/-- A parameter list makes a signature exactly if it can be declared. The signature has the
parameters as they were listed, and each positional one at the index of its argument. -/
theorem ofParameters_declares (ps : List Parameter) :
    ((∃ sig, ofParameters ps = .ok sig) ↔ Declared ps) ∧
      ∀ sig, ofParameters ps = .ok sig → sig.parameters = ps ∧
        ∀ (i : Nat) (p : Parameter), sig.positional[i]? = some p → ps[i]? = some p := by
  refine ⟨exists_ofParameters_iff.trans check_ok_iff_declared, fun sig hsig => ?_⟩
  have hkept := ofParameters_parameters hsig
  exact ⟨hkept, fun i p hp => hkept ▸ getElem?_parameters hp⟩

/-- In `a, /, b=1, *rest, c=2, d, **more` a required parameter follows an optional one. -/
theorem ofParameters_declares_every_kind :
    let b : Parameter := { name := "b", kind := .positionalOrKeyword, default := some (.int 1) }
    let ps : List Parameter := [{ name := "a", kind := .positionalOnly }, b,
      { name := "rest", kind := .varPositional },
      { name := "c", kind := .keywordOnly, default := some (.int 2) },
      { name := "d", kind := .keywordOnly }, { name := "more", kind := .varKeyword }]
    ∃ sig, ofParameters ps = .ok sig ∧ sig.positional[1]? = some b ∧ Declared ps ∧
      sig.parameters = ps ∧ ps[1]? = some b := by
  intro b ps
  have hsig : ofParameters ps = .ok ⟨ps, rfl⟩ := rfl
  have hb : (⟨ps, rfl⟩ : Signature).positional[1]? = some b := rfl
  obtain ⟨hdeclared, hkept⟩ := ofParameters_declares ps
  obtain ⟨hparameters, hplaces⟩ := hkept _ hsig
  exact ⟨_, hsig, hb, hdeclared.mp ⟨_, hsig⟩, hparameters, hplaces 1 b hb⟩

end Signature

end Staging
