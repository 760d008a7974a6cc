import Mathlib.Data.List.Sort
import Staging.Proofs.Places
import Staging.Proofs.RolePairs

namespace Staging

open Results

/-- One item, or a tuple or list of items. -/
inductive Value.Lists {α : Type} (Item : Value → α → Prop) : Value → List α → Prop where
  | one {v : Value} {a : α} (h : Item v a) : Lists Item v [a]
  | tuple {vs : List Value} {as : List α} (h : List.Forall₂ Item vs as) : Lists Item (.tuple vs) as
  | list {vs : List Value} {as : List α} (h : List.Forall₂ Item vs as) : Lists Item (.list vs) as

namespace Signature

/-- The parameter at a position may be passed either way. -/
def TakesEitherWay (sig : Signature) (k : Nat) : Prop :=
  ∃ q, sig.parameters[k]? = some q ∧ q.kind = .positionalOrKeyword

/-- An index counts from the front, or from the end of the positional parameters if they have
one. -/
def Points (sig : Signature) (i : Int) (k : Nat) : Prop :=
  i = k ∨ sig.hasVarPositional = false ∧ i = k - sig.numPositional

inductive SpellsIndex (sig : Signature) : Value → Nat → Prop where
  | int {n : Int64} {k : Nat} (h : sig.Points n.toInt k) : SpellsIndex sig (.int n) k
  | bool (b : Bool) : SpellsIndex sig (.bool b) b.toNat

inductive SpellsName (sig : Signature) : Value → Nat → Prop where
  | str {name : String} {k : Nat} {q : Parameter} (hq : sig.parameters[k]? = some q)
    (hname : q.name = name) : SpellsName sig (.str name) k

/-- One half of a role, for the parameters at the positions that are picked. If there are none
the role may be left unset. -/
inductive Spells (sig : Signature) (picked : Nat → Bool) : Option Value → Option Value → Prop where
  | unset (h : ∀ k, picked k = false) : Spells sig picked none none
  | byIndex {v : Value} {ks : List Nat} (hv : v.Lists sig.SpellsIndex ks)
    (hks : ∀ k, picked k = true ↔ k ∈ ks) : Spells sig picked (some v) none
  | byName {v : Value} {ks : List Nat} (hv : v.Lists sig.SpellsName ks)
    (hks : ∀ k, picked k = true ↔ k ∈ ks) : Spells sig picked none (some v)

/-- Both roles spelled out, for parameters that may be passed either way. -/
structure SpellsRoles (sig : Signature) (isStatic isDonated : Nat → Bool) (roles : Roles) :
    Prop where
  static : sig.Spells isStatic roles.staticArgnums roles.staticArgnames
  donate : sig.Spells isDonated roles.donateArgnums roles.donateArgnames
  staticEither : ∀ k, isStatic k = true → sig.TakesEitherWay k
  donateEither : ∀ k, isDonated k = true → sig.TakesEitherWay k

/-- The role of the parameters at the positions that are picked. -/
structure RoleOf (sig : Signature) (picked : Nat → Bool) (role : Role) : Prop where
  ascendingNums : role.argnums.Pairwise (· < ·)
  argnums : ∀ i, i ∈ role.argnums ↔ ∃ k : Nat, picked k = true ∧ i = k
  ascendingNames : role.argnames.Pairwise (· < ·)
  argnames : ∀ name, name ∈ role.argnames ↔
    ∃ k q, picked k = true ∧ sig.parameters[k]? = some q ∧ q.name = name

end Signature

/-- A relation that goes by way of what lies between. -/
theorem exists_forall₂ {α β γ : Type} {P : α → γ → Prop} {Q : α → β → Prop} {R : β → γ → Prop}
    {as : List α} {cs : List γ} (h : List.Forall₂ P as cs)
    (hP : ∀ a c, P a c → ∃ b, Q a b ∧ R b c) :
    ∃ bs, List.Forall₂ Q as bs ∧ List.Forall₂ R bs cs := by
  induction h with
  | nil => exact ⟨[], .nil, .nil⟩
  | cons h _ ih =>
    obtain ⟨b, hq, hr⟩ := hP _ _ h
    obtain ⟨bs, hqs, hrs⟩ := ih
    exact ⟨b :: bs, .cons hq hqs, .cons hr hrs⟩

namespace Value.Lists

variable {α : Type} {Item : Value → α → Prop} {v : Value} {ks : List α}

theorem toIndices {R : Int → α → Prop} (h : v.Lists Item ks)
    (hitem : ∀ v k, Item v k → ∃ i, v.toIndex = .ok i ∧ R i k) :
    ∃ is, v.toIndices = .ok is ∧ List.Forall₂ R is ks := by
  cases h with
  | one h =>
    obtain ⟨i, hi, hr⟩ := hitem _ _ h
    have hindex : v.asIndex? = some i := by
      unfold toIndex at hi
      split at hi
      · cases hi
        assumption
      · cases hi
    refine ⟨[i], ?_, .cons hr .nil⟩
    rw [Value.toIndices, toIndexSpec, hindex]
    rfl
  | tuple h | list h =>
    obtain ⟨is, hread, hr⟩ := exists_forall₂ h hitem
    refine ⟨is, ?_, hr⟩
    simp only [Value.toIndices, toIndexSpec, asIndex?, itemIndices, mapM_ok.mpr hread]
    rfl

theorem toNames {R : String → α → Prop} (h : v.Lists Item ks)
    (hitem : ∀ v k, Item v k → ∃ name, v = .str name ∧ R name k) :
    ∃ names, v.toNames = .ok names ∧ List.Forall₂ R names ks := by
  cases h with
  | one h =>
    obtain ⟨name, rfl, hr⟩ := hitem _ _ h
    exact ⟨[name], rfl, .cons hr .nil⟩
  | tuple h | list h =>
    obtain ⟨names, hread, hr⟩ := exists_forall₂ h hitem
    refine ⟨names, mapM_ok.mpr (hread.imp ?_), hr⟩
    rintro _ _ rfl
    rfl

end Value.Lists

namespace Signature

variable {sig : Signature} {picked : Nat → Bool} {argnums argnames : Option Value} {k : Nat}

theorem lt_numPositional (h : sig.TakesEitherWay k) : k < sig.numPositional := by
  obtain ⟨q, hq, hk⟩ := h
  by_contra hle
  rw [← length_positional] at hle
  rw [sig.parameters_eq, List.getElem?_append_right (Nat.not_lt.mp hle)] at hq
  have hpos : q.kind.isPositional = false := by
    rcases List.mem_append.mp (List.mem_of_getElem? hq) with hq | hq
    · exact not_isPositional_of_mem_collector? hq
    · exact not_isPositional_of_mem_byName hq
  rw [hk] at hpos
  cases hpos

theorem SpellsIndex.toIndex {v : Value} (h : sig.SpellsIndex v k) :
    ∃ i, v.toIndex = .ok i ∧ sig.Points i k := by
  cases h with
  | int h => exact ⟨_, rfl, h⟩
  | bool b =>
    refine ⟨b.toInt, rfl, .inl ?_⟩
    cases b <;> rfl

theorem Points.bounds {i : Int} (h : sig.Points i k) (hk : k < sig.numPositional) :
    sig.hasVarPositional = true ∨ -(sig.numPositional : Int) ≤ i ∧ i < sig.numPositional := by
  rcases h with h | ⟨-, h⟩
  · right
    omega
  · right
    omega

theorem Points.wrapIndex {i : Int} (h : sig.Points i k) (hk : k < sig.numPositional) :
    sig.wrapIndex i = k := by
  rw [Signature.wrapIndex]
  rcases h with rfl | ⟨hv, rfl⟩
  · exact if_neg (by simp)
  · rw [if_pos (by simp [hv]; omega)]
    omega

theorem RoleOf.unique {role role' : Role} (h : sig.RoleOf picked role)
    (h' : sig.RoleOf picked role') : role = role' := by
  obtain ⟨nums, names⟩ := role
  obtain ⟨nums', names'⟩ := role'
  congr 1
  · exact h.ascendingNums.eq_of_mem_iff h'.ascendingNums fun i =>
      (h.argnums i).trans (h'.argnums i).symm
  · exact h.ascendingNames.eq_of_mem_iff h'.ascendingNames fun name =>
      (h.argnames name).trans (h'.argnames name).symm

theorem wrapArgnums_of_spells {v : Value} {ks : List Nat} (h : v.Lists sig.SpellsIndex ks)
    (hks : ∀ k ∈ ks, k < sig.numPositional) (field : String) :
    sig.wrapArgnums field (some v) = .ok (some (ks.map Nat.cast)) := by
  obtain ⟨is, hread, hpoints⟩ := h.toIndices fun _ _ => SpellsIndex.toIndex
  have hvalid : sig.validateArgnums is field = .ok () := by
    rw [validateArgnums_ok_iff, or_iff_not_imp_left]
    intro hv i hi
    obtain ⟨k, hk, hpoint⟩ := (mem_of_forall₂ hpoints).1 i hi
    exact (hpoint.bounds (hks k hk)).resolve_left hv
  have hwrap : is.map sig.wrapIndex = ks.map Nat.cast := by
    clear h hread hvalid
    induction hpoints with
    | nil => rfl
    | cons hpoint _ ih =>
      obtain ⟨hk, hks⟩ := List.forall_mem_cons.mp hks
      rw [List.map_cons, List.map_cons, hpoint.wrapIndex hk, ih hks]
  have hgiven : readGiven Value.toIndices (some v) = .ok (some is) := by
    rw [readGiven, hread]
    rfl
  rw [wrapArgnums, bind_ok]
  refine ⟨some is, hgiven, bind_ok.mpr ⟨(), hvalid, ?_⟩⟩
  rw [hwrap]
  rfl

theorem readNames_of_spells {v : Value} {ks : List Nat} (h : v.Lists sig.SpellsName ks) :
    ∃ names, readGiven Value.toNames (some v) = .ok (some names) ∧
      ∀ name, name ∈ names ↔ ∃ k ∈ ks, ∃ q, sig.parameters[k]? = some q ∧ q.name = name := by
  obtain ⟨names, hread, hnames⟩ := h.toNames
    (R := fun name k => ∃ q, sig.parameters[k]? = some q ∧ q.name = name) fun v k hv => by
      cases hv with
      | str hq hname => exact ⟨_, rfl, _, hq, hname⟩
  obtain ⟨hl, hr⟩ := mem_of_forall₂ hnames
  refine ⟨names, by rw [readGiven, hread]; rfl, fun name => ⟨hl name, fun hname => ?_⟩⟩
  obtain ⟨k, hk, q, hq, rfl⟩ := hname
  obtain ⟨name, hmem, p, hp, rfl⟩ := hr k hk
  rw [hq] at hp
  cases hp
  exact hmem

theorem roleOf_nums {ks : List Nat} (hks : ∀ k, picked k = true ↔ k ∈ ks)
    (heither : ∀ k, picked k = true → sig.TakesEitherWay k) :
    sig.RoleOf picked (sig.completeRole (some (ks.map Nat.cast)) none) := by
  refine ⟨ascending_pairwise _, fun i => ?_, ascending_pairwise _, fun name => ?_⟩
  · simp [completeRole, mem_ascending, hks, eq_comm]
  · simp only [completeRole, mem_ascending, mem_namesAt, mem_eitherWay]
    constructor
    · intro h
      obtain ⟨_, hi, k, q, hq, -, rfl, rfl⟩ := h
      obtain ⟨j, hj, hjk⟩ := List.mem_map.mp hi
      obtain rfl : j = k := by exact_mod_cast hjk
      exact ⟨j, q, (hks j).mpr hj, hq, rfl⟩
    · intro h
      obtain ⟨k, q, hk, hq, rfl⟩ := h
      obtain ⟨p, hp, hkind⟩ := heither k hk
      rw [hq] at hp
      cases hp
      exact ⟨k, List.mem_map_of_mem ((hks k).mp hk), k, q, hq, hkind, rfl, rfl⟩

theorem roleOf_names {ks : List Nat} {names : List String} (hks : ∀ k, picked k = true ↔ k ∈ ks)
    (heither : ∀ k, picked k = true → sig.TakesEitherWay k)
    (hnames : ∀ name, name ∈ names ↔
      ∃ k ∈ ks, ∃ q, sig.parameters[k]? = some q ∧ q.name = name) :
    sig.RoleOf picked (sig.completeRole none (some names)) := by
  refine ⟨ascending_pairwise _, fun i => ?_, ascending_pairwise _, fun name => ?_⟩
  · simp only [completeRole, mem_ascending, mem_positionsOf, mem_eitherWay, hnames]
    constructor
    · intro h
      obtain ⟨_, ⟨k, hk, p, hp, rfl⟩, j, q, hq, -, rfl, hname⟩ := h
      obtain rfl := getElem?_name_inj hp hq hname
      exact ⟨k, (hks k).mpr hk, rfl⟩
    · intro h
      obtain ⟨k, hk, rfl⟩ := h
      obtain ⟨q, hq, hkind⟩ := heither k hk
      exact ⟨q.name, ⟨k, (hks k).mp hk, q, hq, rfl⟩, k, q, hq, hkind, rfl, rfl⟩
  · simp [completeRole, mem_ascending, hnames, hks]

/-- A role that is spelled is read, and completed to the role of the parameters it is for. -/
theorem Spells.reads (h : sig.Spells picked argnums argnames)
    (heither : ∀ k, picked k = true → sig.TakesEitherWay k) :
    ∃ nums names, (∀ field, sig.wrapArgnums field argnums = .ok nums) ∧
      readGiven Value.toNames argnames = .ok names ∧
      sig.RoleOf picked (sig.completeRole nums names) := by
  cases h with
  | unset h =>
    refine ⟨none, none, fun _ => rfl, rfl, ?_⟩
    exact ⟨.nil, by simp [completeRole, h], .nil, by simp [completeRole, h]⟩
  | @byIndex v ks hv hks =>
    refine ⟨some (ks.map Nat.cast), none, wrapArgnums_of_spells hv fun k hk => ?_, rfl,
      roleOf_nums hks heither⟩
    exact lt_numPositional (heither k ((hks k).mpr hk))
  | @byName v ks hv hks =>
    obtain ⟨names, hread, hnames⟩ := readNames_of_spells hv
    exact ⟨none, some names, fun _ => rfl, hread, roleOf_names hks heither hnames⟩

/-- Roles that are spelled are read as the roles of the parameters they are for. Whether these
are valid does not depend on how they are spelled. -/
theorem SpellsRoles.rolePair_eq {isStatic isDonated : Nat → Bool} {roles : Roles}
    (h : sig.SpellsRoles isStatic isDonated roles) :
    ∃ static donate, sig.RoleOf isStatic static ∧ sig.RoleOf isDonated donate ∧
      sig.rolePair roles = (do
        sig.validateRole static "static_argnums" "static_argnames"
        sig.validateRole donate "donate_argnums" "donate_argnames"
        return ⟨static, donate⟩) := by
  obtain ⟨staticNums, staticNames, hsn, hsa, hstatic⟩ := h.static.reads h.staticEither
  obtain ⟨donateNums, donateNames, hdn, hda, hdonate⟩ := h.donate.reads h.donateEither
  refine ⟨_, _, hstatic, hdonate, ?_⟩
  rw [rolePair, hsn, hdn, hsa, hda]
  rfl

end Signature

namespace Roles

variable {sig : Signature} {isStatic isDonated : Nat → Bool} {a b : Roles}

/-- Resolving does not depend on how roles are spelled. -/
theorem resolve_eq_of_spells (ha : sig.SpellsRoles isStatic isDonated a)
    (hb : sig.SpellsRoles isStatic isDonated b) (function : String) :
    a.resolve function (some sig) = b.resolve function (some sig) := by
  obtain ⟨static, donate, hstatic, hdonate, hpair⟩ := ha.rolePair_eq
  obtain ⟨static', donate', hstatic', hdonate', hpair'⟩ := hb.rolePair_eq
  obtain rfl := hstatic.unique hstatic'
  obtain rfl := hdonate.unique hdonate'
  rw [resolve, resolve, pair, pair, hpair, hpair']

/-- `a` static as `[-2, True, 1]` or by name, `b` donated by name or as `(2, -1)`. -/
theorem resolve_eq_of_spells_mixed :
    let sig : Signature := ⟨[{ name := "p", kind := .positionalOnly },
      { name := "a", kind := .positionalOrKeyword }, { name := "b", kind := .positionalOrKeyword },
      { name := "c", kind := .keywordOnly }], rfl⟩
    let roles : Roles :=
      { staticArgnums := some (.list [.int (-2), .bool true, .int 1])
        donateArgnames := some (.tuple [.str "b", .str "b"]) }
    let others : Roles :=
      { staticArgnames := some (.str "a")
        donateArgnums := some (.tuple [.int 2, .int (-1)]) }
    roles.resolve "f" (some sig) = others.resolve "f" (some sig) ∧
      others.resolve "f" (some sig) = .ok ⟨[1], ["b"], [1], ["a"]⟩ := by
  intro sig roles others
  have ha : sig.TakesEitherWay 1 := ⟨_, rfl, rfl⟩
  have hb : sig.TakesEitherWay 2 := ⟨_, rfl, rfl⟩
  have hstatic : (Value.list [.int (-2), .bool true, .int 1]).Lists sig.SpellsIndex [1, 1, 1] :=
    .list (.cons (.int (.inr ⟨rfl, rfl⟩)) (.cons (.bool true) (.cons (.int (.inl rfl)) .nil)))
  have hdonate : (Value.tuple [.str "b", .str "b"]).Lists sig.SpellsName [2, 2] :=
    .tuple (.cons (.str rfl rfl) (.cons (.str rfl rfl) .nil))
  have hstatic' : (Value.str "a").Lists sig.SpellsName [1] := .one (.str rfl rfl)
  have hdonate' : (Value.tuple [.int 2, .int (-1)]).Lists sig.SpellsIndex [2, 2] :=
    .tuple (.cons (.int (.inl rfl)) (.cons (.int (.inr ⟨rfl, rfl⟩)) .nil))
  have hroles : sig.SpellsRoles (· == 1) (· == 2) roles :=
    ⟨.byIndex hstatic (by simp), .byName hdonate (by simp), by simp [ha], by simp [hb]⟩
  have hothers : sig.SpellsRoles (· == 1) (· == 2) others :=
    ⟨.byName hstatic' (by simp), .byIndex hdonate' (by simp), by simp [ha], by simp [hb]⟩
  exact ⟨resolve_eq_of_spells hroles hothers "f", by with_unfolding_all rfl⟩

end Roles

end Staging
