import Staging.Proofs.Rebasing
import Staging.Proofs.RolePairs

namespace Staging

/-- A role is a parameter's by its place in the signature or by its name. -/
def Role.Covers (role : Role) (i : Nat) (q : Parameter) : Prop :=
  (i : Int) ∈ role.argnums ∨ q.name ∈ role.argnames

/-- Both halves of both roles are given, so that none is found from the other. -/
structure Roles.AllGiven (roles : Roles) : Prop where
  donateArgnums : roles.donateArgnums.isSome = true
  donateArgnames : roles.donateArgnames.isSome = true
  staticArgnums : roles.staticArgnums.isSome = true
  staticArgnames : roles.staticArgnames.isSome = true

namespace Signature

/-- A parameter that no positional argument reaches, listed after one that collects positional
arguments: its place in the signature is that of an argument which is collected. -/
structure Misplaced (sig : Signature) (q : Parameter) : Prop where
  collected : sig.hasVarPositional = true
  byName : q.kind = .keywordOnly ∨ q.kind = .varKeyword

end Signature

/-- One role has a parameter by its place and another has it by its name, and the halves that say so
are given. -/
structure Crossed (argnums argnames : Option Value) (byPlace byName : Role) (i : Nat)
    (q : Parameter) : Prop where
  argnums_given : argnums.isSome = true
  argnames_given : argnames.isSome = true
  place : (i : Int) ∈ byPlace.argnums
  name : q.name ∈ byName.argnames

namespace Signature.Reads

variable {sig : Signature} {role other : Role} {nums names otherNums otherNames : Option Value}
  {i : Nat} {q : Parameter}

/-- A parameter that has one role by its place and another by its name, though no position and no
name has both. -/
theorem crossed (h : sig.Reads nums names role) (h' : sig.Reads otherNums otherNames other)
    (hnums : ∀ j ∈ role.argnums, j ∉ other.argnums)
    (hnames : ∀ name ∈ role.argnames, name ∉ other.argnames)
    (hq : sig.parameters[i]? = some q) (hi : (i : Int) ∈ role.argnums)
    (hn : q.name ∈ other.argnames) :
    Crossed nums otherNames role other i q ∧
      ((names.isSome = true ∧ otherNums.isSome = true) ∧ q.kind = .positionalOrKeyword ∨
        sig.Misplaced q) := by
  have hreached := h'.takesPositionOnly_of_name (List.mem_of_getElem? hq) hn
  cases hk : q.kind with
  | positionalOnly | varPositional =>
    rw [hk] at hreached
    cases hreached
  | positionalOrKeyword =>
    -- what is found from the other half would have made the conflict one of names or positions
    have hboth : nums ≠ none ∧ names ≠ none := not_or.mp fun hone =>
      hnames _ ((h.agrees hone hq hk).mp hi) hn
    have hboth' : otherNums ≠ none ∧ otherNames ≠ none := not_or.mp fun hone =>
      hnums _ hi ((h'.agrees hone hq hk).mpr hn)
    simp only [← Option.isSome_iff_ne_none] at hboth hboth'
    exact ⟨⟨hboth.1, hboth'.2, hi, hn⟩, .inl ⟨⟨hboth.2, hboth'.1⟩, rfl⟩⟩
  | keywordOnly | varKeyword =>
    have hne : q.kind ≠ .positionalOrKeyword := by simp [hk]
    refine ⟨⟨h.argnums_given hq hne hi, h'.argnames_given hq hne hn, hi, hn⟩,
      .inr ⟨?_, by simp [hk]⟩⟩
    by_contra hv
    have hlt := (h.argnums_bounds (by simpa using hv) i hi).2
    have hpositional := isPositional_of_lt hq (by exact_mod_cast hlt)
    rw [hk] at hpositional
    cases hpositional

end Signature.Reads

/-- A parameter that is static by the roles resolved and donated by the roles before donated
positions were rebased. -/
structure Conflict (sig : Signature) (p : RolePair) (r : Resolved) (i : Nat) (q : Parameter) :
    Prop where
  parameter : sig.parameters[i]? = some q
  static : Role.Covers ⟨r.staticArgnums, r.staticArgnames⟩ i q
  donated : Role.Covers ⟨p.donate.argnums, r.donateArgnames⟩ i q

namespace Roles

/-- Where roles resolve, no position and no name is both static and donated. A parameter that still
has both roles is given one by its place and the other by its name. Either it can be passed both
ways and both halves of both roles are given, or it is misplaced. -/
theorem resolve_separates {function : String} {sig : Signature} {roles : Roles} {r : Resolved}
    (h : roles.resolve function (some sig) = .ok r) :
    ∃ p, roles.pair function (some sig) = .ok p ∧
      (∀ i ∈ r.staticArgnums, i ∉ p.donate.argnums) ∧
      (∀ name ∈ r.staticArgnames, name ∉ r.donateArgnames) ∧
      ∀ i q, Conflict sig p r i q →
        (Crossed roles.staticArgnums roles.donateArgnames p.static p.donate i q ∨
          Crossed roles.donateArgnums roles.staticArgnames p.donate p.static i q) ∧
        (roles.AllGiven ∧ q.kind = .positionalOrKeyword ∨ sig.Misplaced q) := by
  obtain ⟨p, hp⟩ := resolve_ok_iff.mp h
  obtain ⟨hstatic, hdonate⟩ := Signature.rolePair_reads hp.pair
  have hnames : ∀ name ∈ p.static.argnames, name ∉ p.donate.argnames := by
    intro name hs hd
    exact hp.names_disjoint name hd hs
  have hnums : ∀ i ∈ p.static.argnums, i ∉ p.donate.argnums := by
    intro i hs hd
    rcases (rebaseDonated_ok_iff.mp hp.rebased).1 with hnone | hr
    · rw [hnone] at hd
      cases hd
    · exact hr.disjoint i hd hs
  refine ⟨p, hp.pair, by rwa [hp.static.1], by rwa [hp.static.2, hp.donateArgnames], ?_⟩
  intro i q hc
  obtain ⟨hq, hs, hd⟩ := hc
  simp only [Role.Covers, hp.static.1, hp.static.2, hp.donateArgnames] at hs hd
  rcases hs with hs | hs <;> rcases hd with hd | hd
  · exact absurd hd (hnums _ hs)
  · obtain ⟨hc, hexcept⟩ := hstatic.crossed hdonate hnums hnames hq hs hd
    exact ⟨.inl hc, hexcept.imp_left fun hall =>
      ⟨⟨hall.1.2, hc.argnames_given, hc.argnums_given, hall.1.1⟩, hall.2⟩⟩
  · obtain ⟨hc, hexcept⟩ := hdonate.crossed hstatic (fun j hj hj' => hnums j hj' hj)
      (fun name hn hn' => hnames name hn' hn) hq hd hs
    exact ⟨.inr hc, hexcept.imp_left fun hall =>
      ⟨⟨hc.argnums_given, hall.1.1, hall.1.2, hc.argnames_given⟩, hall.2⟩⟩
  · exact absurd hd (hnames _ hs)

/-- Three halves given, with a parameter donated by a name that has no place of its own. -/
theorem resolve_separates_three_halves :
    let sig : Signature := ⟨[{ name := "a", kind := .positionalOrKeyword },
      { name := "b", kind := .positionalOrKeyword }, { name := "rest", kind := .varPositional },
      { name := "c", kind := .keywordOnly }], rfl⟩
    let roles : Roles :=
      { staticArgnums := some (.int 0)
        donateArgnums := some (.tuple [.int 1, .int 2])
        donateArgnames := some (.tuple [.str "b", .str "c"]) }
    let r : Resolved := ⟨[0, 1], ["b", "c"], [0], ["a"]⟩
    roles.resolve "f" (some sig) = .ok r ∧ ∃ p, roles.pair "f" (some sig) = .ok p ∧
      ∀ i q, ¬ Conflict sig p r i q := by
  intro sig roles r
  have hr : roles.resolve "f" (some sig) = .ok r := by with_unfolding_all rfl
  have hpair : roles.pair "f" (some sig) = .ok ⟨⟨[0], ["a"]⟩, ⟨[1, 2], ["b", "c"]⟩⟩ := by
    with_unfolding_all rfl
  obtain ⟨p, hp, -, -, hconflict⟩ := resolve_separates hr
  obtain rfl := Except.ok.inj (hpair.symm.trans hp)
  refine ⟨hr, _, hp, fun i q h => ?_⟩
  obtain ⟨hcrossed, hexcept⟩ := hconflict i q h
  rcases hexcept with ⟨hall, -⟩ | hmisplaced
  · exact absurd hall.staticArgnames (by decide)
  · rcases hcrossed with hc | hc
    · -- the only static place is that of a parameter that can be passed by position
      obtain rfl : i = 0 := by simpa using hc.place
      obtain rfl := Option.some.inj h.parameter
      rcases hmisplaced.byName with hk | hk <;> cases hk
    · exact absurd hc.argnames_given (by decide)

/-- A parameter can have both roles: this one is static by its place and donated by its name, with
both halves of both roles given. -/
theorem resolve_conflicts :
    let a : Parameter := { name := "a", kind := .positionalOrKeyword }
    let sig : Signature := ⟨[a], rfl⟩
    let roles : Roles :=
      { staticArgnums := some (.int 0)
        staticArgnames := some (.tuple [])
        donateArgnums := some (.tuple [])
        donateArgnames := some (.str "a") }
    ∃ p r, roles.pair "f" (some sig) = .ok p ∧ roles.resolve "f" (some sig) = .ok r ∧
      Conflict sig p r 0 a := by
  intro a sig roles
  refine ⟨_, _, rfl, rfl, rfl, ?_, ?_⟩
  · exact .inl (List.mem_singleton.mpr rfl)
  · exact .inr (List.mem_singleton.mpr rfl)

/-- The place of the last parameter is that of an argument that is collected, so it is static and
the parameter donated. -/
example : ({ staticArgnums := some (.int 2), donateArgnames := some (.str "b") } : Roles).resolve "f"
    (some ⟨[{ name := "a", kind := .positionalOrKeyword }, { name := "rest", kind := .varPositional },
      { name := "b", kind := .keywordOnly }], rfl⟩) = .ok ⟨[], ["b"], [2], []⟩ := rfl

end Roles

end Staging
