import Staging.Proofs.Donation
import Staging.Proofs.Spelling

namespace Staging

open Results

def Call.at? (c : Call) : ArgPlace → Option Value
  | .index i => c.args[i]?
  | .name k => c.kwargs.get? k

/-- A call divided by the places of its arguments: the arguments that are not static are left,
each with one flag for each of its leaves. -/
structure Lowered.Divides (l : Lowered) (c : Call) (isStatic isDonated : ArgPlace → Bool) :
    Prop where
  args : l.dynamic.args =
    (c.args.zipIdx.filter fun e => !isStatic (.index e.2)).map Prod.fst
  kwargs : l.dynamic.kwargs = c.kwargs.filter fun e => !isStatic (.name e.1)
  donated : l.entry.donated =
    (c.args.zipIdx.flatMap fun (v, i) =>
      if isStatic (.index i) then [] else List.replicate v.numLeaves (isDonated (.index i))) ++
    c.kwargs.entries.flatMap fun (k, v) =>
      if isStatic (.name k) then [] else List.replicate v.numLeaves (isDonated (.name k))

namespace Signature

variable {sig : Signature} {c : Call} {b : BoundCall} {picked : Nat → Bool} {role : Role}

/-- The place is that of a parameter that is picked. -/
def isFor (sig : Signature) (picked : Nat → Bool) : ArgPlace → Bool
  | .index i => picked i
  | .name k => sig.parameters.zipIdx.any fun (q, i) => q.name == k && picked i

theorem isFor_name_iff {k : String} : sig.isFor picked (.name k) = true ↔
    ∃ i q, picked i = true ∧ sig.parameters[i]? = some q ∧ q.name = k := by
  simp only [isFor, List.any_eq_true, Prod.exists, List.mk_mem_zipIdx_iff_getElem?,
    Bool.and_eq_true, beq_iff_eq]
  constructor
  · intro h
    obtain ⟨q, i, hq, hname, hi⟩ := h
    exact ⟨i, q, hi, hq, hname⟩
  · intro h
    obtain ⟨i, q, hi, hq, hname⟩ := h
    exact ⟨q, i, hq, hname, hi⟩

/-- A name is that of one parameter only. -/
theorem isFor_name {i : Nat} {q : Parameter} (hq : sig.parameters[i]? = some q) :
    sig.isFor picked (.name q.name) = picked i := by
  rw [Bool.eq_iff_iff, isFor_name_iff]
  constructor
  · intro h
    obtain ⟨j, p, hj, hp, hname⟩ := h
    rwa [getElem?_name_inj hq hp hname.symm]
  · intro hi
    exact ⟨i, q, hi, hq, rfl⟩

theorem RoleOf.mem_argnames (h : sig.RoleOf picked role) {k : String} :
    k ∈ role.argnames ↔ sig.isFor picked (.name k) = true := by
  rw [h.argnames, isFor_name_iff]

theorem RoleOf.mem_argnums (h : sig.RoleOf picked role) {i : Nat} :
    (i : Int) ∈ role.argnums ↔ picked i = true := by
  rw [h.argnums]
  constructor
  · intro hi
    obtain ⟨k, hk, hik⟩ := hi
    obtain rfl : i = k := by exact_mod_cast hik
    exact hk
  · intro hi
    exact ⟨i, hi, rfl⟩

theorem RoleOf.designates_iff (h : sig.RoleOf picked role) {n i : Nat} (hi : i < n) :
    Designates role.argnums n i ↔ picked i = true := by
  rw [designates_iff_mem ?_ hi, h.mem_argnums]
  intro j hj
  obtain ⟨k, -, rfl⟩ := (h.argnums j).mp hj
  exact Int.natCast_nonneg k

theorem RoleOf.dynamicArgs_eq (h : sig.RoleOf picked role) (args : List Value) :
    dynamicArgs role.argnums args = (args.zipIdx.filter fun e => !picked e.2).map Prod.fst := by
  rw [dynamicArgs]
  congr 1
  apply List.filter_congr
  intro e he
  simp [h.designates_iff (List.mem_zipIdx' he).1]

theorem RoleOf.filter_kwargs (h : sig.RoleOf picked role) (kw : Kwargs) :
    kw.filter (!role.argnames.contains ·.1) = kw.filter fun e => !sig.isFor picked (.name e.1) := by
  congr 1
  funext e
  rw [Bool.eq_iff_iff]
  simp [h.mem_argnames]

theorem flags_eq {isStatic isDonated : Nat → Bool} {p : RolePair}
    (hs : sig.RoleOf isStatic p.static) (hd : sig.RoleOf isDonated p.donate) (c : Call) :
    p.flags c = (c.args.zipIdx.flatMap fun (v, i) =>
        if isStatic i then [] else List.replicate v.numLeaves (isDonated i)) ++
      c.kwargs.entries.flatMap fun (k, v) =>
        if sig.isFor isStatic (.name k) then []
        else List.replicate v.numLeaves (sig.isFor isDonated (.name k)) := by
  rw [RolePair.flags]
  congr 1
  · apply List.flatMap_congr
    intro e he
    simp only [hs.designates_iff (List.mem_zipIdx' he).1, hd.mem_argnums, Bool.decide_eq_true]
  · apply List.flatMap_congr
    intro e _
    simp only [hs.mem_argnames, hd.mem_argnames, Bool.decide_eq_true]

theorem SpellsRoles.roles_of {isStatic isDonated : Nat → Bool} {roles : Roles} {p : RolePair}
    (h : sig.SpellsRoles isStatic isDonated roles) (hp : sig.rolePair roles = .ok p) :
    sig.RoleOf isStatic p.static ∧ sig.RoleOf isDonated p.donate := by
  obtain ⟨static, donate, hstatic, hdonate, heq⟩ := h.rolePair_eq
  simp only [heq, bind_ok, pure_ok] at hp
  obtain ⟨_, -, _, -, rfl⟩ := hp
  exact ⟨hstatic, hdonate⟩

/-- The argument that a parameter is bound to stands at its position or under its name. -/
theorem exists_place (hb : sig.bind c = .ok b) {i : Nat} {q : Parameter} {v : Value}
    (hq : sig.parameters[i]? = some q) (hv : b.get? q.name = some (.value v)) :
    ∃ place, (place = .index i ∨ place = .name q.name) ∧ c.at? place = some v := by
  have hplaces := ((laidOut_of_bind hb).get?_iff (List.mem_of_getElem? hq)).mp hv
  cases hplaces with
  | @position j _ hj hv =>
    obtain rfl := getElem?_name_inj hq (getElem?_parameters hj) rfl
    exact ⟨.index i, .inl rfl, hv⟩
  | keyword hk hv => exact ⟨.name q.name, .inr rfl, hv⟩

end Signature

namespace Staged

variable {f : Callable} {roles : Roles} {config : Config} {s : Staged} {sig : Signature}
  {isStatic isDonated : Nat → Bool} {cells : Cells} {c : Call} {l : Lowered} {b : BoundCall}

/-- At any point of the use of a staged function, what is left of a call and how it is flagged
goes by the parameters that the arguments are for: the argument that a parameter is bound to is
for that parameter, whether it stands at its position or under its name. -/
theorem lower_divides (hs : s.Made f roles config) (hf : f.signature = some sig)
    (hroles : sig.SpellsRoles isStatic isDonated roles) (uses : List Use)
    (hl : ((s.afterAll uses).lower cells c).result = .ok l) (hb : sig.bind c = .ok b) :
    l.Divides c (sig.isFor isStatic) (sig.isFor isDonated) ∧
      ∀ i q v, sig.parameters[i]? = some q → b.get? q.name = some (.value v) →
        ∃ place, (place = .index i ∨ place = .name q.name) ∧ c.at? place = some v ∧
          sig.isFor isStatic place = isStatic i ∧ sig.isFor isDonated place = isDonated i := by
  obtain ⟨hresolve, hu⟩ := hs.inUse
  obtain ⟨p, hp⟩ := Roles.resolve_ok_iff.mp hresolve
  have hpair := hp.pair
  rw [hf] at hpair
  obtain ⟨hstatic, hdonate⟩ := hroles.roles_of hpair
  have hu := hu.afterAll uses
  obtain ⟨-, hdonated, hdynamic⟩ := hu.lower_metadata ((s.afterAll uses).lowers cells c) hl
  rw [statics, hu.resolved] at hdynamic
  have hflags := hp.flags c
  rw [← hdynamic, ← hu.resolved, ← hdonated] at hflags
  refine ⟨⟨?_, ?_, ?_⟩, ?_⟩
  · rw [hdynamic, Statics.dynamic, hp.static.1]
    exact hstatic.dynamicArgs_eq c.args
  · rw [hdynamic, Statics.dynamic, hp.static.2]
    exact hstatic.filter_kwargs c.kwargs
  · rw [hflags]
    exact Signature.flags_eq hstatic hdonate c
  · intro i q v hq hv
    obtain ⟨place, hplace, hat⟩ := Signature.exists_place hb hq hv
    refine ⟨place, hplace, hat, ?_⟩
    rcases hplace with rfl | rfl
    · exact ⟨rfl, rfl⟩
    · exact ⟨Signature.isFor_name hq, Signature.isFor_name hq⟩

/-- A static parameter that is named, passed by position; a donated one that is counted from the
end, passed by name. -/
theorem lower_divides_crossed :
    let sig : Signature := ⟨[{ name := "n", kind := .positionalOrKeyword },
      { name := "a", kind := .positionalOrKeyword }, { name := "b", kind := .positionalOrKeyword },
      { name := "c", kind := .keywordOnly }], rfl⟩
    let f : Callable := .function { Function.echo 0 with signature := some sig }
    let roles : Roles :=
      { staticArgnames := some (.str "n"), donateArgnums := some (.int (-1)) }
    let s : Staged := { callable := f, resolved := ⟨[1], ["b"], [0], ["n"]⟩, config := {} }
    let c : Call := ⟨[.int 7, .tuple [.int 1, .int 1]],
      .ofList [("c", .int 3), ("b", .tuple [.int 2, .int 2])]⟩
    s.Made f roles {} ∧ sig.SpellsRoles (· == 0) (· == 2) roles ∧
      ∃ l, (s.lower World.blank.cells c).result = .ok l ∧
        l.dynamic.args = [.tuple [.int 1, .int 1]] ∧
        l.entry.donated = [false, false, true, true, false] := by
  intro sig f roles s c
  have hs : s.Made f roles {} := .of_resolve (by with_unfolding_all rfl)
  have hn : sig.TakesEitherWay 0 := ⟨_, rfl, rfl⟩
  have hlast : sig.TakesEitherWay 2 := ⟨_, rfl, rfl⟩
  have hstatic : (Value.str "n").Lists sig.SpellsName [0] := .one (.str rfl rfl)
  have hdonate : (Value.int (-1)).Lists sig.SpellsIndex [2] := .one (.int (.inr ⟨rfl, rfl⟩))
  have hroles : sig.SpellsRoles (· == 0) (· == 2) roles :=
    ⟨.byName hstatic (by simp), .byIndex hdonate (by simp), by simp [hn], by simp [hlast]⟩
  obtain ⟨b, hb⟩ := exists_ok (x := sig.bind c) rfl
  obtain ⟨l, hl⟩ := exists_ok (x := (s.lower World.blank.cells c).result) rfl
  obtain ⟨hdivides, -⟩ := lower_divides hs rfl hroles [] hl hb
  exact ⟨hs, hroles, l, hl, hdivides.args, hdivides.donated⟩

end Staged

end Staging
