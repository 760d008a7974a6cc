import Staging.Proofs.Likeness
import Staging.Proofs.Results
import Staging.Roles.Resolved

namespace Staging

open Results

namespace Value

variable {v w : Value}

theorem Alike.toIndex_ok {i : Int} (h : Alike v w) (hi : v.toIndex = .ok i) : w.toIndex = .ok i := by
  cases h with
  | refl => exact hi
  | zeros => cases hi
  | tuple => cases hi

theorem Alike.toName_ok {s : String} (h : Alike v w) (hs : v.toName = .ok s) : w.toName = .ok s := by
  cases h with
  | refl => exact hs
  | zeros => cases hs
  | tuple => cases hs

/-- Items that are alike are read alike. -/
theorem mapM_alike {β : Type} {f : Value → Except Error β} {bs : List β} {vs ws : List Value}
    (hf : ∀ {v w b}, Alike v w → f v = .ok b → f w = .ok b) (h : List.Forall₂ Alike vs ws)
    (hv : vs.mapM f = .ok bs) : ws.mapM f = .ok bs := by
  induction h generalizing bs with
  | nil => exact hv
  | cons hvw _ ih =>
    rcases mapM_ok.mp hv with _ | ⟨hb, hbs⟩
    exact mapM_ok.mpr (.cons (hf hvw hb) (mapM_ok.mp (ih (mapM_ok.mpr hbs))))

theorem Alike.toIndices_ok {is : List Int} (h : Alike v w) (hi : v.toIndices = .ok is) :
    w.toIndices = .ok is := by
  cases h with
  | refl => exact hi
  | zeros => cases hi
  | tuple hvw =>
    obtain ⟨_, hspec, rfl⟩ := map_ok.mp hi
    obtain ⟨js, hjs, rfl⟩ := map_ok.mp hspec
    have hws := mapM_alike Alike.toIndex_ok hvw hjs
    simp only [toIndices, toIndexSpec, asIndex?, itemIndices, hws]
    rfl

theorem Alike.toNames_ok {names : List String} (h : Alike v w) (hn : v.toNames = .ok names) :
    w.toNames = .ok names := by
  cases h with
  | refl => exact hn
  | zeros => cases hn
  | tuple hvw => exact mapM_alike Alike.toName_ok hvw hn

end Value

theorem readGiven_alike {α : Type} {f : Value → Except Error α} {given given' : Option Value}
    {r : Option α} (hf : ∀ {v w a}, Value.Alike v w → f v = .ok a → f w = .ok a)
    (h : Option.Rel Value.Alike given given') (hr : readGiven f given = .ok r) :
    readGiven f given' = .ok r := by
  cases h with
  | none => exact hr
  | some hvw =>
    obtain ⟨a, ha, rfl⟩ := map_ok.mp hr
    exact map_ok.mpr ⟨a, hf hvw ha, rfl⟩

namespace Signature

variable {a b : Signature}

theorem numPositional_eq (sig : Signature) :
    sig.numPositional = sig.kinds.countP (·.2.isPositional) := by
  rw [kinds, List.countP_map]
  rfl

theorem hasVarPositional_eq (sig : Signature) :
    sig.hasVarPositional = sig.kinds.any (·.2 == .varPositional) := by
  rw [kinds, List.any_map]
  rfl

theorem varKeyword?_eq (sig : Signature) :
    sig.varKeyword? = (sig.kinds.find? (·.2 == .varKeyword)).map Prod.fst := by
  rw [kinds, List.find?_map, Option.map_map]
  rfl

theorem hasName_eq (sig : Signature) (name : String) (among : Parameter.Kind → Bool) :
    sig.hasName name among = sig.kinds.any fun e => e.1 == name && among e.2 := by
  rw [kinds, List.any_map]
  rfl

theorem eitherWay_eq (sig : Signature) :
    sig.eitherWay = sig.kinds.zipIdx.filterMap fun (e, i) =>
      if e.2 = .positionalOrKeyword then some ((i : Int), e.1) else none := by
  rw [kinds, List.zipIdx_map, List.filterMap_map]
  rfl

theorem wrapIndex_congr (h : a.kinds = b.kinds) : a.wrapIndex = b.wrapIndex := by
  funext i
  simp only [wrapIndex, hasVarPositional_eq, numPositional_eq, h]

theorem validateArgnums_congr (h : a.kinds = b.kinds) : a.validateArgnums = b.validateArgnums := by
  funext argnums field
  simp only [validateArgnums, hasVarPositional_eq, numPositional_eq, h]

theorem validateArgnames_congr (h : a.kinds = b.kinds) :
    a.validateArgnames = b.validateArgnames := by
  funext argnames field
  simp only [validateArgnames, hasName_eq, varKeyword?_eq, h]

theorem completeRole_congr (h : a.kinds = b.kinds) : a.completeRole = b.completeRole := by
  funext argnums argnames
  simp only [completeRole, positionsOf, namesAt, eitherWay_eq, h]

theorem validateRole_congr (h : a.kinds = b.kinds) : a.validateRole = b.validateRole := by
  funext role numsField namesField
  simp only [validateRole, validateArgnums_congr h, validateArgnames_congr h]

theorem wrapArgnums_alike {field : String} {given given' : Option Value} {r : Option (List Int)}
    (h : a.kinds = b.kinds) (hg : Option.Rel Value.Alike given given')
    (hr : a.wrapArgnums field given = .ok r) : b.wrapArgnums field given' = .ok r := by
  unfold wrapArgnums at hr ⊢
  rw [bind_ok] at hr ⊢
  obtain ⟨nums, hnums, hrest⟩ := hr
  refine ⟨nums, readGiven_alike Value.Alike.toIndices_ok hg hnums, ?_⟩
  rwa [← wrapIndex_congr h, ← validateArgnums_congr h]

end Signature

/-- Roles of which boxes tell no two fields apart. -/
structure Roles.Alike (roles roles' : Roles) : Prop where
  donateArgnums : Option.Rel Value.Alike roles.donateArgnums roles'.donateArgnums
  donateArgnames : Option.Rel Value.Alike roles.donateArgnames roles'.donateArgnames
  staticArgnums : Option.Rel Value.Alike roles.staticArgnums roles'.staticArgnums
  staticArgnames : Option.Rel Value.Alike roles.staticArgnames roles'.staticArgnames

namespace Roles.Alike

variable {roles roles' : Roles} {p : RolePair}

theorem rolePair_ok {a b : Signature} (h : Roles.Alike roles roles') (hk : a.kinds = b.kinds)
    (hp : a.rolePair roles = .ok p) : b.rolePair roles' = .ok p := by
  simp only [Signature.rolePair, bind_ok] at hp ⊢
  obtain ⟨staticNums, hsn, donateNums, hdn, staticNames, hsa, donateNames, hda, hrest⟩ := hp
  refine ⟨staticNums, Signature.wrapArgnums_alike hk h.staticArgnums hsn,
    donateNums, Signature.wrapArgnums_alike hk h.donateArgnums hdn,
    staticNames, readGiven_alike Value.Alike.toNames_ok h.staticArgnames hsa,
    donateNames, readGiven_alike Value.Alike.toNames_ok h.donateArgnames hda, ?_⟩
  rwa [← Signature.completeRole_congr hk, ← Signature.validateRole_congr hk]

theorem unsignedPair_ok {function function' : String} (h : Roles.Alike roles roles')
    (hp : roles.unsignedPair function = .ok p) : roles'.unsignedPair function' = .ok p := by
  -- donated names must be unset for the pair to be had at all
  cases hd : roles.donateArgnames with
  | some v => simp [unsignedPair, hd, bind_ok] at hp
  | none =>
    have hd' : roles'.donateArgnames = none := by
      have hrel := h.donateArgnames
      rw [hd] at hrel
      cases hrel' : roles'.donateArgnames with
      | none => rfl
      | some w => rw [hrel'] at hrel; cases hrel
    simp only [unsignedPair, hd, hd', Option.isSome_none, Bool.false_eq_true, ↓reduceIte,
      bind_ok] at hp ⊢
    obtain ⟨staticNums, hsn, staticNames, hsa, donateNums, hdn, hrest⟩ := hp
    exact ⟨staticNums, readGiven_alike Value.Alike.toIndices_ok h.staticArgnums hsn,
      staticNames, readGiven_alike Value.Alike.toNames_ok h.staticArgnames hsa,
      donateNums, readGiven_alike Value.Alike.toIndices_ok h.donateArgnums hdn, hrest⟩

theorem resolve_ok {function function' : String} {signature signature' : Option Signature}
    {r : Resolved} (h : Roles.Alike roles roles')
    (hs : signature.map (·.kinds) = signature'.map (·.kinds))
    (hr : roles.resolve function signature = .ok r) :
    roles'.resolve function' signature' = .ok r := by
  unfold resolve at hr ⊢
  rw [bind_ok] at hr ⊢
  obtain ⟨p, hp, hrest⟩ := hr
  refine ⟨p, ?_, hrest⟩
  cases signature <;> cases signature' <;> simp only [Option.map_none, Option.map_some] at hs
  case none.none => exact h.unsignedPair_ok hp
  case none.some => cases hs
  case some.none => cases hs
  case some.some => exact h.rolePair_ok (Option.some.inj hs) hp

end Roles.Alike

end Staging
