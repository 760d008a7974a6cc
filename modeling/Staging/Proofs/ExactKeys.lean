import Staging.Proofs.ResolutionCache
import Staging.Proofs.RolePairs

namespace Staging

open Results

/-- A test that is equality for the items of a list is equality for the list. -/
theorem isEqv_iff_eq {α : Type} {same : α → α → Bool} {as bs : List α}
    (h : ∀ a ∈ as, ∀ b, same a b = true ↔ a = b) : as.isEqv bs same = true ↔ as = bs := by
  induction as generalizing bs with
  | nil => cases bs <;> simp [List.isEqv]
  | cons a as ih =>
    cases bs with
    | nil => simp [List.isEqv]
    | cons b bs =>
      rw [List.isEqv_cons_cons, Bool.and_eq_true, h a (by simp),
        ih fun c hc => h c (by simp [hc]), List.cons.injEq]

namespace Value

variable {v w : Value}

/-- Items that roles are read from. -/
def IsItem (v : Value) : Prop := (∃ i, v.toIndex = .ok i) ∨ ∃ name, v.toName = .ok name

/-- What a half of a role can be read from. -/
def Readable (v : Value) : Prop := (∃ is, v.toIndices = .ok is) ∨ ∃ names, v.toNames = .ok names

theorem IsItem.sameAs_iff (h : v.IsItem) : v.sameAs w = true ↔ v = w := by
  cases v <;> simp [IsItem, toIndex, toName, asIndex?, asText?] at h
  all_goals
    cases w <;> simp [sameAs, kind, equal, number?, Number.equal]
  case bool b c => cases b <;> cases c <;> simp
  case int m n => exact Int64.toInt_inj

theorem isItem_of_mapM {α : Type} {f : Value → Except Error α} {vs : List Value}
    {as : List α} (hf : ∀ {v a}, f v = .ok a → v.IsItem) (h : vs.mapM f = .ok as) : ∀ v ∈ vs, v.IsItem := by
  have hread := mapM_ok.mp h
  clear h
  induction hread with
  | nil => simp
  | cons hx _ ih => exact List.forall_mem_cons.mpr ⟨hf hx, ih⟩

theorem sameAsAll_iff {vs ws : List Value} (h : ∀ v ∈ vs, v.IsItem) :
    sameAsAll vs ws = true ↔ vs = ws := by
  induction vs generalizing ws with
  | nil => cases ws <;> simp [sameAsAll]
  | cons v vs ih =>
    obtain ⟨hv, hvs⟩ := List.forall_mem_cons.mp h
    cases ws with
    | nil => simp [sameAsAll]
    | cons w ws => rw [sameAsAll, Bool.and_eq_true, hv.sameAs_iff, ih hvs, List.cons.injEq]

theorem Readable.items {vs : List Value} (h : (Value.tuple vs).Readable) : ∀ v ∈ vs, v.IsItem := by
  rcases h with ⟨is, h⟩ | ⟨names, h⟩
  · obtain ⟨_, hspec, -⟩ := map_ok.mp h
    obtain ⟨_, hitems, -⟩ := map_ok.mp hspec
    exact isItem_of_mapM (fun hi => .inl ⟨_, hi⟩) hitems
  · exact isItem_of_mapM (fun hn => .inr ⟨_, hn⟩) h

/-- No floats are read, so what can be read and has a hash is the same as itself only. -/
theorem Readable.sameAs_iff (h : v.Readable) (hv : v.isHashable = true) :
    v.sameAs w = true ↔ v = w := by
  cases v with
  | tuple vs =>
    cases w <;> simp [sameAs, kind]
    exact sameAsAll_iff h.items
  | bool b => exact IsItem.sameAs_iff (.inl ⟨_, rfl⟩)
  | int n => exact IsItem.sameAs_iff (.inl ⟨_, rfl⟩)
  | str s => exact IsItem.sameAs_iff (.inr ⟨_, rfl⟩)
  | list _ | dict _ | tensor _ | ref _ => simp [isHashable, feed, Except.isOk, Except.toBool] at hv
  | absent | float _ =>
    rcases h with ⟨_, h⟩ | ⟨_, h⟩ <;> cases h

end Value

namespace ResolutionKey

theorem sameRole_iff {a b : Option Boxed} (h : ∀ x ∈ a, x.value.Readable) :
    sameRole a b = true ↔ a = b := by
  cases a <;> cases b <;> simp only [sameRole, Bool.false_eq_true, reduceCtorEq]
  rename_i a b
  rw [Boxed.equal, (h a rfl).sameAs_iff a.hashable, Option.some.injEq, Boxed.mk.injEq]

/-- The same as itself and as no other key. -/
def Exact (key : ResolutionKey) : Prop := ∀ other, key.same other = true ↔ key = other

theorem exact_of_resolve {function : String} {signature : Option Signature} {roles : Roles}
    {key : ResolutionKey} {r : Resolved} (hk : of? signature roles = some key)
    (hr : roles.resolve function signature = .ok r) : key.Exact := by
  obtain ⟨-, da, dn, sa, sn, hroles, rfl⟩ := of?_some hk
  obtain ⟨hda, hdn, hsa, hsn⟩ := Roles.reads_of_resolve hr
  have hreadable : ∀ role ∈ key.roles, ∀ x ∈ role, x.value.Readable := by
    rw [hroles]
    simp only [List.forall_mem_cons, Option.mem_def]
    refine ⟨?_, ?_, ?_, ?_, by simp⟩
    · rintro x rfl
      exact .inl (hda _ rfl)
    · rintro x rfl
      exact .inr (hdn _ rfl)
    · rintro x rfl
      exact .inl (hsa _ rfl)
    · rintro x rfl
      exact .inr (hsn _ rfl)
  intro other
  rw [same, Bool.and_eq_true, beq_iff_eq,
    isEqv_iff_eq fun role hrole _ => sameRole_iff (hreadable role hrole)]
  cases key
  cases other
  simp

end ResolutionKey

end Staging
