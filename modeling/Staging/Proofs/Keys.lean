import Staging.Callable.Reduced
import Staging.Proofs.Likeness
import Staging.Proofs.Results

namespace Staging

/-- What holds of items with the same key holds one by one of lists with the same keys. -/
theorem forall₂_of_keys {α κ : Type} {f : α → Option κ} {same : κ → κ → Bool} {R : α → α → Prop}
    (hR : ∀ {x y k l}, f x = some k → f y = some l → same k l = true → R x y) {xs ys : List α}
    {ks ls : List κ} (hx : xs.mapM f = some ks) (hy : ys.mapM f = some ls)
    (hs : ks.isEqv ls same = true) : List.Forall₂ R xs ys := by
  induction xs generalizing ys ks ls with
  | nil =>
    cases hx
    cases ls with
    | cons l ls => cases hs
    | nil =>
      cases ys with
      | nil => exact .nil
      | cons y ys => simp [List.mapM_cons, Option.bind_eq_some_iff] at hy
  | cons x xs ih =>
    simp only [List.mapM_cons, Option.bind_eq_bind, Option.bind_eq_some_iff, Option.pure_def,
      Option.some.injEq] at hx
    obtain ⟨k, hk, ks, hks, rfl⟩ := hx
    cases ys with
    | nil => cases hy; cases hs
    | cons y ys =>
      simp only [List.mapM_cons, Option.bind_eq_bind, Option.bind_eq_some_iff, Option.pure_def,
        Option.some.injEq] at hy
      obtain ⟨l, hl, ls, hls, rfl⟩ := hy
      rw [List.isEqv_cons_cons, Bool.and_eq_true] at hs
      exact .cons (hR hk hl hs.1) (ih hks hls hs.2)

/-- Lists are equivalent if their items are, one by one. -/
theorem isEqv_iff_forall₂ {α : Type} {same : α → α → Bool} {as bs : List α} :
    as.isEqv bs same = true ↔ List.Forall₂ (fun a b => same a b = true) as bs := by
  induction as generalizing bs with
  | nil => cases bs <;> simp [List.isEqv]
  | cons a as ih =>
    cases bs with
    | nil => simp [List.isEqv]
    | cons b bs => rw [List.isEqv_cons_cons, Bool.and_eq_true, ih, List.forall₂_cons]

/-- Transforms with the same key: the same positions or names, and boxes that are equal. -/
inductive Transform.Same : Transform → Transform → Prop where
  | positions {dynamic : List Nat} {boxes boxes' : List Boxed}
    (h : List.Forall₂ (fun a b => a.equal b = true) boxes boxes') :
    Same (.positions dynamic (boxes.map .boxed)) (.positions dynamic (boxes'.map .boxed))
  | names {named named' : List (String × Boxed)}
    (h : List.Forall₂ (fun a b => a.1 = b.1 ∧ a.2.equal b.2 = true) named named') :
    Same (.names named) (.names named')

theorem FixedArg.mapM_boxed?_eq_some_iff {fixed : List FixedArg} {boxes : List Boxed} :
    fixed.mapM boxed? = some boxes ↔ fixed = boxes.map .boxed := by
  constructor
  · intro h
    induction fixed generalizing boxes with
    | nil =>
      cases h
      rfl
    | cons a fixed ih =>
      simp only [List.mapM_cons, Option.bind_eq_bind, Option.bind_eq_some_iff, Option.pure_def,
        Option.some.injEq] at h
      obtain ⟨b, hb, boxes, hboxes, rfl⟩ := h
      cases a with
      | boxed c =>
        cases hb
        rw [ih hboxes, List.map_cons]
      | plain v => cases hb
  · rintro rfl
    induction boxes with
    | nil => rfl
    | cons b boxes ih => simp [boxed?, ih]

theorem Transform.same_of_key {t t' : Transform} {k k' : TransformKey} (h : t.key? = some k)
    (h' : t'.key? = some k') (hs : k.same k' = true) : t.Same t' := by
  cases t with
  | front args => cases h
  | positions dynamic fixed =>
    obtain ⟨boxes, hboxes, rfl⟩ := Option.map_eq_some_iff.mp h
    cases t' with
    | front args => cases h'
    | names fixed' => cases h'; cases hs
    | positions dynamic' fixed' =>
      obtain ⟨boxes', hboxes', rfl⟩ := Option.map_eq_some_iff.mp h'
      simp only [TransformKey.same, Bool.and_eq_true, beq_iff_eq] at hs
      obtain ⟨rfl, hs⟩ := hs
      rw [FixedArg.mapM_boxed?_eq_some_iff.mp hboxes, FixedArg.mapM_boxed?_eq_some_iff.mp hboxes']
      exact .positions (isEqv_iff_forall₂.mp hs)
  | names named =>
    cases h
    cases t' with
    | front args => cases h'
    | positions dynamic' fixed' =>
      obtain ⟨_, _, rfl⟩ := Option.map_eq_some_iff.mp h'
      cases hs
    | names named' =>
      cases h'
      refine .names ((isEqv_iff_forall₂.mp hs).imp fun a b hab => ?_)
      simpa using hab

/-- Transforms that differ in no more than the signs of zeros that they hold fixed. -/
inductive Transform.Alike : Transform → Transform → Prop where
  | positions {dynamic : List Nat} {fixed fixed' : List FixedArg}
    (h : List.Forall₂ Value.Alike (fixed.map FixedArg.value) (fixed'.map FixedArg.value)) :
    Alike (.positions dynamic fixed) (.positions dynamic fixed')
  | names {fixed fixed' : List (String × Boxed)}
    (h : List.Forall₂ (fun a b => a.1 = b.1 ∧ a.2.Alike b.2)
      (fixed.map fun e => (e.1, e.2.value)) (fixed'.map fun e => (e.1, e.2.value))) :
    Alike (.names fixed) (.names fixed')

theorem FixedArg.map_value_boxed (boxes : List Boxed) :
    (boxes.map FixedArg.boxed).map FixedArg.value = boxes.map Boxed.value := by
  rw [List.map_map]
  rfl

theorem Transform.Same.alike {t t' : Transform} (h : t.Same t') : t.Alike t' := by
  cases h with
  | positions h =>
    refine .positions ?_
    rw [FixedArg.map_value_boxed, FixedArg.map_value_boxed, List.forall₂_map_left_iff,
      List.forall₂_map_right_iff]
    exact h.imp fun a b => Boxed.alike_of_equal
  | names h =>
    refine .names ?_
    rw [List.forall₂_map_left_iff, List.forall₂_map_right_iff]
    exact h.imp fun a b hab => ⟨hab.1, Boxed.alike_of_equal hab.2⟩

/-- Reduced functions with the same key are of functions with the same ticket, and so are their
transforms. -/
theorem Reduced.same_of_key {r r' : Reduced} {k k' : ReducedKey} (h : r.key? = some k)
    (h' : r'.key? = some k') (hs : k.same k' = true) :
    r.inner.ticket = r'.inner.ticket ∧ List.Forall₂ Transform.Same r.transforms r'.transforms := by
  obtain ⟨keys, hkeys, rfl⟩ := Option.map_eq_some_iff.mp h
  obtain ⟨keys', hkeys', rfl⟩ := Option.map_eq_some_iff.mp h'
  simp only [ReducedKey.same, Bool.and_eq_true, beq_iff_eq] at hs
  exact ⟨hs.1, forall₂_of_keys Transform.same_of_key hkeys hkeys' hs.2⟩

theorem Reduced.alike_of_same {r r' : Reduced} {k k' : ReducedKey} (h : r.key? = some k)
    (h' : r'.key? = some k') (hs : k.same k' = true) :
    r.inner.ticket = r'.inner.ticket ∧ List.Forall₂ Transform.Alike r.transforms r'.transforms := by
  obtain ⟨hinner, hsame⟩ := same_of_key h h' hs
  exact ⟨hinner, hsame.imp fun _ _ => Transform.Same.alike⟩

end Staging
