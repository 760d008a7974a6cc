import Staging.Proofs.Binding
import Staging.Proofs.Splitting

namespace Staging

open Results

section Blocks

variable {α β γ : Type} {xs : List α}

theorem length_flatMap_le {f : α → List β} {g : α → List γ}
    (h : ∀ x ∈ xs, (f x).length ≤ (g x).length) :
    (xs.flatMap f).length ≤ (xs.flatMap g).length := by
  induction xs with
  | nil => exact Nat.le_refl _
  | cons x xs ih =>
    simp only [List.flatMap_cons, List.length_append]
    have hx := h x (by simp)
    have hxs := ih fun y hy => h y (by simp [hy])
    omega

theorem length_flatMap_congr {f : α → List β} {g : α → List γ}
    (h : ∀ x ∈ xs, (f x).length = (g x).length) :
    (xs.flatMap f).length = (xs.flatMap g).length :=
  Nat.le_antisymm (length_flatMap_le fun x hx => Nat.le_of_eq (h x hx))
    (length_flatMap_le fun x hx => Nat.le_of_eq (h x hx).symm)

/-- Skipping is leaving out. -/
theorem flatMap_skip {p : α → Prop} [DecidablePred p] {f : α → List β} :
    (xs.flatMap fun x => if p x then [] else f x) = (xs.filter fun x => ¬ p x).flatMap f := by
  induction xs with
  | nil => rfl
  | cons x xs ih => by_cases hp : p x <;> simp [hp, ih]

/-- Parts that are no longer than their counterparts make up the same whole only if they are the
same. -/
theorem append_eq_append_iff_of_le {a b c d : List β} (hac : a.length ≤ c.length)
    (hbd : b.length ≤ d.length) : a ++ b = c ++ d ↔ a = c ∧ b = d := by
  constructor
  · intro h
    have hlen := congrArg List.length h
    simp only [List.length_append] at hlen
    exact List.append_inj h (by omega)
  · intro h
    obtain ⟨rfl, rfl⟩ := h
    rfl

theorem flatMap_eq_flatMap_iff_of_le {f g : α → List β} (h : ∀ x ∈ xs, (f x).length ≤ (g x).length) :
    xs.flatMap f = xs.flatMap g ↔ ∀ x ∈ xs, f x = g x := by
  induction xs with
  | nil => simp
  | cons x xs ih =>
    have hxs : ∀ y ∈ xs, (f y).length ≤ (g y).length := by
      intro y hy
      exact h y (by simp [hy])
    rw [List.flatMap_cons, List.flatMap_cons, List.forall_mem_cons,
      append_eq_append_iff_of_le (h x (by simp)) (length_flatMap_le hxs), ih hxs]

/-- Two runs of blocks that are no longer than their counterparts, likewise. -/
theorem flatMap_append_eq_iff_of_le {ys : List γ} {f f' : α → List β} {g g' : γ → List β}
    (hf : ∀ x ∈ xs, (f x).length ≤ (f' x).length) (hg : ∀ y ∈ ys, (g y).length ≤ (g' y).length) :
    xs.flatMap f ++ ys.flatMap g = xs.flatMap f' ++ ys.flatMap g' ↔
      (∀ x ∈ xs, f x = f' x) ∧ ∀ y ∈ ys, g y = g' y := by
  rw [append_eq_append_iff_of_le (length_flatMap_le hf) (length_flatMap_le hg),
    flatMap_eq_flatMap_iff_of_le hf, flatMap_eq_flatMap_iff_of_le hg]

end Blocks

section LeafNames

theorem length_leaves (v : Value) : v.leaves.length = v.numLeaves := by
  rw [Value.leaves, List.length_map, Value.length_leafPaths]

theorem length_leafNames (name : String) (v : Value) :
    (leafNames name v).length = v.numLeaves := by
  rw [leafNames, List.length_map, Value.length_leafPaths]

theorem leafNames_eq_nil_iff {name : String} {v : Value} :
    leafNames name v = [] ↔ v.numLeaves = 0 := by
  rw [← List.length_eq_zero_iff, length_leafNames]

/-- Names of leaves tell the names they were made from apart. -/
theorem leafNames_eq_iff {name name' : String} {v : Value} :
    leafNames name v = leafNames name' v ↔ name = name' ∨ v.numLeaves = 0 := by
  constructor
  · intro h
    cases hp : v.leafPaths with
    | nil =>
      right
      rw [← Value.length_leafPaths, hp]
      rfl
    | cons e es =>
      left
      simp only [leafNames, hp, List.map_cons, List.cons.injEq] at h
      exact (String.append_left_inj _).mp h.1
  · intro h
    rcases h with rfl | h
    · rfl
    · rw [leafNames_eq_nil_iff.mpr h, leafNames_eq_nil_iff.mpr h]

/-- The leaves of a tuple are those of its items, each under its index. -/
theorem leafNames_tuple (name : String) (vs : List Value) :
    leafNames name (.tuple vs) =
      vs.zipIdx.flatMap fun (v, i) => leafNames (name ++ (Value.Step.item i).text) v := by
  have hitems : ∀ (k : Nat) (vs : List Value),
      (Value.itemPaths k vs).map (fun e => name ++ e.1.text) =
        (vs.zipIdx k).flatMap fun e => leafNames (name ++ (Value.Step.item e.2).text) e.1 := by
    intro k vs
    induction vs generalizing k with
    | nil => rfl
    | cons v vs ih =>
      have hstep : ∀ path : Value.Path, name ++ Value.Path.text (.item k :: path) =
          name ++ (Value.Step.item k).text ++ path.text := by
        intro path
        simp [Value.Path.text, String.append_assoc]
      simp only [Value.itemPaths, List.map_append, List.zipIdx_cons, List.flatMap_cons, ih,
        Value.under, List.map_map, leafNames]
      congr 1
      apply List.map_congr_left
      intro e _
      exact hstep e.1
  exact hitems 0 vs

end LeafNames

namespace Signature

/-- What a positional argument goes by: its parameter, with an index if that collects. -/
def argumentName (positional : List Parameter) (collector? : Option Parameter) (i : Nat) :
    String :=
  match positional[i]? with
  | some p => p.name
  | none =>
    (collector?.map (·.name)).getD "" ++ (Value.Step.item (i - positional.length)).text

/-- Leaf by leaf, what positional arguments are bound to goes by the names of the arguments, those
of parameters that are left out excepted. -/
theorem flatMap_leafNames_reached (keep : String → Bool) {ps : List Parameter}
    {collector? : Option Parameter} {args : List Value}
    (h : args.length ≤ ps.length ∨ collector?.isSome = true) :
    ((placed ps args ++ collected collector? (args.drop ps.length)).filter
        (keep ·.1)).flatMap (fun e => leafNames e.1 e.2.toValue) =
      args.zipIdx.flatMap fun (v, i) =>
        if (parameterAt? ps collector? i).all (keep ·.name)
        then leafNames (argumentName ps collector? i) v else [] := by
  induction ps generalizing args with
  | nil =>
    cases args with
    | nil => simp [placed, collected_nil]
    | cons v vs =>
      obtain ⟨p, rfl⟩ : ∃ p, collector? = some p := by
        simpa [Option.isSome_iff_exists] using h
      by_cases hk : keep p.name = true
      · simp [placed, collected, hk, parameterAt?, argumentName, Bound.toValue, leafNames_tuple]
      · simp [placed, collected, hk, parameterAt?]
  | cons p ps ih =>
    cases args with
    | nil => simp [placed, collected_nil]
    | cons v vs =>
      have hrest := @ih vs (by simpa using h)
      have hshift : ∀ i, parameterAt? (p :: ps) collector? (i + 1) =
          parameterAt? ps collector? i := by
        intro i
        simp [parameterAt?]
      have hshiftName : ∀ i, argumentName (p :: ps) collector? (i + 1) =
          argumentName ps collector? i := by
        intro i
        simp [argumentName]
      have hhead : placed (p :: ps) (v :: vs) = (p.name, .value v) :: placed ps vs := rfl
      rw [List.zipIdx_cons', List.flatMap_cons, List.flatMap_map, hhead, List.cons_append,
        List.length_cons, List.drop_succ_cons, List.filter_cons]
      simp only [Prod.map, id_eq, hshift, hshiftName]
      rw [← hrest]
      by_cases hk : keep p.name = true
      · simp [hk, parameterAt?, argumentName, Bound.toValue]
      · simp [hk, parameterAt?]

end Signature

/-- What the arguments of a call go by. -/
structure Naming where
  argument : Nat → String
  keyword : String → String

/-- Arguments go by their parameters; a keyword argument that none takes is under the parameter
that collects it. -/
def Signature.naming (sig : Signature) : Naming where
  argument := argumentName sig.positional sig.collector?
  keyword k := if takes sig.parameters k then k else underKey (sig.varKeyword?.getD "kwargs") k

namespace Naming

/-- Arguments go by their places in the call. -/
def plain : Naming where
  argument i := "args" ++ (Value.Step.item i).text
  keyword := underKey "kwargs"

/-- The naming of a call, by a signature that binds it. -/
def of (signature : Option Signature) (c : Call) : Naming :=
  match signature with
  | some sig => if (sig.bind c).isOk then sig.naming else plain
  | none => plain

/-- Every argument goes by the parameter that it is bound to, and under its place there if the
parameter collects. -/
structure Follows (n : Naming) (c : Call) (b : BoundCall) : Prop where
  argument : ∀ i v, c.args[i]? = some v →
    (∃ p, b.signature.positional[i]? = some p ∧ (p.name, .value v) ∈ b.arguments ∧
        n.argument i = p.name) ∨
      ∃ p items j, b.signature.collector? = some p ∧ i = b.signature.positional.length + j ∧
        (p.name, .varArgs items) ∈ b.arguments ∧ items[j]? = some v ∧
        n.argument i = p.name ++ (Value.Step.item j).text
  keyword : ∀ k v, c.kwargs.get? k = some v →
    (Signature.takes b.signature.parameters k = true ∧ (k, .value v) ∈ b.arguments ∧
        n.keyword k = k) ∨
      ∃ name rest, Signature.takes b.signature.parameters k = false ∧
        b.signature.varKeyword? = some name ∧ (name, .varKwargs rest) ∈ b.arguments ∧
        rest.get? k = some v ∧ n.keyword k = underKey name k

/-- One name for each leaf of the arguments that are not static, in the order of the leaves. -/
def names (n : Naming) (statics : Statics) (c : Call) : List String :=
  (c.args.zipIdx.flatMap fun (v, i) =>
      if Designates statics.argnums c.args.length i then [] else leafNames (n.argument i) v) ++
    c.kwargs.entries.flatMap fun (k, v) =>
      if k ∈ statics.argnames then [] else leafNames (n.keyword k) v

end Naming

/-- The naming of a signature is by what binding does. -/
theorem Signature.naming_follows {sig : Signature} {c : Call} {b : BoundCall}
    (h : sig.bind c = .ok b) : sig.naming.Follows c b := by
  have hsig : b.signature = sig := by
    obtain ⟨-, rfl⟩ := (bind_ok_iff sig c b).mp h
    rfl
  constructor
  · intro i v hv
    rw [hsig]
    rcases bind_argument h hv with ⟨p, hp, hb⟩ | ⟨p, items, hnone, hc, hb, hitem⟩
    · exact .inl ⟨p, hp, hb, by simp [naming, argumentName, hp]⟩
    · have hlen : sig.positional.length ≤ i := List.getElem?_eq_none_iff.mp hnone
      refine .inr ⟨p, items, i - sig.positional.length, hc, by omega, hb, hitem, ?_⟩
      simp [naming, argumentName, hnone, hc]
  · intro k v hv
    rw [hsig]
    rcases bind_keyword h hv with ⟨ht, hb⟩ | ⟨ht, name, rest, hname, hb, hget⟩
    · exact .inl ⟨ht, hb, by simp [naming, ht]⟩
    · exact .inr ⟨name, rest, ht, hname, hb, hget, by simp [naming, ht, hname]⟩

namespace Statics

/-- The call with absent values in place of its static arguments. -/
def masked (s : Statics) (c : Call) : Call where
  args := c.args.zipIdx.map fun (v, i) =>
    if Designates s.argnums c.args.length i then .absent else v
  kwargs := c.kwargs.map fun k v => if k ∈ s.argnames then .absent else v

variable {s : Statics} {c m : Call}

theorem mask_ok (h : s.mask c = .ok m) : m = s.masked c := by
  unfold mask at h
  rw [bind_ok] at h
  obtain ⟨ps, hps, h⟩ := h
  rw [pure_ok] at h
  rw [← h, masked]
  congr 1
  · apply List.map_congr_left
    intro e he
    obtain ⟨v, i⟩ := e
    have hi : i < c.args.length := (List.mem_zipIdx' he).1
    simp [mem_ensureInBounds hps, hi]
  · simp

theorem length_masked_args (s : Statics) (c : Call) :
    (s.masked c).args.length = c.args.length := by
  simp [masked]

theorem contains_masked_kwargs (s : Statics) (c : Call) (k : String) :
    (s.masked c).kwargs.contains k = c.kwargs.contains k := by
  rw [Kwargs.contains_eq, Kwargs.contains_eq, masked, Kwargs.get?_map, Option.isSome_map]

theorem zipIdx_masked_args (s : Statics) (c : Call) :
    (s.masked c).args.zipIdx = c.args.zipIdx.map fun (v, i) =>
      (if Designates s.argnums c.args.length i then .absent else v, i) := by
  apply List.ext_getElem?
  intro i
  simp only [masked, List.getElem?_zipIdx, List.getElem?_map, Option.map_map]
  cases c.args[i]? <;> simp

/-- Static arguments can be skipped or made absent: there are no names for their leaves. -/
theorem names_masked (n : Naming) (s : Statics) (c : Call) :
    n.names s c = ((s.masked c).args.zipIdx.flatMap fun (v, i) => leafNames (n.argument i) v) ++
      (s.masked c).kwargs.entries.flatMap fun (k, v) => leafNames (n.keyword k) v := by
  have habsent : ∀ name, leafNames name .absent = [] := fun _ => rfl
  rw [Naming.names, zipIdx_masked_args, List.flatMap_map]
  congr 1
  · apply List.flatMap_congr
    intro e _
    obtain ⟨v, i⟩ := e
    dsimp only
    split <;> simp [habsent]
  · simp only [masked, Kwargs.map, List.flatMap_map]
    apply List.flatMap_congr
    intro e _
    obtain ⟨k, v⟩ := e
    dsimp only
    split <;> simp [habsent]

/-- There are as many flags of donation as leaves. -/
theorem length_donationFlags (argnums : List Int) (argnames : List String) (c : Call) :
    (donationFlags argnums argnames c).length =
      ((c.args ++ c.kwargs.values).flatMap Value.leaves).length := by
  have hflags : donationFlags argnums argnames c =
      (c.args.zipIdx.flatMap fun e =>
          List.replicate e.1.numLeaves (argnums.contains (e.2 : Int))) ++
        c.kwargs.entries.flatMap fun e =>
          List.replicate e.2.numLeaves (argnames.contains e.1) := rfl
  have hargs : c.args.flatMap Value.leaves = c.args.zipIdx.flatMap fun e => e.1.leaves := by
    rw [← List.flatMap_map Prod.fst, List.zipIdx_map_fst]
  rw [hflags, List.flatMap_append, hargs, Kwargs.values, List.flatMap_map, List.length_append,
    List.length_append]
  congr 1
  · apply length_flatMap_congr
    intro e _
    rw [List.length_replicate, length_leaves]
  · apply length_flatMap_congr
    intro e _
    rw [List.length_replicate, length_leaves]

/-- There are as many names as flags of donation for the dynamic arguments. -/
theorem length_names (n : Naming) (s : Statics) (c : Call) (argnums : List Int)
    (argnames : List String) :
    (n.names s c).length = (donationFlags argnums argnames (s.dynamic c)).length := by
  have hnames : n.names s c =
      (c.args.zipIdx.flatMap fun e =>
          if Designates s.argnums c.args.length e.2 then [] else leafNames (n.argument e.2) e.1) ++
        c.kwargs.entries.flatMap fun e =>
          if e.1 ∈ s.argnames then [] else leafNames (n.keyword e.1) e.2 := rfl
  have hkwargs : (s.dynamic c).kwargs.entries =
      c.kwargs.entries.filter fun e => ¬ e.1 ∈ s.argnames := by
    simp [dynamic, Kwargs.filter]
  have hleaves : ∀ name v, (leafNames name v).length = v.leaves.length := by
    intro name v
    rw [length_leafNames, length_leaves]
  rw [length_donationFlags, hnames, flatMap_skip, flatMap_skip, Kwargs.values, hkwargs, dynamic,
    dynamicArgs, List.flatMap_append, List.flatMap_map, List.flatMap_map, List.length_append,
    List.length_append]
  congr 1
  · apply length_flatMap_congr
    intro e _
    exact hleaves _ _
  · apply length_flatMap_congr
    intro e _
    exact hleaves _ _

end Statics

namespace Signature

variable {sig : Signature} {c : Call} {k : String}

/-- Only what is bound by position and not named in the call is left of the bound arguments. -/
theorem filter_boundArguments (sig : Signature) (c : Call) :
    (sig.boundArguments c).filter
        (fun e => !c.kwargs.contains e.1 && some e.1 != sig.varKeyword?) =
      (placed sig.positional c.args ++
        collected sig.collector? (c.args.drop sig.positional.length)).filter
          (fun e => !c.kwargs.contains e.1) := by
  have hreached : ∀ e ∈ placed sig.positional c.args ++
      collected sig.collector? (c.args.drop sig.positional.length),
      some e.1 ≠ sig.varKeyword? := by
    intro e he hv
    obtain ⟨i, -, p, hp, hpe⟩ := exists_parameterAt? he
    obtain ⟨hmem, hkind, -⟩ := parameterAt?_some hp
    obtain ⟨q, hq, hqk, hqe⟩ := varKeyword?_eq_some_iff.mp hv.symm
    exact hkind (eq_of_name_eq hmem hq (hpe.trans hqe.symm) ▸ hqk)
  have htaken : (taken c.kwargs sig.parameters).filter
      (fun e => !c.kwargs.contains e.1 && some e.1 != sig.varKeyword?) = [] := by
    rw [List.filter_eq_nil_iff]
    intro e he
    obtain ⟨p, -, -, v, hv, rfl⟩ := mem_taken.mp he
    simp [Kwargs.contains_eq, hv]
  have habsorbed : (absorbed sig.varKeyword? (untaken c.kwargs sig.parameters)).filter
      (fun e => !c.kwargs.contains e.1 && some e.1 != sig.varKeyword?) = [] := by
    rw [List.filter_eq_nil_iff]
    intro e he
    obtain ⟨-, name, hname, rfl⟩ := mem_absorbed.mp he
    simp [hname]
  rw [boundArguments, List.filter_append, List.filter_append, htaken, habsorbed,
    List.append_nil, List.append_nil]
  apply List.filter_congr
  intro e he
  simp [hreached e he]

/-- A keyword argument that is collected has the name of a parameter that is bound to something
else, or of the one that collects it. -/
structure Shadows (sig : Signature) (c : Call) (k : String) : Prop where
  given : c.kwargs.contains k = true
  untaken : takes sig.parameters k = false
  bound : sig.varKeyword? = some k ∨ ∃ i < c.args.length, ∃ p,
    parameterAt? sig.positional sig.collector? i = some p ∧ p.name = k

/-- What is shadowed depends on how many arguments there are and on their names only. -/
theorem Shadows.congr {d : Call} (hl : c.args.length = d.args.length)
    (hk : ∀ l, c.kwargs.contains l = d.kwargs.contains l) : sig.Shadows c k ↔ sig.Shadows d k := by
  constructor
  · intro h
    exact ⟨hk k ▸ h.given, h.untaken, hl ▸ h.bound⟩
  · intro h
    exact ⟨(hk k).symm ▸ h.given, h.untaken, hl ▸ h.bound⟩

/-- Nothing in a call that goes by a name has leaves. -/
structure Leafless (sig : Signature) (c : Call) (k : String) : Prop where
  keyword : ∀ v, c.kwargs.get? k = some v → v.numLeaves = 0
  argument : ∀ i v p, c.args[i]? = some v →
    parameterAt? sig.positional sig.collector? i = some p → p.name = k → v.numLeaves = 0

theorem contains_iff {b : BoundCall} : b.contains k = true ↔ ∃ e ∈ b.arguments, e.1 = k := by
  rw [BoundCall.contains, BoundCall.get?, List.lookup_isSome_iff]
  exact exists_congr fun e => and_congr_right fun _ => by rw [beq_iff_eq, eq_comm]

/-- A keyword argument that a parameter takes is bound under its name. -/
theorem contains_of_takes (hk : c.kwargs.contains k = true)
    (ht : takes sig.parameters k = true) :
    BoundCall.contains ⟨sig, sig.boundArguments c⟩ k = true := by
  obtain ⟨v, hv⟩ := Kwargs.contains_iff.mp hk
  have htaken := mem_taken_of_takes hv ht
  exact contains_iff.mpr ⟨_, List.mem_append_left _ (List.mem_append_right _ htaken), rfl⟩

/-- A keyword argument that none takes is bound under its name only by chance. -/
theorem contains_iff_shadows (hk : c.kwargs.contains k = true)
    (ht : takes sig.parameters k = false) :
    BoundCall.contains ⟨sig, sig.boundArguments c⟩ k = true ↔ sig.Shadows c k := by
  rw [contains_iff, boundArguments]
  constructor
  · intro h
    obtain ⟨e, he, rfl⟩ := h
    refine ⟨hk, ht, ?_⟩
    rcases List.mem_append.mp he with he | he
    · rcases List.mem_append.mp he with he | he
      · obtain ⟨i, hi, p, hp, hpe⟩ := exists_parameterAt? he
        exact .inr ⟨i, hi, p, hp, hpe⟩
      · obtain ⟨p, hp, ha, v, -, rfl⟩ := mem_taken.mp he
        rw [takes_iff.mpr ⟨p, hp, ha, rfl⟩] at ht
        cases ht
    · obtain ⟨-, name, hname, rfl⟩ := mem_absorbed.mp he
      exact .inl hname
  · intro h
    rcases h.bound with hv | ⟨i, hi, p, hp, rfl⟩
    · obtain ⟨v, hget⟩ := Kwargs.contains_iff.mp hk
      obtain ⟨-, habsorbed⟩ := mem_absorbed_of_untaken hv hget ht
      exact ⟨_, List.mem_append_right _ habsorbed, rfl⟩
    · obtain ⟨e, he, hname⟩ := exists_reached hi hp
      exact ⟨e, List.mem_append_left _ (List.mem_append_left _ he), hname⟩

theorem underKey_ne (collector key : String) : underKey collector key ≠ key := by
  intro h
  have hlen := congrArg String.length h
  have hquote : "['".length = 2 := by decide
  simp only [underKey, String.length_append, hquote] at hlen
  omega

/-- The name of a keyword argument is the right one unless it shadows another argument. -/
theorem keywordName_eq_iff (hk : c.kwargs.contains k = true) :
    BoundCall.keywordName ⟨sig, sig.boundArguments c⟩ k = sig.naming.keyword k ↔
      ¬ sig.Shadows c k := by
  have hright : sig.naming.keyword k = if takes sig.parameters k then k
      else underKey (sig.varKeyword?.getD "kwargs") k := rfl
  rw [BoundCall.keywordName, hright]
  by_cases ht : takes sig.parameters k = true
  · have hno : ¬ sig.Shadows c k := by
      intro h
      rw [h.untaken] at ht
      cases ht
    simp only [contains_of_takes hk ht, ht, ↓reduceIte, hno, not_false_eq_true]
  · rw [← contains_iff_shadows hk (Bool.eq_false_iff.mpr ht), if_neg ht]
    by_cases hb : BoundCall.contains ⟨sig, sig.boundArguments c⟩ k = true
    · simp only [hb, ↓reduceIte, (underKey_ne _ k).symm, not_true_eq_false]
    · simp only [hb, Bool.false_eq_true, ↓reduceIte, not_false_eq_true]

/-- A positional argument is left out of the names exactly if a keyword argument shadows it. -/
theorem shadows_of_contains {i : Nat} {p : Parameter} (h : sig.Binds c) (hi : i < c.args.length)
    (hp : parameterAt? sig.positional sig.collector? i = some p)
    (hk : c.kwargs.contains p.name = true) : sig.Shadows c p.name := by
  refine ⟨hk, ?_, .inr ⟨i, hi, p, hp, rfl⟩⟩
  by_contra ht
  obtain ⟨q, hq, ha, hname⟩ := takes_iff.mp (by simpa using ht)
  obtain ⟨hmem, -, hpositional⟩ := parameterAt?_some hp
  obtain rfl := eq_of_name_eq hq hmem hname
  have hat := hpositional ha
  have hkind : q.kind = .positionalOrKeyword :=
    Parameter.Kind.eq_positionalOrKeyword
      (List.mem_filter.mp (List.mem_of_getElem? hat)).2 ha
  have htake : q ∈ sig.positional.take c.args.length :=
    List.mem_of_getElem? (by rw [List.getElem?_take_of_lt hi]; exact hat)
  rw [h.once q htake hkind] at hk
  cases hk

/-- The names found through the bound arguments: those of the positional arguments that are not
named in the call as well, then those of the keyword arguments. -/
theorem flatMap_namedArguments (h : sig.Binds c) :
    (BoundCall.namedArguments ⟨sig, sig.boundArguments c⟩ c.kwargs).flatMap
        (fun (name, v) => leafNames name v) =
      (c.args.zipIdx.flatMap fun (v, i) =>
          if (parameterAt? sig.positional sig.collector? i).all
            (fun p => !c.kwargs.contains p.name)
          then leafNames (sig.naming.argument i) v else []) ++
        c.kwargs.entries.flatMap fun (k, v) =>
          leafNames (BoundCall.keywordName ⟨sig, sig.boundArguments c⟩ k) v := by
  have hreached := flatMap_leafNames_reached (fun name => !c.kwargs.contains name) h.placed
  rw [BoundCall.namedArguments, List.flatMap_append, List.flatMap_map, List.flatMap_map]
  simp only [filter_boundArguments, hreached]
  rfl

/-- The names found through the bound arguments are one for each leaf, and the right ones, exactly
if nothing that is shadowed has leaves. -/
theorem flatMap_namedArguments_eq_iff (h : sig.Binds c) :
    (BoundCall.namedArguments ⟨sig, sig.boundArguments c⟩ c.kwargs).flatMap
        (fun (name, v) => leafNames name v) =
      (c.args.zipIdx.flatMap fun (v, i) => leafNames (sig.naming.argument i) v) ++
        c.kwargs.entries.flatMap (fun (k, v) => leafNames (sig.naming.keyword k) v) ↔
      ∀ k, sig.Shadows c k → sig.Leafless c k := by
  rw [flatMap_namedArguments h, flatMap_append_eq_iff_of_le]
  rotate_left
  · intro e _
    obtain ⟨v, i⟩ := e
    dsimp only
    split <;> simp [naming]
  · intro e _
    obtain ⟨k, v⟩ := e
    simp only [length_leafNames, Nat.le_refl]
  constructor
  · intro hsame k hs
    obtain ⟨hargs, hkwargs⟩ := hsame
    constructor
    · intro v hv
      have := hkwargs (k, v) (Kwargs.mem_entries.mpr hv)
      rw [leafNames_eq_iff, keywordName_eq_iff hs.given] at this
      exact this.resolve_left fun hno => hno hs
    · intro i v p hv hp hname
      have := hargs (v, i) (List.mk_mem_zipIdx_iff_getElem?.mpr hv)
      simp only [hp, Option.all_some, hname, hs.given, Bool.not_true, Bool.false_eq_true,
        ↓reduceIte] at this
      exact leafNames_eq_nil_iff.mp this.symm
  · intro hall
    refine ⟨?_, ?_⟩
    · intro e he
      obtain ⟨v, i⟩ := e
      have hv := List.mk_mem_zipIdx_iff_getElem?.mp he
      obtain ⟨hi, -⟩ := List.getElem?_eq_some_iff.mp hv
      dsimp only
      split
      · rfl
      · rename_i hnot
        obtain ⟨p, hp, hk⟩ : ∃ p, parameterAt? sig.positional sig.collector? i = some p ∧
            c.kwargs.contains p.name = true := by
          simpa [Option.all_eq_true] using hnot
        have hleafless := hall p.name (shadows_of_contains h hi hp hk)
        exact (leafNames_eq_nil_iff.mpr (hleafless.argument i v p hv hp rfl)).symm
    · intro e he
      obtain ⟨k, v⟩ := e
      have hv := Kwargs.mem_entries.mp he
      rw [leafNames_eq_iff, keywordName_eq_iff (Kwargs.contains_iff.mpr ⟨v, hv⟩)]
      by_cases hs : sig.Shadows c k
      · exact .inr ((hall k hs).keyword v hv)
      · exact .inl hs

end Signature

namespace Statics

variable {sig : Signature} {s : Statics} {c : Call}

theorem binds_masked_iff : sig.Binds (s.masked c) ↔ sig.Binds c := by
  constructor
  · intro h
    exact h.congr (s.length_masked_args c).symm fun k => (s.contains_masked_kwargs c k).symm
  · intro h
    exact h.congr (s.length_masked_args c) (s.contains_masked_kwargs c)

theorem shadows_masked_iff {k : String} : sig.Shadows (s.masked c) k ↔ sig.Shadows c k :=
  Signature.Shadows.congr (s.length_masked_args c) (s.contains_masked_kwargs c)

theorem bind_masked_error (h : ¬ sig.Binds c) : ∃ e, sig.bind (s.masked c) = .error e :=
  Signature.bind_error_of_not_binds fun hm => h (binds_masked_iff.mp hm)

end Statics

/-- Arguments that nothing binds go by their places. -/
theorem flatMap_plain_namedArguments (c : Call) :
    c.namedArguments.flatMap (fun (name, v) => leafNames name v) =
      (c.args.zipIdx.flatMap fun (v, i) => leafNames (Naming.plain.argument i) v) ++
        c.kwargs.entries.flatMap fun (k, v) => leafNames (Naming.plain.keyword k) v := by
  rw [Call.namedArguments, List.flatMap_cons, List.flatMap_map]
  exact congrArg (· ++ _) (leafNames_tuple "args" c.args)

/-- There is one name for each leaf of the arguments that are not static, in the order of the
leaves, and it is the name of what the argument is bound to, exactly if no keyword argument that
is collected shadows an argument with leaves or has leaves itself while it does. Where the
signature binds the call the names follow what the arguments are bound to. -/
theorem nonStaticArgNames_eq_iff {signature : Option Signature} {c : Call} {statics : Statics}
    {names : List String} (h : nonStaticArgNames signature c statics = .ok names)
    (argnums : List Int) (argnames : List String) :
    ((Naming.of signature c).names statics c).length =
        (donationFlags argnums argnames (statics.dynamic c)).length ∧
      (∀ sig b, signature = some sig → sig.bind c = .ok b →
        (Naming.of signature c).Follows c b) ∧
      (names = (Naming.of signature c).names statics c ↔
        ∀ sig, signature = some sig → (sig.bind c).isOk = true →
          ∀ k, sig.Shadows c k → sig.Leafless (statics.masked c) k) := by
  refine ⟨statics.length_names _ c argnums argnames, ?_, ?_⟩
  · rintro sig b rfl hb
    have hok : (sig.bind c).isOk = true := by
      rw [hb]
      rfl
    rw [Naming.of, if_pos hok]
    exact Signature.naming_follows hb
  unfold nonStaticArgNames at h
  rw [bind_ok] at h
  obtain ⟨m, hm, h⟩ := h
  rw [pure_ok] at h
  obtain rfl := Statics.mask_ok hm
  rw [← h, Statics.names_masked]
  cases signature with
  | none =>
    refine iff_of_true (flatMap_plain_namedArguments _) ?_
    rintro _ ⟨⟩
  | some sig =>
    by_cases hb : sig.Binds c
    · have hok : (sig.bind c).isOk = true := (Signature.bind_isOk_iff sig c).mpr hb
      have hbm : sig.Binds (statics.masked c) := Statics.binds_masked_iff.mpr hb
      have hbind := (Signature.bind_ok_iff sig (statics.masked c) _).mpr ⟨hbm, rfl⟩
      simp only [namedArguments, hbind, Naming.of, hok, ↓reduceIte]
      rw [Signature.flatMap_namedArguments_eq_iff hbm]
      constructor
      · rintro hall _ ⟨⟩ - k hk
        exact hall k (Statics.shadows_masked_iff.mpr hk)
      · intro hall k hk
        exact hall sig rfl hok k (Statics.shadows_masked_iff.mp hk)
    · have hno : (sig.bind c).isOk ≠ true := by
        intro hok
        exact hb ((Signature.bind_isOk_iff sig c).mp hok)
      obtain ⟨e, hbind⟩ := Statics.bind_masked_error (s := statics) hb
      simp only [namedArguments, hbind, Naming.of, hno, Bool.false_eq_true, ↓reduceIte]
      refine iff_of_true (flatMap_plain_namedArguments _) ?_
      rintro _ ⟨⟩ hok
      exact absurd hok hno

/-- One name for two leaves: the argument `a` is collected, and shadows the parameter `a`. -/
theorem nonStaticArgNames_shadowed :
    let sig : Signature :=
      ⟨[{ name := "a", kind := .positionalOnly }, { name := "kw", kind := .varKeyword }], rfl⟩
    let c : Call := ⟨[.int 1], .ofList [("a", .int 2)]⟩
    nonStaticArgNames (some sig) c ⟨[], []⟩ = .ok ["a"] ∧
      (Naming.of (some sig) c).names ⟨[], []⟩ c = ["a", "kw['a']"] ∧
      ¬ ∀ sig', some sig = some sig' → (sig'.bind c).isOk = true →
        ∀ k, sig'.Shadows c k → sig'.Leafless (Statics.masked ⟨[], []⟩ c) k := by
  intro sig c
  have hnames : nonStaticArgNames (some sig) c ⟨[], []⟩ = .ok ["a"] := rfl
  have hright : (Naming.of (some sig) c).names ⟨[], []⟩ c = ["a", "kw['a']"] := rfl
  refine ⟨hnames, hright, ?_⟩
  intro hall
  have hsame := (nonStaticArgNames_eq_iff hnames [] []).2.2.mpr hall
  rw [hright] at hsame
  exact absurd (congrArg List.length hsame) (by decide)

end Staging
