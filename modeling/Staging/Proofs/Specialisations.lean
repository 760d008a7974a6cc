import Staging.Proofs.Matching
import Staging.Proofs.Metadata

namespace Staging

open Results

namespace AbstractValue

def kind : AbstractValue → Value.Kind
  | .scalar kind => kind
  | .tensor _ => .tensor
  | .ref _ => .ref
  | .tuple _ => .tuple
  | .list _ => .list
  | .dict _ => .dict

end AbstractValue

namespace Value

theorem kind_abstract (cells : Cells) (v : Value) : (v.abstract cells).kind = v.kind := by
  cases v <;> rfl

def Kind.isScalar : Kind → Bool
  | .tuple | .list | .dict | .tensor | .ref => false
  | _ => true

/-- The same containers with the same keys, around scalars of the same kinds and tensors and cells of
the same types. -/
inductive SameShape (cells cells' : Cells) : Value → Value → Prop where
  | scalar {v w : Value} (hv : v.kind.isScalar = true) (h : v.kind = w.kind) :
    SameShape cells cells' v w
  | tensor {t u : Tensor} (h : t.type = u.type) : SameShape cells cells' (.tensor t) (.tensor u)
  | ref {c d : CellId} (h : (cells.read c).type = (cells'.read d).type) :
    SameShape cells cells' (.ref c) (.ref d)
  | tuple {vs ws : List Value} (h : List.Forall₂ (SameShape cells cells') vs ws) :
    SameShape cells cells' (.tuple vs) (.tuple ws)
  | list {vs ws : List Value} (h : List.Forall₂ (SameShape cells cells') vs ws) :
    SameShape cells cells' (.list vs) (.list ws)
  | dict {es fs : List (String × Value)}
    (hkeys : es.map Prod.fst = fs.map Prod.fst)
    (h : List.Forall₂ (fun e f => SameShape cells cells' e.2 f.2) es fs) :
    SameShape cells cells' (.dict es) (.dict fs)

variable {cells cells' : Cells}

theorem SameShape.kind_eq {v w : Value} (h : SameShape cells cells' v w) : v.kind = w.kind := by
  cases h with
  | scalar _ h => exact h
  | tensor | ref | tuple | list | dict => rfl

theorem kind_eq_of_abstract {v w : Value} (h : v.abstract cells = w.abstract cells') :
    v.kind = w.kind := by
  rw [← kind_abstract cells v, h, kind_abstract]

mutual

/-- The abstract tells values apart exactly by their shapes. -/
theorem abstract_eq_iff : ∀ {v w : Value},
    v.abstract cells = w.abstract cells' ↔ SameShape cells cells' v w
  | .absent, w | .bool _, w | .int _, w | .float _, w | .str _, w => by
    refine ⟨fun h => .scalar rfl (kind_eq_of_abstract h), fun h => ?_⟩
    have hkind := h.kind_eq
    cases w <;> first | rfl | cases hkind
  | .tensor t, w => by
    cases w with
    | tensor u =>
      rw [abstract, abstract, AbstractValue.tensor.injEq]
      refine ⟨.tensor, fun h => ?_⟩
      cases h with
      | scalar hv => cases hv
      | tensor h => exact h
    | _ => exact iff_of_false (fun h => by cases h) fun h => by cases h.kind_eq
  | .ref c, w => by
    cases w with
    | ref d =>
      rw [abstract, abstract, AbstractValue.ref.injEq]
      refine ⟨.ref, fun h => ?_⟩
      cases h with
      | scalar hv => cases hv
      | ref h => exact h
    | _ => exact iff_of_false (fun h => by cases h) fun h => by cases h.kind_eq
  | .tuple vs, w => by
    cases w with
    | tuple ws =>
      rw [abstract, abstract, AbstractValue.tuple.injEq, abstractAll_eq_iff]
      refine ⟨.tuple, fun h => ?_⟩
      cases h with
      | scalar hv => cases hv
      | tuple h => exact h
    | _ => exact iff_of_false (fun h => by cases h) fun h => by cases h.kind_eq
  | .list vs, w => by
    cases w with
    | list ws =>
      rw [abstract, abstract, AbstractValue.list.injEq, abstractAll_eq_iff]
      refine ⟨.list, fun h => ?_⟩
      cases h with
      | scalar hv => cases hv
      | list h => exact h
    | _ => exact iff_of_false (fun h => by cases h) fun h => by cases h.kind_eq
  | .dict es, w => by
    cases w with
    | dict fs =>
      rw [abstract, abstract, AbstractValue.dict.injEq, abstractEntries_eq_iff]
      refine ⟨fun h => .dict h.1 h.2, fun h => ?_⟩
      cases h with
      | scalar hv => cases hv
      | dict hkeys h => exact ⟨hkeys, h⟩
    | _ => exact iff_of_false (fun h => by cases h) fun h => by cases h.kind_eq

theorem abstractAll_eq_iff : ∀ {vs ws : List Value},
    abstractAll cells vs = abstractAll cells' ws ↔ List.Forall₂ (SameShape cells cells') vs ws
  | [], [] => by simp [abstractAll]
  | [], _ :: _ | _ :: _, [] => by simp [abstractAll]
  | v :: vs, w :: ws => by
    rw [abstractAll, abstractAll, List.cons.injEq, abstract_eq_iff, abstractAll_eq_iff,
      List.forall₂_cons]

theorem abstractEntries_eq_iff : ∀ {es fs : List (String × Value)},
    abstractEntries cells es = abstractEntries cells' fs ↔
      es.map Prod.fst = fs.map Prod.fst ∧
        List.Forall₂ (fun e f => SameShape cells cells' e.2 f.2) es fs
  | [], [] => by simp [abstractEntries]
  | [], _ :: _ | _ :: _, [] => by simp [abstractEntries]
  | (k, v) :: es, (l, w) :: fs => by
    rw [abstractEntries, abstractEntries, List.cons.injEq, Prod.mk.injEq, abstract_eq_iff,
      abstractEntries_eq_iff, List.forall₂_cons, List.map_cons, List.map_cons, List.cons.injEq]
    exact and_and_and_comm

end

end Value

/-- A call, and what the cells hold when it is made. -/
structure Occasion where
  cells : Cells
  call : Call

namespace Statics

/-- The positions of a call that static arguments are at. -/
def staticPositions (st : Statics) (c : Call) : List Nat :=
  (List.range c.args.length).filter fun i => Designates st.argnums c.args.length i

def dynamicPositions (st : Statics) (c : Call) : List Nat :=
  (List.range c.args.length).filter fun i => ¬ Designates st.argnums c.args.length i

/-- The call with its static arguments only. -/
def static (st : Statics) (c : Call) : Call where
  args := (st.staticPositions c).map (argAt c.args)
  kwargs := c.kwargs.filter (st.argnames.contains ·.1)

/-- What one specialisation does for: the same places are static and the same ones dynamic,
static values are equal with the same kinds throughout, and dynamic ones are equal in the
abstract. -/
structure SameClass (st : Statics) (x y : Occasion) : Prop where
  static_positions : st.staticPositions x.call = st.staticPositions y.call
  dynamic_positions : st.dynamicPositions x.call = st.dynamicPositions y.call
  static_names : (st.static x.call).kwargs.keys = (st.static y.call).kwargs.keys
  dynamic_names : (st.dynamic x.call).kwargs.keys = (st.dynamic y.call).kwargs.keys
  static_args : List.Forall₂ Value.Matches (st.static x.call).args (st.static y.call).args
  static_kwargs :
    List.Forall₂ Value.Matches (st.static x.call).kwargs.values (st.static y.call).kwargs.values
  dynamic_args : (st.dynamic x.call).args.map (Value.abstract x.cells) =
    (st.dynamic y.call).args.map (Value.abstract y.cells)
  dynamic_kwargs : (st.dynamic x.call).kwargs.values.map (Value.abstract x.cells) =
    (st.dynamic y.call).kwargs.values.map (Value.abstract y.cells)

def staticValues (st : Statics) (c : Call) : List Value :=
  (st.static c).args ++ (st.static c).kwargs.values

/-- Every static argument has a hash. -/
def Hashable (st : Statics) (c : Call) : Prop := ∀ v ∈ st.staticValues c, v.isHashable = true

/-- No static argument has a NaN in it. -/
def NaNFree (st : Statics) (c : Call) : Prop := ∀ v ∈ st.staticValues c, ¬ v.HasNaN

variable {st : Statics} {c : Call}

theorem ascending_eq_staticPositions {ps : List Nat}
    (h : ensureInBounds true c.args.length st.argnums = .ok ps) :
    ascending ps = st.staticPositions c := by
  apply (ascending_pairwise ps).eq_of_mem_iff (List.pairwise_lt_range.filter _)
  intro i
  rw [mem_ascending, mem_ensureInBounds h]
  simp

theorem otherPositions_eq_dynamicPositions {ps : List Nat}
    (h : ensureInBounds true c.args.length st.argnums = .ok ps) :
    otherPositions c.args (ascending ps) = st.dynamicPositions c :=
  otherPositions_ascending h

theorem pick_ascending {ps : List Nat}
    (h : ensureInBounds true c.args.length st.argnums = .ok ps) :
    pick c.args (ascending ps) = (st.static c).args := by
  rw [pick_eq_map (lt_of_mem_ascending h), ascending_eq_staticPositions h]
  rfl

/-- Every position is static or dynamic. -/
theorem length_positions (st : Statics) (c : Call) :
    (st.staticPositions c).length + (st.dynamicPositions c).length = c.args.length := by
  have := List.length_eq_length_filter_add (l := List.range c.args.length)
    fun i => decide (Designates st.argnums c.args.length i)
  simpa [staticPositions, dynamicPositions] using this.symm

theorem dynamic_args (st : Statics) (c : Call) :
    (st.dynamic c).args = (st.dynamicPositions c).map (argAt c.args) :=
  dynamicArgs_eq_map st.argnums c.args

theorem staticPositions_congr {d : Call} (h : c.args.length = d.args.length) :
    st.staticPositions c = st.staticPositions d := by
  rw [staticPositions, staticPositions, h]

theorem dynamicPositions_congr {d : Call} (h : c.args.length = d.args.length) :
    st.dynamicPositions c = st.dynamicPositions d := by
  rw [dynamicPositions, dynamicPositions, h]

/-- As many static and as many dynamic arguments are as many arguments. -/
theorem length_args_eq {d : Call} (hs : (st.static c).args.length = (st.static d).args.length)
    (hd : (st.dynamic c).args.length = (st.dynamic d).args.length) :
    c.args.length = d.args.length := by
  rw [← length_positions st c, ← length_positions st d]
  simp only [static, dynamic_args, List.length_map] at hs hd
  rw [hs, hd]

theorem static_args_nil (h : st.argnums = []) (c : Call) : (st.static c).args = [] := by
  simp [static, staticPositions, Designates, h]

theorem static_kwargs_nil (h : st.argnames = []) (c : Call) :
    (st.static c).kwargs.entries = [] := by
  simp [static, Kwargs.filter, h]

theorem forall_staticValues {p : Value → Prop} : (∀ v ∈ st.staticValues c, p v) ↔
    (∀ v ∈ (st.static c).args, p v) ∧ ∀ v ∈ (st.static c).kwargs.values, p v := by
  simp only [staticValues, List.mem_append, or_imp, forall_and]

namespace SameClass

variable {x y z : Occasion}

theorem refl (hx : st.Hashable x.call) (hn : st.NaNFree x.call) : st.SameClass x x := by
  obtain ⟨hargs, hkwargs⟩ := forall_staticValues.mp hx
  obtain ⟨hnargs, hnkwargs⟩ := forall_staticValues.mp hn
  exact ⟨rfl, rfl, rfl, rfl, Value.matches_refl hargs hnargs, Value.matches_refl hkwargs hnkwargs,
    rfl, rfl⟩

theorem symm (hx : st.Hashable x.call) (hy : st.Hashable y.call) (h : st.SameClass x y) :
    st.SameClass y x := by
  obtain ⟨hargs, hkwargs⟩ := forall_staticValues.mp hx
  obtain ⟨hargs', hkwargs'⟩ := forall_staticValues.mp hy
  exact ⟨h.static_positions.symm, h.dynamic_positions.symm, h.static_names.symm,
    h.dynamic_names.symm, Value.matches_symm hargs' hargs h.static_args,
    Value.matches_symm hkwargs' hkwargs h.static_kwargs, h.dynamic_args.symm,
    h.dynamic_kwargs.symm⟩

theorem trans (hx : st.Hashable x.call) (hy : st.Hashable y.call) (h : st.SameClass x y)
    (h' : st.SameClass y z) : st.SameClass x z := by
  obtain ⟨hargs, hkwargs⟩ := forall_staticValues.mp hx
  obtain ⟨hargs', hkwargs'⟩ := forall_staticValues.mp hy
  exact ⟨h.static_positions.trans h'.static_positions,
    h.dynamic_positions.trans h'.dynamic_positions, h.static_names.trans h'.static_names,
    h.dynamic_names.trans h'.dynamic_names,
    Value.matches_trans hargs' hargs h.static_args h'.static_args,
    Value.matches_trans hkwargs' hkwargs h.static_kwargs h'.static_kwargs,
    h.dynamic_args.trans h'.dynamic_args, h.dynamic_kwargs.trans h'.dynamic_kwargs⟩

/-- Dynamic arguments have the same shapes throughout a class. -/
theorem shapes (h : st.SameClass x y) :
    List.Forall₂ (Value.SameShape x.cells y.cells) (st.dynamic x.call).args
        (st.dynamic y.call).args ∧
      List.Forall₂ (Value.SameShape x.cells y.cells) (st.dynamic x.call).kwargs.values
        (st.dynamic y.call).kwargs.values := by
  rw [← Value.abstractAll_eq_iff, ← Value.abstractAll_eq_iff]
  simp only [Value.abstractAll_eq_map]
  exact ⟨h.dynamic_args, h.dynamic_kwargs⟩

/-- A class has static arguments with a hash, or without, throughout. -/
theorem hashable (h : st.SameClass x y) (hx : st.Hashable x.call) : st.Hashable y.call := by
  obtain ⟨hargs, hkwargs⟩ := forall_staticValues.mp hx
  exact forall_staticValues.mpr ⟨Value.hashable_of_matches h.static_args hargs,
    Value.hashable_of_matches h.static_kwargs hkwargs⟩

end SameClass

end Statics

namespace Reduced

variable {r r' : Reduced} {k : ReducedKey} {c : Call}

theorem key?_push {t : Transform} {tk : TransformKey} (hr : r.key? = some k)
    (ht : t.key? = some tk) : (r.push t).key? = some ⟨k.inner, k.transforms ++ [tk]⟩ := by
  obtain ⟨keys, hkeys, rfl⟩ := Option.map_eq_some_iff.mp hr
  simp [key?, push, List.mapM_append, hkeys, ht]

/-- What fixing the static positional arguments adds to a key. -/
theorem fixArgnums_key? (st : Statics) {rest : List Value} (hr : r.key? = some k)
    (h : r.fixArgnums st.argnums c.args true = .ok (r', rest)) :
    ∃ boxes : List Boxed, boxes.map Boxed.value = (st.static c).args ∧
      r'.key? = some ⟨k.inner, k.transforms ++
        if st.argnums = [] then [] else [.positions (st.dynamicPositions c) boxes]⟩ := by
  rcases fixArgnums_ok h with ⟨hnil, rfl, -⟩ | ⟨ps, boxes, hne, hps, hb, rfl, -⟩
  · exact ⟨[], (Statics.static_args_nil hnil c).symm, by simpa [hnil] using hr⟩
  · refine ⟨boxes, hb.trans (Statics.pick_ascending hps), ?_⟩
    rw [if_neg hne, ← Statics.otherPositions_eq_dynamicPositions hps]
    refine key?_push hr ?_
    rw [Transform.key?, FixedArg.mapM_boxed?_eq_some_iff.mpr rfl]
    rfl

/-- What fixing the static keyword arguments adds to a key. -/
theorem fixArgnames_key? (st : Statics) {kept : Kwargs} (hr : r.key? = some k)
    (h : r.fixArgnames st.argnames c.kwargs = .ok (r', kept)) :
    ∃ named : List (String × Boxed),
      named.map (fun e => (e.1, e.2.value)) = (st.static c).kwargs.entries ∧
      r'.key? = some ⟨k.inner, k.transforms ++
        if st.argnames = [] then [] else [.names named]⟩ := by
  rcases fixArgnames_ok h with ⟨hnil, rfl, -⟩ | ⟨named, hne, hb, rfl, -⟩
  · exact ⟨[], (Statics.static_kwargs_nil hnil c).symm, by simpa [hnil] using hr⟩
  · refine ⟨named, hb, ?_⟩
    rw [if_neg hne]
    exact key?_push hr rfl

end Reduced

/-- The key of an occasion with its static arguments in boxes. -/
def Staged.keyOf (s : Staged) (x : Occasion) (boxes : List Boxed) (named : List (String × Boxed)) :
    EntryKey where
  function := {
    inner := s.callable.ticket
    transforms :=
      (if s.statics.argnums = [] then []
        else [.positions (s.statics.dynamicPositions x.call) boxes]) ++
      if s.statics.argnames = [] then [] else [.names named] }
  args := Value.abstractAll x.cells (s.statics.dynamic x.call).args
  kwargs := Value.abstractEntries x.cells (s.statics.dynamic x.call).kwargs.entries

theorem Staged.split_key? {s : Staged} {c : Call} {split : SplitCall} (hs : s.split c = .ok split) :
    ∃ boxes : List Boxed, ∃ named : List (String × Boxed),
      boxes.map Boxed.value = (s.statics.static c).args ∧
      named.map (fun e => (e.1, e.2.value)) = (s.statics.static c).kwargs.entries ∧
      ∀ cells, split.key? cells = some (s.keyOf ⟨cells, c⟩ boxes named) := by
  obtain ⟨r, hnums, hnames⟩ := split_ok hs
  have hnew : (Reduced.of s.callable).key? = some ⟨s.callable.ticket, []⟩ := rfl
  obtain ⟨boxes, hboxes, hr⟩ := Reduced.fixArgnums_key? s.statics hnew hnums
  obtain ⟨named, hnamed, hr'⟩ := Reduced.fixArgnames_key? s.statics (c := c) hr hnames
  refine ⟨boxes, named, hboxes, hnamed, fun cells => ?_⟩
  rw [SplitCall.key?, hr', split_dynamic hs]
  rfl

/-- Every call that can be split has a key. -/
theorem Staged.exists_key {s : Staged} {c : Call} {split : SplitCall} (hs : s.split c = .ok split)
    (cells : Cells) : ∃ key, split.key? cells = some key := by
  obtain ⟨boxes, named, -, -, hkey⟩ := split_key? hs
  exact ⟨_, hkey cells⟩

theorem Staged.hashable_of_split {s : Staged} {c : Call} {split : SplitCall}
    (hs : s.split c = .ok split) : s.statics.Hashable c := by
  obtain ⟨boxes, named, hboxes, hnamed, -⟩ := split_key? hs
  refine Statics.forall_staticValues.mpr ⟨?_, ?_⟩
  · rw [← hboxes, List.forall_mem_map]
    exact fun b _ => b.hashable
  · rw [Kwargs.values, ← hnamed, List.map_map, List.forall_mem_map]
    exact fun e _ => e.2.hashable

theorem boxStatic_of_hashable {v : Value} (h : v.isHashable = true) (place : ArgPlace)
    (function : String) : boxStatic v place function = .ok ⟨v, h⟩ := by
  simp [boxStatic, Boxed.of?, h]

namespace Reduced

theorem fixArgnums_of_hashable (r : Reduced) (st : Statics) {c : Call} {ps : List Nat}
    (hps : ensureInBounds true c.args.length st.argnums = .ok ps)
    (hv : ∀ v ∈ (st.static c).args, v.isHashable = true) :
    ∃ out, r.fixArgnums st.argnums c.args true = .ok out := by
  have hboxes : ∃ fixed, boxAt r.name c.args (ascending ps) = .ok fixed := by
    refine exists_mapM_ok fun e he => ?_
    obtain ⟨i, hi, hpair⟩ := List.mem_filterMap.mp he
    obtain ⟨v, hvi, rfl⟩ := Option.map_eq_some_iff.mp hpair
    have hmem : v ∈ pick c.args (ascending ps) := List.mem_filterMap.mpr ⟨i, hi, hvi⟩
    rw [Statics.pick_ascending hps] at hmem
    exact ⟨_, map_ok.mpr ⟨_, boxStatic_of_hashable (hv v hmem) _ _, rfl⟩⟩
  obtain ⟨fixed, hfixed⟩ := hboxes
  unfold fixArgnums
  split
  · exact ⟨_, rfl⟩
  · exact ⟨_, bind_ok.mpr ⟨_, hps, bind_ok.mpr ⟨_, hfixed, rfl⟩⟩⟩

theorem fixArgnames_of_hashable (r : Reduced) (st : Statics) {c : Call}
    (hv : ∀ v ∈ (st.static c).kwargs.values, v.isHashable = true) :
    ∃ out, r.fixArgnames st.argnames c.kwargs = .ok out := by
  have hboxes : ∃ fixed, ((c.kwargs.filter (st.argnames.contains ·.1)).entries.mapM fun e =>
      (boxStatic e.2 (.name e.1) r.name).map (e.1, ·)) = .ok fixed := by
    refine exists_mapM_ok fun e he => ?_
    have hmem : e.2 ∈ (st.static c).kwargs.values := List.mem_map.mpr ⟨e, he, rfl⟩
    exact ⟨_, map_ok.mpr ⟨_, boxStatic_of_hashable (hv _ hmem) _ _, rfl⟩⟩
  obtain ⟨fixed, hfixed⟩ := hboxes
  unfold fixArgnames
  split
  · exact ⟨_, rfl⟩
  · exact ⟨_, bind_ok.mpr ⟨_, hfixed, rfl⟩⟩

end Reduced

/-- Where one call of a class can be split, every other can. -/
theorem Staged.split_of_sameClass {s : Staged} {x y : Occasion} {split : SplitCall}
    (hs : s.split x.call = .ok split) (h : s.statics.SameClass x y) :
    ∃ split', s.split y.call = .ok split' := by
  obtain ⟨r, hnums, -⟩ := split_ok hs
  obtain ⟨ps, hps⟩ := Reduced.fixArgnums_inBounds hnums
  have hlen : x.call.args.length = y.call.args.length :=
    Statics.length_args_eq h.static_args.length_eq
      (by simpa using congrArg List.length h.dynamic_args)
  obtain ⟨hargs, hkwargs⟩ := Statics.forall_staticValues.mp (h.hashable (hashable_of_split hs))
  obtain ⟨⟨r', args⟩, hnums'⟩ :=
    (Reduced.of s.callable).fixArgnums_of_hashable s.statics (hlen ▸ hps) hargs
  obtain ⟨⟨r'', kwargs⟩, hnames'⟩ := r'.fixArgnames_of_hashable s.statics hkwargs
  exact ⟨⟨r'', ⟨args, kwargs⟩⟩, bind_ok.mpr ⟨_, hnums', bind_ok.mpr ⟨_, hnames', rfl⟩⟩⟩

theorem Boxed.isEqv_iff {as bs : List Boxed} : as.isEqv bs Boxed.equal = true ↔
    List.Forall₂ Value.Matches (as.map Boxed.value) (bs.map Boxed.value) := by
  rw [isEqv_iff_forall₂, List.forall₂_map_left_iff, List.forall₂_map_right_iff]
  simp only [equal_iff_matches]

namespace Entries

variable {α β : Type}

theorem forall₂_iff {R : α → β → Prop} {es : List (String × α)} {fs : List (String × β)} :
    List.Forall₂ (fun e f => e.1 = f.1 ∧ R e.2 f.2) es fs ↔
      es.map Prod.fst = fs.map Prod.fst ∧ List.Forall₂ R (es.map Prod.snd) (fs.map Prod.snd) := by
  induction es generalizing fs with
  | nil => cases fs <;> simp
  | cons e es ih =>
    cases fs with
    | nil => simp
    | cons f fs =>
      rw [List.forall₂_cons, ih]
      simp only [List.map_cons, List.cons.injEq, List.forall₂_cons]
      exact and_and_and_comm

theorem map_eq_map_iff {γ : Type} {g : α → γ} {g' : β → γ} {es : List (String × α)}
    {fs : List (String × β)} : (es.map fun (k, x) => (k, g x)) = (fs.map fun (k, x) => (k, g' x)) ↔
      es.map Prod.fst = fs.map Prod.fst ∧
        (es.map Prod.snd).map g = (fs.map Prod.snd).map g' := by
  induction es generalizing fs with
  | nil => cases fs <;> simp
  | cons e es ih =>
    cases fs with
    | nil => simp
    | cons f fs =>
      simp only [List.map_cons, List.cons.injEq, ih, Prod.mk.injEq]
      exact and_and_and_comm

end Entries

namespace Staged

variable {s : Staged} {x y : Occasion} {boxes boxes' : List Boxed}
  {named named' : List (String × Boxed)}

/-- What makes the transforms in two keys the same. -/
theorem transforms_same_iff :
    (s.keyOf x boxes named).function.same (s.keyOf y boxes' named').function = true ↔
      (s.statics.argnums ≠ [] →
      s.statics.dynamicPositions x.call = s.statics.dynamicPositions y.call ∧
        boxes.isEqv boxes' Boxed.equal = true) ∧
      (s.statics.argnames ≠ [] →
        named.isEqv named' (fun (k, a) (l, b) => k == l && a.equal b) = true) := by
  by_cases hnums : s.statics.argnums = [] <;> by_cases hnames : s.statics.argnames = [] <;>
    simp [keyOf, ReducedKey.same, hnums, hnames, List.isEqv, TransformKey.same, and_assoc]

/-- Keys are the same exactly if what they are for is of one class. -/
theorem keyOf_same_iff (hx : boxes.map Boxed.value = (s.statics.static x.call).args)
    (hy : boxes'.map Boxed.value = (s.statics.static y.call).args)
    (hnx : named.map (fun e => (e.1, e.2.value)) = (s.statics.static x.call).kwargs.entries)
    (hny : named'.map (fun e => (e.1, e.2.value)) = (s.statics.static y.call).kwargs.entries) :
    (s.keyOf x boxes named).same (s.keyOf y boxes' named') = true ↔ s.statics.SameClass x y := by
  have hnamed : named.isEqv named' (fun (k, a) (l, b) => k == l && a.equal b) = true ↔
      (s.statics.static x.call).kwargs.keys = (s.statics.static y.call).kwargs.keys ∧
        List.Forall₂ Value.Matches (s.statics.static x.call).kwargs.values
          (s.statics.static y.call).kwargs.values := by
    rw [Kwargs.keys, Kwargs.keys, Kwargs.values, Kwargs.values, ← Entries.forall₂_iff, ← hnx, ← hny,
      List.forall₂_map_left_iff, List.forall₂_map_right_iff, isEqv_iff_forall₂]
    simp only [Bool.and_eq_true, beq_iff_eq, Boxed.equal_iff_matches]
  have hdynamic : Value.abstractEntries x.cells (s.statics.dynamic x.call).kwargs.entries =
        Value.abstractEntries y.cells (s.statics.dynamic y.call).kwargs.entries ↔
      (s.statics.dynamic x.call).kwargs.keys = (s.statics.dynamic y.call).kwargs.keys ∧
        (s.statics.dynamic x.call).kwargs.values.map (Value.abstract x.cells) =
          (s.statics.dynamic y.call).kwargs.values.map (Value.abstract y.cells) := by
    rw [Value.abstractEntries_eq_map, Value.abstractEntries_eq_map, Entries.map_eq_map_iff]
    rfl
  simp only [EntryKey.same, Bool.and_eq_true, beq_iff_eq, transforms_same_iff, Boxed.isEqv_iff,
    hx, hy, hnamed]
  rw [keyOf, keyOf, hdynamic, Value.abstractAll_eq_map, Value.abstractAll_eq_map]
  constructor
  · rintro ⟨⟨⟨hnums, hnames⟩, hargs⟩, hkeys, hkwargs⟩
    -- without static positions or names there is no transform to compare, and nothing is static
    have hstatic : List.Forall₂ Value.Matches (s.statics.static x.call).args
        (s.statics.static y.call).args := by
      by_cases hnil : s.statics.argnums = []
      · rw [Statics.static_args_nil hnil, Statics.static_args_nil hnil]
        exact .nil
      · exact (hnums hnil).2
    have hnamed : (s.statics.static x.call).kwargs.keys = (s.statics.static y.call).kwargs.keys ∧
        List.Forall₂ Value.Matches (s.statics.static x.call).kwargs.values
          (s.statics.static y.call).kwargs.values := by
      by_cases hnil : s.statics.argnames = []
      · simp [Kwargs.keys, Kwargs.values, Statics.static_kwargs_nil hnil]
      · exact hnames hnil
    have hlen := Statics.length_args_eq hstatic.length_eq
      (by simpa using congrArg List.length hargs)
    exact ⟨Statics.staticPositions_congr hlen, Statics.dynamicPositions_congr hlen, hnamed.1, hkeys,
      hstatic, hnamed.2, hargs, hkwargs⟩
  · intro h
    exact ⟨⟨⟨fun _ => ⟨h.dynamic_positions, h.static_args⟩,
      fun _ => ⟨h.static_names, h.static_kwargs⟩⟩, h.dynamic_args⟩, h.dynamic_names,
      h.dynamic_kwargs⟩

/-- Occasions of calls that can be split have the same key exactly if they are of one class. -/
theorem key?_same_iff {splitx splity : SplitCall} {keyx keyy : EntryKey}
    (hx : s.split x.call = .ok splitx) (hy : s.split y.call = .ok splity)
    (hkx : splitx.key? x.cells = some keyx) (hky : splity.key? y.cells = some keyy) :
    keyx.same keyy = true ↔ s.statics.SameClass x y := by
  obtain ⟨boxes, named, hboxes, hnamed, hkey⟩ := split_key? hx
  obtain ⟨boxes', named', hboxes', hnamed', hkey'⟩ := split_key? hy
  obtain rfl : s.keyOf x boxes named = keyx := Option.some.inj ((hkey x.cells).symm.trans hkx)
  obtain rfl : s.keyOf y boxes' named' = keyy := Option.some.inj ((hkey' y.cells).symm.trans hky)
  exact keyOf_same_iff hboxes hboxes' hnamed hnamed'

end Staged

end Staging
