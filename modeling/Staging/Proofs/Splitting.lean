import Staging.Proofs.Keywords
import Staging.Proofs.Results
import Staging.Proofs.Slots
import Staging.Provenance.Naming
import Staging.Staged.Entry

namespace Staging

open Results

theorem boxStatic_value {v : Value} {place : ArgPlace} {function : String} {b : Boxed}
    (h : boxStatic v place function = .ok b) : b.value = v := by
  unfold boxStatic Boxed.of? at h
  split at h
  · rename_i hb
    split at hb
    · cases hb; cases h; rfl
    · cases hb
  · cases h

theorem boxAt_ok {function : String} {args : List Value} {ps : List Nat} {fixed : List FixedArg}
    (h : boxAt function args ps = .ok fixed) :
    ∃ boxes : List Boxed, fixed = boxes.map .boxed ∧ boxes.map Boxed.value = pick args ps := by
  have hvals : (ps.filterMap fun i => args[i]?.map (i, ·)).map Prod.snd = pick args ps := by
    simp [List.map_filterMap, Option.map_map, Function.comp_def, pick]
  rw [← hvals]
  have hf := mapM_ok.mp h
  clear h hvals
  generalize (ps.filterMap fun i => args[i]?.map (i, ·)) = placed at hf
  induction hf with
  | nil => exact ⟨[], rfl, rfl⟩
  | cons hx _ ih =>
    obtain ⟨boxes, rfl, hb⟩ := ih
    obtain ⟨b, hbox, rfl⟩ := map_ok.mp hx
    exact ⟨b :: boxes, rfl, by simp [hb, boxStatic_value hbox]⟩

/-- What was fixed at ascending positions is at the positions that are not dynamic. -/
theorem map_boxed_value {args : List Value} {ps : List Nat} {boxes : List Boxed}
    (ho : ps.Pairwise (· < ·)) (hb : ∀ i ∈ ps, i < args.length)
    (h : boxes.map Boxed.value = pick args ps) :
    (boxes.map FixedArg.boxed).map FixedArg.value =
      pick args (otherPositions args (otherPositions args ps)) := by
  rw [otherPositions_otherPositions ho hb, ← h, List.map_map]
  rfl

namespace Reduced

variable {r r' : Reduced} {args rest : List Value}

theorem keepArgnums_ok {dynamic : List Int} {boxed : Bool}
    (h : r.keepArgnums dynamic args boxed = .ok (r', rest)) :
    ∃ ps fixed, ensureInBounds false args.length dynamic = .ok ps ∧
      fixed.map FixedArg.value = pick args (otherPositions args ps.eraseDups) ∧
      r' = r.push (.positions ps.eraseDups fixed) ∧ rest = pick args ps.eraseDups := by
  unfold keepArgnums at h
  rw [bind_ok] at h
  obtain ⟨ps, hps, h⟩ := h
  split at h
  · simp only [bind_ok, pure_ok, Prod.mk.injEq] at h
    obtain ⟨fixed, hfixed, rfl, rfl⟩ := h
    obtain ⟨boxes, rfl, hb⟩ := boxAt_ok hfixed
    refine ⟨ps, _, hps, ?_, rfl, rfl⟩
    rw [List.map_map, ← hb]
    rfl
  · simp only [bind_ok, pure_ok, Prod.mk.injEq] at h
    obtain ⟨fixed, rfl, rfl, rfl⟩ := h
    refine ⟨ps, _, hps, ?_, rfl, rfl⟩
    rw [List.map_map]
    exact List.map_id _

theorem fixArgnums_ok {static : List Int} {dropPastEnd : Bool}
    (h : r.fixArgnums static args dropPastEnd = .ok (r', rest)) :
    (static = [] ∧ r' = r ∧ rest = args) ∨
    ∃ ps, ∃ boxes : List Boxed, static ≠ [] ∧ ensureInBounds dropPastEnd args.length static = .ok ps ∧
      boxes.map Boxed.value = pick args (ascending ps) ∧
      r' = r.push (.positions (otherPositions args (ascending ps)) (boxes.map .boxed)) ∧
      rest = pick args (otherPositions args (ascending ps)) := by
  unfold fixArgnums at h
  split at h
  · rename_i he
    simp only [pure_ok, Prod.mk.injEq] at h
    exact .inl ⟨List.isEmpty_iff.mp he, h.1.symm, h.2.symm⟩
  · rename_i he
    simp only [bind_ok, pure_ok, Prod.mk.injEq] at h
    obtain ⟨ps, hps, fixed, hfixed, rfl, rfl⟩ := h
    obtain ⟨boxes, rfl, hb⟩ := boxAt_ok hfixed
    exact .inr ⟨ps, boxes, fun hn => he (List.isEmpty_iff.mpr hn), hps, hb, rfl, rfl⟩

theorem fixArgnames_ok {static : List String} {kwargs kept : Kwargs}
    (h : r.fixArgnames static kwargs = .ok (r', kept)) :
    (static = [] ∧ r' = r ∧ kept = kwargs) ∨
    ∃ boxes : List (String × Boxed), static ≠ [] ∧
      boxes.map (fun e => (e.1, e.2.value)) = (kwargs.filter (static.contains ·.1)).entries ∧
      r' = r.push (.names boxes) ∧ kept = kwargs.filter (!static.contains ·.1) := by
  unfold fixArgnames at h
  split at h
  · rename_i he
    simp only [pure_ok, Prod.mk.injEq] at h
    exact .inl ⟨List.isEmpty_iff.mp he, h.1.symm, h.2.symm⟩
  · rename_i he
    simp only [bind_ok, pure_ok, Prod.mk.injEq] at h
    obtain ⟨boxes, hboxes, rfl, rfl⟩ := h
    refine .inr ⟨boxes, fun hn => he (List.isEmpty_iff.mpr hn), ?_, rfl, rfl⟩
    have hf := mapM_ok.mp hboxes
    clear hboxes
    generalize (kwargs.filter (static.contains ·.1)).entries = named at hf
    induction hf with
    | nil => rfl
    | cons hx _ ih =>
      obtain ⟨b, hb, rfl⟩ := map_ok.mp hx
      simp [ih, boxStatic_value hb]

end Reduced

theorem Callable.expand_cons (t : Transform) (ts : List Transform) (c : Call) :
    expand (t :: ts) c = expand ts c >>= t.apply := by
  rw [expand, List.foldrM_cons]
  rfl

/-- A call meets the transform put on last first. -/
theorem Reduced.expand_push (r : Reduced) (t : Transform) (c : Call) :
    Callable.expand (r.push t).transforms c = t.apply c >>= Callable.expand r.transforms := by
  simp only [Callable.expand, push, List.foldrM_append, List.foldrM_cons, List.foldrM_nil,
    pure_bind]
  rfl

/-- The call without its static arguments. -/
def Statics.dynamic (s : Statics) (c : Call) : Call where
  args := dynamicArgs s.argnums c.args
  kwargs := c.kwargs.filter (!s.argnames.contains ·.1)

theorem Reduced.fixArgnums_dynamic {r r' : Reduced} {static : List Int} {args rest : List Value}
    {dropPastEnd : Bool} (h : r.fixArgnums static args dropPastEnd = .ok (r', rest)) :
    rest = dynamicArgs static args := by
  rcases fixArgnums_ok h with ⟨rfl, -, rfl⟩ | ⟨ps, -, -, hps, -, -, rfl⟩
  · exact (dynamicArgs_nil rest).symm
  · exact pick_otherPositions_ascending hps

theorem Reduced.fixArgnames_dynamic {r r' : Reduced} {static : List String} {kwargs kept : Kwargs}
    (h : r.fixArgnames static kwargs = .ok (r', kept)) :
    kept = kwargs.filter (!static.contains ·.1) := by
  rcases fixArgnames_ok h with ⟨rfl, -, rfl⟩ | ⟨-, -, -, -, rfl⟩
  · exact Kwargs.eq_of_entries (by simp [Kwargs.filter])
  · rfl

namespace Transform

/-- The fixed arguments make up for the dynamic positions. -/
theorem length_positions {args : List Value} {dynamic : List Nat} {fixed : List FixedArg}
    (hn : dynamic.Nodup) (hb : ∀ i ∈ dynamic, i < args.length)
    (hf : fixed.map FixedArg.value = pick args (otherPositions args dynamic)) :
    dynamic.length + fixed.length = args.length := by
  have hfixed : fixed.length = (otherPositions args dynamic).length := by
    rw [← List.length_map FixedArg.value, hf, pick_otherPositions, List.length_map]
  rw [hfixed, length_otherPositions hn hb]

/-- Arguments given for the dynamic positions join the fixed ones, which stay where they were. -/
theorem apply_positions_substitute {args xs : List Value} {kwargs : Kwargs} {dynamic : List Nat}
    {fixed : List FixedArg} (hn : dynamic.Nodup) (hb : ∀ i ∈ dynamic, i < args.length)
    (hf : fixed.map FixedArg.value = pick args (otherPositions args dynamic))
    (hx : xs.length = dynamic.length) :
    (positions dynamic fixed).apply ⟨xs, kwargs⟩ =
      .ok ⟨substitute args dynamic xs, kwargs⟩ := by
  simp only [apply, hx, ne_eq, not_true_eq_false, ↓reduceIte, length_positions hn hb hf, hf,
    fillSlots_slotsFor args xs hx]

/-- Arguments split by position are handed on whole. -/
theorem apply_positions {args : List Value} {kwargs : Kwargs} {dynamic : List Nat}
    {fixed : List FixedArg} (hn : dynamic.Nodup) (hb : ∀ i ∈ dynamic, i < args.length)
    (hf : fixed.map FixedArg.value = pick args (otherPositions args dynamic)) :
    (positions dynamic fixed).apply ⟨pick args dynamic, kwargs⟩ = .ok ⟨args, kwargs⟩ := by
  rw [apply_positions_substitute hn hb hf (by simp [pick_eq_map hb]), substitute_pick hb]

/-- Keyword arguments with fixed ones added where the call has none. -/
def adopt (fixed : List (String × Boxed)) (kwargs : Kwargs) : Kwargs :=
  fixed.foldl (fun kw (k, b) => if kw.contains k then kw else kw.put k b.value) kwargs

theorem apply_names_adopt (fixed : List (String × Boxed)) (args : List Value) (kwargs : Kwargs) :
    (names fixed).apply ⟨args, kwargs⟩ = .ok ⟨args, adopt fixed kwargs⟩ := rfl

/-- What the names hold once fixed arguments are added: those of the call come first. -/
theorem get?_adopt (fixed : List (String × Boxed)) (kwargs : Kwargs) (k : String) :
    (adopt fixed kwargs).get? k =
      (kwargs.get? k).or ((fixed.map fun e => (e.1, e.2.value)).lookup k) := by
  induction fixed generalizing kwargs with
  | nil => simp [adopt]
  | cons e fixed ih =>
    obtain ⟨l, b⟩ := e
    rw [adopt, List.foldl_cons, ← adopt, ih]
    simp only [List.map_cons, Entries.lookup_cons_if, Kwargs.contains_eq]
    by_cases hk : k = l
    · subst hk
      cases h : kwargs.get? k <;> simp [h]
    · cases h : kwargs.get? l <;> simp [hk]

/-- Whatever was fixed under the static names, all others hold what the call has for them. -/
theorem get?_adopt_split {static : List String} {kwargs others : Kwargs}
    {fixed : List (String × Boxed)} (hf : fixed.map (fun e => (e.1, e.2.value)) =
      (others.filter (static.contains ·.1)).entries) (k : String) :
    (adopt fixed (kwargs.filter (!static.contains ·.1))).get? k =
      if k ∈ static then others.get? k else kwargs.get? k := by
  have hfixed := others.get?_filter static.contains k
  have hkept := kwargs.get?_filter (fun l => !static.contains l) k
  rw [get?_adopt, hf]
  rw [Kwargs.get?] at hfixed
  rw [hkept, hfixed]
  by_cases hk : k ∈ static <;> simp [hk]

/-- Keyword arguments split by name are handed on whole. -/
theorem apply_names {args : List Value} {kwargs : Kwargs} {static : List String}
    {fixed : List (String × Boxed)} (hf : fixed.map (fun e => (e.1, e.2.value)) =
      (kwargs.filter (static.contains ·.1)).entries) :
    (names fixed).apply ⟨args, kwargs.filter (!static.contains ·.1)⟩ = .ok ⟨args, kwargs⟩ := by
  have hsame : adopt fixed (kwargs.filter (!static.contains ·.1)) = kwargs := by
    apply Kwargs.ext_get?
    intro k
    rw [get?_adopt_split hf, ite_self]
  rw [apply_names_adopt, hsame]

end Transform

/-- Returns both kinds of arguments it is given. -/
def Function.echo (ticket : Nat) : Function where
  ticket := ticket
  name := "echo"
  signature := none
  location := none
  body cells _ c := (.ok (.tuple [.tuple c.args, .dict c.kwargs.entries]), cells)

/-- Nothing has run, and every cell holds the same scalar. -/
def World.blank : World := ⟨⟨fun _ => .scalar .nan⟩, []⟩

/-- One way of taking arguments off a call. -/
inductive SplitStep where
  /-- All arguments but those at the indices. -/
  | keep (dynamic : List Int) (boxed : Bool)
  /-- The arguments at the indices. -/
  | fix (static : List Int) (dropPastEnd : Bool)
  /-- The keyword arguments of the names. -/
  | fixNames (static : List String)
  /-- So many arguments from the front. -/
  | front (count : Nat)

namespace SplitStep

/-- The function with the arguments taken off, and the arguments left. -/
def take (s : SplitCall) : SplitStep → Except Error SplitCall
  | .keep dynamic boxed =>
    (s.function.keepArgnums dynamic s.dynamic.args boxed).map fun (r, args) =>
      ⟨r, { s.dynamic with args }⟩
  | .fix static dropPastEnd =>
    (s.function.fixArgnums static s.dynamic.args dropPastEnd).map fun (r, args) =>
      ⟨r, { s.dynamic with args }⟩
  | .fixNames static =>
    (s.function.fixArgnames static s.dynamic.kwargs).map fun (r, kwargs) =>
      ⟨r, { s.dynamic with kwargs }⟩
  | .front count =>
    .ok ⟨s.function.prepend (s.dynamic.args.take count),
      { s.dynamic with args := s.dynamic.args.drop count }⟩

/-- Each step is taken on what the one before it left. -/
def takeAll (steps : List SplitStep) (s : SplitCall) : Except Error SplitCall :=
  steps.foldlM take s

end SplitStep

namespace SplitCall

/-- The call that the function beneath all transforms is given. -/
def expand (s : SplitCall) : Except CallError Call :=
  Callable.expand s.function.transforms s.dynamic

/-- Two split calls are of one function and give it the same arguments. -/
structure Equivalent (s t : SplitCall) : Prop where
  inner : t.function.inner = s.function.inner
  expand : t.expand = s.expand

namespace Equivalent

variable {s t u : SplitCall}

theorem refl (s : SplitCall) : Equivalent s s := ⟨rfl, rfl⟩

theorem trans (h : Equivalent s t) (h' : Equivalent t u) : Equivalent s u :=
  ⟨h'.inner.trans h.inner, h'.expand.trans h.expand⟩

/-- A transform put on for the call that it hands on. -/
theorem push {r : Reduced} {tr : Transform} {c d : Call} (h : tr.apply d = .ok c) :
    Equivalent ⟨r, c⟩ ⟨r.push tr, d⟩ := by
  refine ⟨rfl, ?_⟩
  rw [SplitCall.expand, Reduced.expand_push, h]
  rfl

theorem call (h : Equivalent s t) (w : World) :
    t.function.call w t.dynamic = s.function.call w s.dynamic := by
  have he := h.expand
  simp only [SplitCall.expand] at he
  simp only [Reduced.call, he, h.inner]

end Equivalent

end SplitCall

open SplitCall (Equivalent)

namespace Reduced

variable {r r' : Reduced} {args rest : List Value} {kwargs kept : Kwargs}

theorem keepArgnums_equivalent {dynamic : List Int} {boxed : Bool} (kwargs : Kwargs)
    (h : r.keepArgnums dynamic args boxed = .ok (r', rest)) :
    Equivalent ⟨r, args, kwargs⟩ ⟨r', rest, kwargs⟩ := by
  obtain ⟨ps, fixed, hps, hf, rfl, rfl⟩ := keepArgnums_ok h
  refine .push (Transform.apply_positions (nodup_eraseDups ps) ?_ hf)
  intro i hi
  exact ((mem_ensureInBounds hps).mp (List.mem_eraseDups.mp hi)).1

theorem fixArgnums_equivalent {static : List Int} {dropPastEnd : Bool} (kwargs : Kwargs)
    (h : r.fixArgnums static args dropPastEnd = .ok (r', rest)) :
    Equivalent ⟨r, args, kwargs⟩ ⟨r', rest, kwargs⟩ := by
  rcases fixArgnums_ok h with ⟨-, rfl, rfl⟩ | ⟨ps, boxes, -, hps, hb, rfl, rfl⟩
  · exact .refl _
  · have hfixed := map_boxed_value (ascending_pairwise ps) (lt_of_mem_ascending hps) hb
    exact .push (Transform.apply_positions (otherPositions_nodup _ _)
      (lt_of_mem_otherPositions _ _) hfixed)

theorem fixArgnames_equivalent {static : List String} (args : List Value)
    (h : r.fixArgnames static kwargs = .ok (r', kept)) :
    Equivalent ⟨r, args, kwargs⟩ ⟨r', args, kept⟩ := by
  rcases fixArgnames_ok h with ⟨-, rfl, rfl⟩ | ⟨boxes, -, hb, rfl, rfl⟩
  · exact .refl _
  · exact .push (Transform.apply_names hb)

theorem prepend_equivalent (r : Reduced) (args : List Value) (kwargs : Kwargs) (count : Nat) :
    Equivalent ⟨r, args, kwargs⟩ ⟨r.prepend (args.take count), args.drop count, kwargs⟩ :=
  .push (by simp [Transform.apply])

end Reduced

namespace SplitStep

theorem take_equivalent {step : SplitStep} {s t : SplitCall} (h : step.take s = .ok t) :
    Equivalent s t := by
  cases step with
  | keep dynamic boxed =>
    obtain ⟨⟨r, rest⟩, hk, rfl⟩ := map_ok.mp h
    exact Reduced.keepArgnums_equivalent _ hk
  | fix static dropPastEnd =>
    obtain ⟨⟨r, rest⟩, hf, rfl⟩ := map_ok.mp h
    exact Reduced.fixArgnums_equivalent _ hf
  | fixNames static =>
    obtain ⟨⟨r, kept⟩, hf, rfl⟩ := map_ok.mp h
    exact Reduced.fixArgnames_equivalent _ hf
  | front count =>
    cases h
    exact Reduced.prepend_equivalent ..

/-- What one step keeps, a run of steps keeps. -/
theorem takeAll_equivalent {steps : List SplitStep} {s t : SplitCall}
    (h : takeAll steps s = .ok t) : Equivalent s t := by
  induction steps generalizing s with
  | nil => cases h; exact .refl _
  | cons step steps ih =>
    unfold takeAll at h
    rw [List.foldlM_cons, bind_ok] at h
    obtain ⟨u, hu, ht⟩ := h
    exact (take_equivalent hu).trans (ih ht)

/-- Splitting arguments off loses nothing: the function left at the end, called with the
arguments left at the end, runs and returns as the first function does with all of them. -/
theorem call_takeAll (r : Reduced) (c : Call) (steps : List SplitStep) (t : SplitCall)
    (h : takeAll steps ⟨r, c⟩ = .ok t) (w : World) :
    t.function.call w t.dynamic = r.call w c :=
  (takeAll_equivalent h).call w

/-- All four ways in turn: an index past the end is dropped, what stays is reordered and the
last list cannot be boxed. -/
theorem call_takeAll_each_way :
    let c : Call := ⟨[.bool true, .int 3, .str "a", .list [.absent]],
      .ofList [("x", .absent), ("mode", .str "fast")]⟩
    ∃ t, takeAll [.fix [1, 7] true, .keep [-1, 0] true, .fixNames ["mode"], .front 1]
        ⟨.of (.function (.echo 0)), c⟩ = .ok t ∧
      t.function.call .blank t.dynamic = (Reduced.of (.function (.echo 0))).call .blank c ∧
      t.function.call .blank t.dynamic =
        (.ok (.tuple [.tuple [.bool true, .int 3, .str "a", .list [.absent]],
          .dict [("mode", .str "fast"), ("x", .absent)]]), ⟨World.blank.cells, [⟨0, c⟩]⟩) := by
  intro c
  obtain ⟨t, ht⟩ := exists_ok (x := takeAll [.fix [1, 7] true, .keep [-1, 0] true,
    .fixNames ["mode"], .front 1] ⟨.of (.function (.echo 0)), c⟩) rfl
  have hcall := call_takeAll _ _ _ _ ht .blank
  exact ⟨t, ht, hcall, hcall.trans rfl⟩

end SplitStep

end Staging
