import Staging.Proofs.Splitting

namespace Staging

open Results

/-- Each argument given takes the place it is given for. -/
def replaceAt (args : List Value) (positions : List Nat) (xs : List Value) : List Value :=
  (positions.zip xs).foldl (fun as e => as.set e.1 e.2) args

/-- Where no place is written twice, each holds what is written there. -/
theorem getElem?_foldl_set {es : List (Nat × Value)} (h : (es.map Prod.fst).Nodup)
    (args : List Value) (i : Nat) :
    (es.foldl (fun as e => as.set e.1 e.2) args)[i]? =
      args[i]?.map fun v => (es.lookup i).getD v := by
  induction es generalizing args with
  | nil => simp
  | cons e es ih =>
    obtain ⟨p, x⟩ := e
    obtain ⟨hp, hes⟩ := List.nodup_cons.mp h
    rw [List.foldl_cons, ih hes]
    by_cases hi : i = p
    · subst hi
      have hnone : es.lookup i = none := by
        rw [List.lookup_eq_none_iff]
        intro e he
        have hne : i ≠ e.1 := fun hie => hp (hie ▸ List.mem_map.mpr ⟨e, he, rfl⟩)
        simpa using hne
      rw [List.getElem?_set_self', hnone, List.lookup_cons_self]
      cases args[i]? <;> rfl
    · have hb : (i == p) = false := beq_eq_false_iff_ne.mpr hi
      rw [List.getElem?_set_ne (Ne.symm hi), List.lookup_cons, hb]

theorem substitute_eq_replaceAt {positions : List Nat} {xs : List Value} (hn : positions.Nodup)
    (hx : xs.length = positions.length) (args : List Value) :
    substitute args positions xs = replaceAt args positions xs := by
  have hkeys : (positions.zip xs).map Prod.fst = positions :=
    List.map_fst_zip (Nat.le_of_eq hx.symm)
  apply List.ext_getElem?
  intro i
  rw [replaceAt, getElem?_foldl_set (by rwa [hkeys])]
  by_cases hi : i < args.length
  · simp [substitute, hi, argAt, List.getD_eq_getElem?_getD]
  · simp [substitute, hi]

/-- The positions that indices stand for, in their order and each once. Negative indices count
from the end. -/
def wrappedPositions (numArgs : Nat) (is : List Int) : List Nat :=
  (is.map fun i : Int => (if i < 0 then i + numArgs else i).toNat).eraseDups

theorem eraseDups_eq_wrappedPositions {n : Nat} {is : List Int} {ps : List Nat}
    (h : ensureInBounds false n is = .ok ps) : ps.eraseDups = wrappedPositions n is := by
  have hps : ps = is.map fun i : Int => (if i < 0 then i + n else i).toNat := by
    have h := mapError_ok.mp h
    induction is generalizing ps with
    | nil =>
      cases h
      rfl
    | cons i is ih =>
      rw [positionsIn, if_neg (by simp)] at h
      split at h
      · rename_i hi
        obtain ⟨qs, hqs, rfl⟩ := map_ok.mp h
        rw [List.map_cons, emod_eq_wrapped hi, ih (mapError_ok.mpr hqs) hqs]
      · cases h
  rw [hps, wrappedPositions]

/-- The indices whose remainders by the number of arguments are taken to find positions, up to the
first index that is no position if there is one. -/
def dividends (count : Int) (dropPastEnd : Bool) : List Int → List Int
  | [] => []
  | i :: is =>
    if dropPastEnd ∧ count ≤ i then dividends count dropPastEnd is
    else if -count ≤ i ∧ i < count then i :: dividends count dropPastEnd is
    else []

theorem positionsIn_eq_dividends {count : Int} {dropPastEnd : Bool} {is : List Int}
    {ps : List Nat} (h : positionsIn count dropPastEnd is = .ok ps) :
    ps = (dividends count dropPastEnd is).map fun i => (i % count).toNat := by
  induction is generalizing ps with
  | nil =>
    cases h
    rfl
  | cons i is ih =>
    rw [positionsIn] at h
    rw [dividends]
    split at h
    · rename_i hpast
      rw [if_pos hpast]
      exact ih h
    · rename_i hpast
      rw [if_neg hpast]
      split at h
      · rename_i hi
        obtain ⟨qs, hqs, rfl⟩ := map_ok.mp h
        rw [if_pos hi, List.map_cons, ih hqs]
      · cases h

/-- Only of indices in bounds are remainders taken, and no index is in bounds if the number is
zero. -/
theorem dividends_bounds {count : Int} {dropPastEnd : Bool} {is : List Int} :
    ∀ i ∈ dividends count dropPastEnd is, 0 < count ∧ -count ≤ i ∧ i < count := by
  induction is with
  | nil => exact fun _ hi => absurd hi List.not_mem_nil
  | cons i is ih =>
    rw [dividends]
    split
    · exact ih
    · split
      · rename_i hi
        exact List.forall_mem_cons.mpr ⟨⟨by omega, hi⟩, ih⟩
      · exact fun _ hi => absurd hi List.not_mem_nil

namespace Transform

/-- Leaves the positions open in a list of arguments and holds all others, as they are there. -/
structure Opens (t : Transform) (args : List Value) (dynamic : List Nat) : Prop where
  distinct : dynamic.Nodup
  bounds : ∀ i ∈ dynamic, i < args.length
  held : ∃ fixed, t = .positions dynamic fixed ∧ dynamic.length + fixed.length = args.length ∧
    fixed.map FixedArg.value = pick args (otherPositions args dynamic)

namespace Opens

variable {t : Transform} {args xs : List Value} {dynamic : List Nat} {kwargs : Kwargs}

theorem of_fixed {fixed : List FixedArg} (hn : dynamic.Nodup) (hb : ∀ i ∈ dynamic, i < args.length)
    (hf : fixed.map FixedArg.value = pick args (otherPositions args dynamic)) :
    Opens (.positions dynamic fixed) args dynamic :=
  ⟨hn, hb, fixed, rfl, length_positions hn hb hf, hf⟩

theorem apply_ok (h : t.Opens args dynamic) (hx : xs.length = dynamic.length) :
    t.apply ⟨xs, kwargs⟩ = .ok ⟨replaceAt args dynamic xs, kwargs⟩ := by
  obtain ⟨fixed, rfl, -, hf⟩ := h.held
  rw [apply_positions_substitute h.distinct h.bounds hf hx,
    substitute_eq_replaceAt h.distinct hx]

theorem apply_refused (h : t.Opens args dynamic) (hx : xs.length ≠ dynamic.length) :
    t.apply ⟨xs, kwargs⟩ = .error (.wrongArity dynamic.length xs.length) := by
  obtain ⟨fixed, rfl, -, -⟩ := h.held
  rw [apply, if_pos hx]

theorem apply_ne (h : t.Opens args dynamic) (c : Call) : t.apply c ≠ .error .staticsExhausted := by
  intro he
  by_cases hx : c.args.length = dynamic.length
  · rw [h.apply_ok hx] at he
    cases he
  · rw [h.apply_refused hx] at he
    cases he

end Opens

/-- As one of the ways of taking arguments off puts it on. -/
inductive Made : Transform → Prop where
  | positions {t : Transform} {args : List Value} {dynamic : List Nat} (h : t.Opens args dynamic) :
    Made t
  | names (fixed : List (String × Boxed)) : Made (.names fixed)
  | front (args : List Value) : Made (.front args)

theorem Made.opens {dynamic : List Nat} {fixed : List FixedArg}
    (h : (Transform.positions dynamic fixed).Made) :
    ∃ args, (Transform.positions dynamic fixed).Opens args dynamic := by
  cases h with
  | @positions _ args _ h =>
    obtain ⟨_, heq, -⟩ := h.held
    obtain ⟨rfl, -⟩ := Transform.positions.inj heq
    exact ⟨args, h⟩

theorem Made.apply_ne {t : Transform} (h : t.Made) (c : Call) :
    t.apply c ≠ .error .staticsExhausted := by
  cases h with
  | positions h => exact h.apply_ne c
  | names | front =>
    intro h
    cases h

end Transform

namespace Reduced

variable {r r' : Reduced} {args rest : List Value}

theorem keepArgnums_opens {dynamic : List Int} {boxed : Bool}
    (h : r.keepArgnums dynamic args boxed = .ok (r', rest)) :
    ∃ t, r' = r.push t ∧ t.Opens args (wrappedPositions args.length dynamic) := by
  obtain ⟨ps, fixed, hps, hf, rfl, -⟩ := keepArgnums_ok h
  rw [← eraseDups_eq_wrappedPositions hps]
  refine ⟨_, rfl, .of_fixed (nodup_eraseDups ps) ?_ hf⟩
  intro i hi
  exact ((mem_ensureInBounds hps).mp (List.mem_eraseDups.mp hi)).1

theorem fixArgnums_opens {static : List Int} {dropPastEnd : Bool} (hne : static ≠ [])
    (h : r.fixArgnums static args dropPastEnd = .ok (r', rest)) :
    ∃ t, r' = r.push t ∧ t.Opens args
      ((List.range args.length).filter fun i => ¬ Designates static args.length i) := by
  rcases fixArgnums_ok h with ⟨hnil, -, -⟩ | ⟨ps, boxes, -, hps, hb, rfl, -⟩
  · exact absurd hnil hne
  · rw [← otherPositions_ascending hps]
    exact ⟨_, rfl, .of_fixed (otherPositions_nodup _ _) (lt_of_mem_otherPositions _ _)
      (map_boxed_value (ascending_pairwise ps) (lt_of_mem_ascending hps) hb)⟩

/-- A function with arguments fixed by position: it takes the arguments for the places `dynamic`,
in this order. -/
structure Substitutes (r r' : Reduced) (args : List Value) (dynamic : List Nat) : Prop where
  call_eq : ∀ (w : World) (xs : List Value) (kwargs : Kwargs), xs.length = dynamic.length →
    r'.call w ⟨xs, kwargs⟩ = r.call w ⟨replaceAt args dynamic xs, kwargs⟩
  call_refused : ∀ (w : World) (xs : List Value) (kwargs : Kwargs), xs.length ≠ dynamic.length →
    r'.call w ⟨xs, kwargs⟩ = (.error (.wrongArity dynamic.length xs.length), w)
  slots : ∃ fixed, r'.transforms = r.transforms ++ [.positions dynamic fixed] ∧
    dynamic.length + fixed.length = args.length ∧ ∀ i ∈ dynamic, i < args.length

theorem substitutes_of_opens {t : Transform} {dynamic : List Nat} (h : t.Opens args dynamic) :
    r.Substitutes (r.push t) args dynamic := by
  refine ⟨fun w xs kwargs hx => ?_, fun w xs kwargs hx => ?_, ?_⟩
  · rw [call, expand_push, h.apply_ok hx]
    rfl
  · rw [call, expand_push, h.apply_refused hx]
    rfl
  · obtain ⟨fixed, rfl, hlen, -⟩ := h.held
    exact ⟨fixed, rfl, hlen, h.bounds⟩

/-- Made from a function by taking arguments off, in any of the ways there are. -/
inductive Built (f : Callable) : Reduced → Prop where
  | of : Built f (.of f)
  | keep {r r' : Reduced} {dynamic : List Int} {args rest : List Value} {boxed : Bool}
    (hr : Built f r) (h : r.keepArgnums dynamic args boxed = .ok (r', rest)) : Built f r'
  | fix {r r' : Reduced} {static : List Int} {args rest : List Value} {dropPastEnd : Bool}
    (hr : Built f r) (h : r.fixArgnums static args dropPastEnd = .ok (r', rest)) : Built f r'
  | fixNames {r r' : Reduced} {static : List String} {kwargs kept : Kwargs}
    (hr : Built f r) (h : r.fixArgnames static kwargs = .ok (r', kept)) : Built f r'
  | front {r : Reduced} (hr : Built f r) (args : List Value) : Built f (r.prepend args)

/-- What holds of the function and is kept by every transform put on holds of all that is built. -/
theorem Built.push_induction {f : Callable} {P : Reduced → Prop} (h : Built f r) (of : P (.of f))
    (push : ∀ r t, P r → t.Made → P (r.push t)) : P r := by
  induction h with
  | of => exact of
  | keep _ hk ih =>
    obtain ⟨t, rfl, ht⟩ := keepArgnums_opens hk
    exact push _ t ih (.positions ht)
  | @fix r r' static args rest dropPastEnd _ hf ih =>
    by_cases hne : static = []
    · rcases fixArgnums_ok hf with ⟨-, rfl, -⟩ | ⟨_, _, hs, -⟩
      · exact ih
      · exact absurd hne hs
    · obtain ⟨t, rfl, ht⟩ := fixArgnums_opens hne hf
      exact push _ t ih (.positions ht)
  | fixNames _ hf ih =>
    rcases fixArgnames_ok hf with ⟨-, rfl, -⟩ | ⟨boxes, -, -, rfl, -⟩
    · exact ih
    · exact push _ _ ih (.names boxes)
  | front _ args ih => exact push _ _ ih (.front args)

theorem Built.inner_eq {f : Callable} (h : Built f r) : r.inner = f :=
  h.push_induction (P := fun r => r.inner = f) rfl fun _ _ ih _ => ih

theorem Built.made {f : Callable} (h : Built f r) : ∀ t ∈ r.transforms, t.Made :=
  h.push_induction (P := fun r => ∀ t ∈ r.transforms, t.Made)
    (fun _ ht => absurd ht List.not_mem_nil)
    fun _ _ ih ht => List.forall_mem_append.mpr ⟨ih, List.forall_mem_singleton.mpr ht⟩

/-- Transforms that always find enough fixed arguments. -/
theorem expand_ne {ts : List Transform} (h : ∀ t ∈ ts, t.Made) (c : Call) :
    Callable.expand ts c ≠ .error .staticsExhausted := by
  induction ts with
  | nil =>
    intro h
    cases h
  | cons t ts ih =>
    obtain ⟨ht, hts⟩ := List.forall_mem_cons.mp h
    intro he
    rw [Callable.expand_cons, bind_error] at he
    rcases he with he | ⟨full, -, he⟩
    · exact ih hts he
    · exact ht.apply_ne full he

/-- A function reduced by position is the function with what a call passes put in the places that
were left open. The places are those given, in their order and each once, or all that no index
stands for, in ascending order. A call with more or fewer arguments is refused and nothing runs.
Whatever the indices are, remainders are taken of those in bounds only and never by zero, what comes
of them are places of arguments, not more than there are and none if there are none, and a function
made in these ways never lacks a fixed argument. -/
theorem call_substitutes (r : Reduced) (args : List Value) :
    (∀ dynamic boxed r' rest, r.keepArgnums dynamic args boxed = .ok (r', rest) →
      r.Substitutes r' args (wrappedPositions args.length dynamic)) ∧
    (∀ static dropPastEnd r' rest, static ≠ [] →
      r.fixArgnums static args dropPastEnd = .ok (r', rest) →
      r.Substitutes r' args
        ((List.range args.length).filter fun i => ¬ Designates static args.length i)) ∧
    (∀ dropPastEnd is,
      (∀ i ∈ dividends args.length dropPastEnd is,
        0 < args.length ∧ -(args.length : Int) ≤ i ∧ i < args.length) ∧
      ∀ ps, ensureInBounds dropPastEnd args.length is = .ok ps →
        ps = (dividends args.length dropPastEnd is).map
            (fun i : Int => (i % args.length).toNat) ∧
        (∀ i ∈ ps, i < args.length) ∧ ps.eraseDups.length ≤ args.length ∧
          (args = [] → ps = [])) ∧
    ∀ f c, Built f r → Callable.expand r.transforms c ≠ .error .staticsExhausted := by
  refine ⟨?_, ?_, fun dropPastEnd is => ⟨?_, fun ps h => ?_⟩,
    fun f c h => expand_ne h.made c⟩
  · intro dynamic boxed r' rest h
    obtain ⟨t, rfl, ht⟩ := keepArgnums_opens h
    exact substitutes_of_opens ht
  · intro static dropPastEnd r' rest hne h
    obtain ⟨t, rfl, ht⟩ := fixArgnums_opens hne h
    exact substitutes_of_opens ht
  · intro i hi
    have hbounds := dividends_bounds i hi
    exact ⟨by omega, hbounds.2⟩
  · have hb : ∀ i ∈ ps, i < args.length := fun i hi => ((mem_ensureInBounds h).mp hi).1
    have hsum := length_otherPositions (nodup_eraseDups ps)
      fun i hi => hb i (List.mem_eraseDups.mp hi)
    refine ⟨positionsIn_eq_dividends (mapError_ok.mp h), hb, by omega,
      fun hargs => List.eq_nil_iff_forall_not_mem.mpr fun i hi => ?_⟩
    have := hb i hi
    simp [hargs] at this

/-- Places out of order with one given twice; then an index past the end that is dropped; then no
arguments. -/
theorem call_substitutes_reordered :
    let r : Reduced := .of (.function (.echo 0))
    let args : List Value := [.int 0, .int 1, .list [.absent], .int 3]
    let kwargs : Kwargs := .ofList [("mode", .str "fast")]
    let echoed (w : World) (full : List Value) : CallResult × World :=
      (.ok (.tuple [.tuple full, .dict [("mode", .str "fast")]]),
        ⟨w.cells, w.runs ++ [⟨0, full, kwargs⟩]⟩)
    (∃ r' rest, r.keepArgnums [-1, 1, 3] args false = .ok (r', rest) ∧ ∀ w,
      r'.call w ⟨[.str "x", .str "y"], kwargs⟩ =
        echoed w [.int 0, .str "y", .list [.absent], .str "x"] ∧
      r'.call w ⟨[.str "x"], kwargs⟩ = (.error (.wrongArity 2 1), w)) ∧
    (∃ r' rest, r.fixArgnums [-3, 0, 9] args true = .ok (r', rest) ∧
      (∀ w, r'.call w ⟨[.str "x", .str "y"], kwargs⟩ =
        echoed w [.int 0, .int 1, .str "x", .str "y"]) ∧
      ∀ c, Callable.expand r'.transforms c ≠ .error .staticsExhausted) ∧
    ∀ dropPastEnd is, dividends 0 dropPastEnd is = [] := by
  intro r args kwargs echoed
  obtain ⟨hkeep, hfix, -, -⟩ := call_substitutes r args
  obtain ⟨⟨kept, restKept⟩, hkept⟩ := exists_ok (x := r.keepArgnums [-1, 1, 3] args false) rfl
  obtain ⟨⟨fixed, restFixed⟩, hfixed⟩ := exists_ok (x := r.fixArgnums [-3, 0, 9] args true) rfl
  have hk := hkeep _ _ _ _ hkept
  have hf := hfix _ _ _ _ (by simp) hfixed
  refine ⟨⟨kept, restKept, hkept, fun w => ⟨?_, ?_⟩⟩,
    ⟨fixed, restFixed, hfixed, fun w => ?_, fun c => ?_⟩, fun dropPastEnd is => ?_⟩
  · exact (hk.call_eq w _ kwargs (by decide)).trans rfl
  · exact hk.call_refused w _ kwargs (by decide)
  · exact (hf.call_eq w _ kwargs (by decide)).trans rfl
  · exact (call_substitutes fixed []).2.2.2 _ c (.fix .of hfixed)
  · refine List.eq_nil_iff_forall_not_mem.mpr fun i hi => ?_
    exact Nat.lt_irrefl 0 (((call_substitutes r []).2.2.1 dropPastEnd is).1 i hi).1

end Reduced

end Staging
