import Mathlib.Data.List.Sort
import Staging.Callable.Splitting
import Staging.Proofs.Results

namespace Staging

open Results

/-- Some index stands for a position among so many arguments. -/
def Designates (argnums : List Int) (numArgs i : Nat) : Prop :=
  ∃ j ∈ argnums, j = i ∨ j + numArgs = i

instance (argnums : List Int) (numArgs i : Nat) : Decidable (Designates argnums numArgs i) :=
  inferInstanceAs (Decidable (∃ j ∈ argnums, j = i ∨ j + numArgs = i))

/-- The remainder of an index in bounds is the position it stands for. -/
theorem emod_eq_wrapped {count : Nat} {i : Int} (h : -(count : Int) ≤ i ∧ i < count) :
    i % count = if i < 0 then i + count else i := by
  split
  · rw [← Int.add_emod_right, Int.emod_eq_of_lt (by omega) (by omega)]
  · exact Int.emod_eq_of_lt (by omega) (by omega)

/-- The positions that are found are those that some index stands for. -/
theorem mem_positionsIn {count : Nat} {dropPastEnd : Bool} {is : List Int} {ps : List Nat}
    (h : positionsIn count dropPastEnd is = .ok ps) {p : Nat} :
    p ∈ ps ↔ p < count ∧ Designates is count p := by
  induction is generalizing ps with
  | nil => cases h; simp [Designates]
  | cons i is ih =>
    have hcons : Designates (i :: is) count p ↔ (i = p ∨ i + count = p) ∨ Designates is count p := by
      simp [Designates]
    unfold positionsIn at h
    rw [hcons]
    split at h
    · rw [ih h]
      have hpast : p < count → ¬(i = p ∨ i + count = p) := by omega
      grind
    · split at h
      · rename_i hi
        obtain ⟨qs, hqs, rfl⟩ := map_ok.mp h
        have hp : p = (i % count).toNat ↔ p < count ∧ (i = p ∨ i + count = p) := by
          rw [emod_eq_wrapped hi]
          split <;> omega
        rw [List.mem_cons, ih hqs, hp]
        grind
      · cases h

theorem mem_ensureInBounds {dropPastEnd : Bool} {n : Nat} {is : List Int} {ps : List Nat}
    (h : ensureInBounds dropPastEnd n is = .ok ps) {p : Nat} :
    p ∈ ps ↔ p < n ∧ Designates is n p :=
  mem_positionsIn (mapError_ok.mp h)

theorem mem_otherPositions {args : List Value} {ps : List Nat} {i : Nat} :
    i ∈ otherPositions args ps ↔ i < args.length ∧ i ∉ ps := by
  simp [otherPositions]

theorem lt_of_mem_otherPositions (args : List Value) (ps : List Nat) :
    ∀ i ∈ otherPositions args ps, i < args.length := by
  intro i hi
  exact (mem_otherPositions.mp hi).1

theorem lt_of_mem_ascending {dropPastEnd : Bool} {n : Nat} {is : List Int} {ps : List Nat}
    (h : ensureInBounds dropPastEnd n is = .ok ps) : ∀ p ∈ ascending ps, p < n := by
  intro p hp
  exact ((mem_ensureInBounds h).mp (mem_ascending.mp hp)).1

theorem otherPositions_pairwise (args : List Value) (ps : List Nat) :
    (otherPositions args ps).Pairwise (· < ·) :=
  List.pairwise_lt_range.filter _

theorem otherPositions_nodup (args : List Value) (ps : List Nat) :
    (otherPositions args ps).Nodup :=
  List.nodup_range.filter _

/-- Positions in ascending order are the others of the others. -/
theorem otherPositions_otherPositions {args : List Value} {ps : List Nat}
    (ho : ps.Pairwise (· < ·)) (hb : ∀ i ∈ ps, i < args.length) :
    otherPositions args (otherPositions args ps) = ps := by
  apply (otherPositions_pairwise _ _).eq_of_mem_iff ho
  intro i
  rw [mem_otherPositions, mem_otherPositions]
  by_cases hi : i ∈ ps
  · simp [hi, hb i hi]
  · simp +contextual [hi]

/-- Positions that do not repeat split the arguments with the others. -/
theorem length_otherPositions {args : List Value} {ps : List Nat} (hn : ps.Nodup)
    (hb : ∀ i ∈ ps, i < args.length) :
    ps.length + (otherPositions args ps).length = args.length := by
  have hp : (ps ++ otherPositions args ps).Perm (List.range args.length) := by
    apply (List.perm_ext_iff_of_nodup ?_ List.nodup_range).mpr
    · intro i
      rw [List.mem_append, mem_otherPositions, List.mem_range]
      by_cases hi : i ∈ ps
      · simp [hi, hb i hi]
      · simp [hi]
    · refine List.nodup_append'.mpr ⟨hn, otherPositions_nodup _ _, ?_⟩
      intro i hi ho
      exact (mem_otherPositions.mp ho).2 hi
  simpa using hp.length_eq

theorem nodup_eraseDups (ps : List Nat) : ps.eraseDups.Nodup := by
  -- what is left to go through is filtered, so the induction is on the length
  induction h : ps.length using Nat.strongRecOn generalizing ps with
  | ind n ih =>
    cases ps with
    | nil => simp
    | cons p ps =>
      rw [List.eraseDups_cons, List.nodup_cons, List.mem_eraseDups]
      refine ⟨by simp, ih _ ?_ _ rfl⟩
      have := List.length_filter_le (fun q => !q == p) ps
      simp only [List.length_cons] at h
      omega

/-- The argument at a position that has one. -/
def argAt (args : List Value) (i : Nat) : Value := args.getD i .absent

theorem argAt_of_lt {args : List Value} {i : Nat} (h : i < args.length) :
    args[i]? = some (argAt args i) := by
  simp [argAt, List.getD_eq_getElem?_getD, h]

theorem zipIdx_eq_map (args : List Value) :
    args.zipIdx = (List.range args.length).map fun i => (argAt args i, i) := by
  apply List.ext_getElem?
  intro i
  by_cases h : i < args.length
  · simp [h, argAt, List.getD_eq_getElem?_getD]
  · simp [h]

theorem pick_eq_map {args : List Value} {ps : List Nat} (hb : ∀ i ∈ ps, i < args.length) :
    pick args ps = ps.map (argAt args) := by
  induction ps with
  | nil => rfl
  | cons p ps ih =>
    have hp := argAt_of_lt (hb p (by simp))
    have hs := ih fun i hi => hb i (by simp [hi])
    simp only [pick] at hs
    simp [pick, hp, hs]

theorem pick_otherPositions (args : List Value) (ps : List Nat) :
    pick args (otherPositions args ps) = (otherPositions args ps).map (argAt args) :=
  pick_eq_map (lt_of_mem_otherPositions args ps)

/-- A position holds the argument given for it, if one is. -/
theorem lookup_zip_map (ps : List Nat) (f : Nat → Value) (i : Nat) :
    (ps.zip (ps.map f)).lookup i = if i ∈ ps then some (f i) else none := by
  induction ps with
  | nil => rfl
  | cons p ps ih =>
    by_cases h : i = p
    · simp [h]
    · have hb : (i == p) = false := beq_eq_false_iff_ne.mpr h
      simp [List.lookup_cons, hb, h, ih]

theorem lookup_zip_isNone {α : Type} {ps : List Nat} {xs : List α} (h : xs.length = ps.length)
    (i : Nat) : ((ps.zip xs).lookup i).isNone = !ps.contains i := by
  induction ps generalizing xs with
  | nil => simp
  | cons p ps ih =>
    cases xs with
    | nil => simp at h
    | cons x xs =>
      by_cases hi : i = p
      · simp [hi]
      · have hb : (i == p) = false := beq_eq_false_iff_ne.mpr hi
        have := @ih xs (by simpa using h)
        simpa [List.lookup_cons, hb, hi] using this

/-- The slots that are empty take one fixed value each, in order. -/
theorem fillSlots_map (f : Nat → Option Value) (g : Nat → Value) (is : List Nat) :
    fillSlots (is.map f) ((is.filter fun i => (f i).isNone).map g) =
      some (is.map fun i => (f i).getD (g i)) := by
  induction is with
  | nil => rfl
  | cons i is ih => cases h : f i <;> simp [fillSlots, h, ih]

/-- The arguments with those at the dynamic positions replaced. -/
def substitute (args : List Value) (dynamic : List Nat) (xs : List Value) : List Value :=
  (List.range args.length).map fun i => ((dynamic.zip xs).lookup i).getD (argAt args i)

@[simp] theorem length_substitute (args : List Value) (dynamic : List Nat) (xs : List Value) :
    (substitute args dynamic xs).length = args.length := by
  simp [substitute]

/-- Arguments from one call at the dynamic positions, from another at the others. -/
theorem getElem?_substitute_pick {args others : List Value} {dynamic : List Nat}
    (hb : ∀ i ∈ dynamic, i < args.length) (hl : others.length = args.length) (i : Nat) :
    (substitute others dynamic (pick args dynamic))[i]? =
      if i ∈ dynamic then args[i]? else others[i]? := by
  rw [pick_eq_map hb]
  by_cases hi : i < args.length
  · simp only [substitute, hl, List.getElem?_map, List.getElem?_range hi, Option.map_some,
      lookup_zip_map]
    split
    · rw [argAt_of_lt hi]
      rfl
    · rw [argAt_of_lt (hl ▸ hi)]
      rfl
  · have hd : i ∉ dynamic := fun hd => hi (hb i hd)
    rw [if_neg hd, List.getElem?_eq_none (by simp [hl]; omega),
      List.getElem?_eq_none (by omega)]

/-- Putting back what was picked changes nothing. -/
theorem substitute_pick {args : List Value} {dynamic : List Nat}
    (hb : ∀ i ∈ dynamic, i < args.length) : substitute args dynamic (pick args dynamic) = args := by
  apply List.ext_getElem?
  intro i
  rw [getElem?_substitute_pick hb rfl, ite_self]

/-- Whatever is given for the dynamic positions, the arguments at all others stay where they
were. -/
theorem fillSlots_slotsFor (args xs : List Value) {dynamic : List Nat}
    (hx : xs.length = dynamic.length) :
    fillSlots (slotsFor dynamic xs args.length) (pick args (otherPositions args dynamic)) =
      some (substitute args dynamic xs) := by
  have hempty : otherPositions args dynamic =
      (List.range args.length).filter fun i => ((dynamic.zip xs).lookup i).isNone := by
    apply List.filter_congr
    intro i _
    rw [lookup_zip_isNone hx]
  rw [pick_otherPositions, hempty, slotsFor, fillSlots_map, substitute]

/-- The arguments that no index stands for. -/
def dynamicArgs (argnums : List Int) (args : List Value) : List Value :=
  (args.zipIdx.filter fun e => ¬ Designates argnums args.length e.2).map Prod.fst

theorem dynamicArgs_nil (args : List Value) : dynamicArgs [] args = args := by
  simp [dynamicArgs, Designates]

/-- What is left once the positions that indices stand for are taken out. -/
theorem otherPositions_ascending {argnums : List Int} {args : List Value} {dropPastEnd : Bool}
    {ps : List Nat} (h : ensureInBounds dropPastEnd args.length argnums = .ok ps) :
    otherPositions args (ascending ps) =
      (List.range args.length).filter fun i => ¬ Designates argnums args.length i := by
  apply List.filter_congr
  intro i hi
  have hi : i < args.length := List.mem_range.mp hi
  simp [mem_ascending, mem_ensureInBounds h, hi]

theorem pick_otherPositions_ascending {argnums : List Int} {args : List Value}
    {dropPastEnd : Bool} {ps : List Nat}
    (h : ensureInBounds dropPastEnd args.length argnums = .ok ps) :
    pick args (otherPositions args (ascending ps)) = dynamicArgs argnums args := by
  rw [pick_otherPositions, otherPositions_ascending h, dynamicArgs, zipIdx_eq_map,
    List.filter_map, List.map_map]
  rfl

end Staging
