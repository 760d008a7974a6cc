import Mathlib.Data.List.Dedup
import Mathlib.Data.Nat.Nth
import Staging.Proofs.Results
import Staging.Roles.Remaining

namespace Staging

open Results

/-- How far a sweep moves every position down: by the static ones that lie below. -/
theorem sweep_eq_some_iff {passed : Int} {ds ss out : List Int} (hd : ds.Pairwise (· < ·))
    (hs : ss.Pairwise (· < ·)) :
    sweep passed ds ss = some out ↔
      (∀ d ∈ ds, d ∉ ss) ∧ out = ds.map fun d => d - (passed + ss.countP (· < d)) := by
  fun_induction sweep passed ds ss generalizing out with
  | case1 => simp [eq_comm]
  | case2 passed d ds ih =>
    simp [ih (List.pairwise_cons.mp hd).2 hs, eq_comm]
  | case3 passed d ds s ss hlt ih =>
    obtain ⟨hds, -⟩ := List.pairwise_cons.mp hd
    have hbelow : ∀ e ∈ d :: ds, s < e := by
      intro e he
      rcases List.mem_cons.mp he with rfl | he
      · exact hlt
      · exact Int.lt_trans hlt (hds e he)
    have hmem : (∀ e ∈ d :: ds, e ∉ s :: ss) ↔ ∀ e ∈ d :: ds, e ∉ ss := by
      refine forall₂_congr fun e he => ?_
      have := hbelow e he
      simp [show e ≠ s by omega]
    have hmap : ((d :: ds).map fun e => e - (passed + ((s :: ss).countP (· < e) : Nat))) =
        (d :: ds).map fun e => e - (passed + 1 + (ss.countP (· < e) : Nat)) := by
      apply List.map_congr_left
      intro e he
      simp only [List.countP_cons, hbelow e he, decide_true, ↓reduceIte]
      omega
    rw [ih hd (List.pairwise_cons.mp hs).2, hmem, hmap]
  | case4 passed ds s ss => simp
  | case5 passed d ds s ss hge hne ih =>
    obtain ⟨hss, -⟩ := List.pairwise_cons.mp hs
    have habove : ∀ t ∈ s :: ss, d < t := by
      intro t ht
      rcases List.mem_cons.mp ht with rfl | ht
      · omega
      · exact Int.lt_trans (by omega) (hss t ht)
    have hmem : d ∉ s :: ss := fun h => Int.lt_irrefl d (habove d h)
    have hcount : (s :: ss).countP (· < d) = 0 := by
      rw [List.countP_eq_zero]
      intro t ht
      have := habove t ht
      simp only [decide_eq_true_eq]
      omega
    rw [Option.map_eq_some_iff, List.forall_mem_cons, List.map_cons, hcount]
    simp only [ih (List.pairwise_cons.mp hd).2 hs, hmem, not_false_eq_true, true_and]
    constructor
    · intro h
      obtain ⟨_, ⟨hdisjoint, rfl⟩, rfl⟩ := h
      exact ⟨hdisjoint, by simp⟩
    · intro h
      obtain ⟨hdisjoint, rfl⟩ := h
      exact ⟨_, ⟨hdisjoint, rfl⟩, by simp⟩

/-- Positions that can be told apart from static ones and counted past them. -/
structure Rebasable (donate static : List Int) : Prop where
  donate_nonneg : ∀ d ∈ donate, 0 ≤ d
  static_nonneg : ∀ s ∈ static, 0 ≤ s
  disjoint : ∀ d ∈ donate, d ∉ static

theorem isEmpty_ascending (is : List Int) : (ascending is).isEmpty = true ↔ is = [] := by
  simp [List.isEmpty_iff, List.eq_nil_iff_forall_not_mem, mem_ascending]

theorem any_neg_ascending (is : List Int) :
    (ascending is).any (· < 0) = true ↔ ¬ ∀ i ∈ is, 0 ≤ i := by
  simp [mem_ascending]

theorem sweep_ascending {donate static out : List Int} :
    sweep 0 (ascending donate) (ascending static) = some out ↔ (∀ d ∈ donate, d ∉ static) ∧
      out = (ascending donate).map fun d => d - (ascending static).countP (· < d) := by
  have hsweep := @sweep_eq_some_iff 0 (ascending donate) (ascending static) out
    (ascending_pairwise donate) (ascending_pairwise static)
  simpa only [mem_ascending, Int.zero_add] using hsweep

theorem rebaseDonated_ok_iff {donate static out : List Int} :
    rebaseDonated donate static = .ok out ↔ (donate = [] ∨ Rebasable donate static) ∧
      out = (ascending donate).map fun d => d - (ascending static).countP (· < d) := by
  unfold rebaseDonated
  dsimp only
  split
  · rename_i hempty
    obtain rfl := (isEmpty_ascending donate).mp hempty
    simp [ascending, eq_comm]
  · rename_i hempty
    have hne : donate ≠ [] := fun h => hempty ((isEmpty_ascending donate).mpr h)
    split
    · rename_i h
      rw [Bool.or_eq_true, any_neg_ascending, any_neg_ascending] at h
      have hno : ¬ Rebasable donate static := by
        intro hr
        rcases h with h | h
        · exact h hr.donate_nonneg
        · exact h hr.static_nonneg
      simp [hne, hno]
    · rename_i h
      rw [Bool.or_eq_true, any_neg_ascending, any_neg_ascending, not_or, not_not, not_not] at h
      have hr : Rebasable donate static ↔ ∀ d ∈ donate, d ∉ static :=
        ⟨Rebasable.disjoint, fun hd => ⟨h.1, h.2, hd⟩⟩
      simp only [hne, false_or, hr, ← sweep_ascending]
      cases sweep 0 (ascending donate) (ascending static) <;> simp

/-- The two reasons why positions are not rebased. -/
theorem rebaseDonated_error_iff {donate static : List Int} {e : Error} :
    rebaseDonated donate static = .error e ↔ donate ≠ [] ∧
      ((∃ i ∈ donate ++ static, i < 0) ∧
          e = .negativeArgnums (ascending static) (ascending donate) ∨
        (∀ i ∈ donate ++ static, 0 ≤ i) ∧ (∃ d ∈ donate, d ∈ static) ∧
          e = .argnumsIntersect (ascending static) (ascending donate)) := by
  have hsigns : (∀ i ∈ donate ++ static, 0 ≤ i) ↔
      (∀ d ∈ donate, 0 ≤ d) ∧ ∀ s ∈ static, 0 ≤ s := List.forall_mem_append
  have hneg : (∃ i ∈ donate ++ static, i < 0) ↔
      ¬ ((∀ d ∈ donate, 0 ≤ d) ∧ ∀ s ∈ static, 0 ≤ s) := by
    rw [← hsigns]
    simp only [not_forall, exists_prop, Int.not_le]
  rw [hneg, hsigns]
  unfold rebaseDonated
  dsimp only
  split
  · rename_i hempty
    simp [(isEmpty_ascending donate).mp hempty]
  · rename_i hempty
    have hne : donate ≠ [] := fun h => hempty ((isEmpty_ascending donate).mpr h)
    split
    · rename_i h
      rw [Bool.or_eq_true, any_neg_ascending, any_neg_ascending, ← not_and_or] at h
      rw [iff_false_intro h]
      simp [hne, eq_comm]
    · rename_i h
      rw [Bool.or_eq_true, any_neg_ascending, any_neg_ascending, ← not_and_or, not_not] at h
      rw [iff_true_intro h]
      cases hsweep : sweep 0 (ascending donate) (ascending static) with
      | some out =>
        have hdisjoint := (sweep_ascending.mp hsweep).1
        have hno : ¬ ∃ d ∈ donate, d ∈ static := fun ⟨d, hd, hs⟩ => hdisjoint d hd hs
        simp [hno]
      | none =>
        have hshared : ∃ d ∈ donate, d ∈ static := by
          by_contra hno
          have := sweep_ascending.mpr ⟨fun d hd hs => hno ⟨d, hd, hs⟩, rfl⟩
          rw [hsweep] at this
          cases this
        simp [hne, hshared, eq_comm]

/-- The rank of a position among those that are not static. -/
def rank (static : List Int) (i : Nat) : Nat := Nat.count (fun j => (j : Int) ∉ static) i

theorem rank_zero (static : List Int) : rank static 0 = 0 := rfl

theorem rank_succ (static : List Int) (i : Nat) :
    rank static (i + 1) = rank static i + if (i : Int) ∈ static then 0 else 1 := by
  rw [rank, Nat.count_succ, ← rank]
  by_cases h : (i : Int) ∈ static <;> simp [h]

/-- Positions that are not static have each its own rank. -/
theorem rank_injective {static : List Int} {i j : Nat} (hi : (i : Int) ∉ static)
    (hj : (j : Int) ∉ static) (h : rank static i = rank static j) : i = j :=
  Nat.count_injective hi hj h

/-- Counting the static positions below a position gives its rank. -/
theorem sub_countP_eq_rank {static : List Int} (hs : ∀ s ∈ static, 0 ≤ s) (i : Nat) :
    (i : Int) - (ascending static).countP (· < (i : Int)) = rank static i := by
  induction i with
  | zero =>
    have hcount : (ascending static).countP (· < ((0 : Nat) : Int)) = 0 := by
      rw [List.countP_eq_zero]
      intro s hmem
      simpa using hs s (mem_ascending.mp hmem)
    rw [hcount, rank_zero]
    rfl
  | succ i ih =>
    have hsplit : ∀ ss : List Int, ss.countP (· < ((i + 1 : Nat) : Int)) =
        ss.countP (· < (i : Int)) + ss.count (i : Int) := by
      intro ss
      induction ss with
      | nil => rfl
      | cons s ss ih =>
        simp only [List.countP_cons, List.count_cons, decide_eq_true_eq, beq_iff_eq, ih]
        split <;> split <;> split <;> omega
    have hnodup : (ascending static).Nodup := (ascending_pairwise static).imp Int.ne_of_lt
    rw [hsplit, hnodup.count, rank_succ]
    simp only [mem_ascending]
    split <;> omega

/-- A position that is not static is donated exactly if its rank is among the rebased ones. -/
theorem rank_mem_iff {donate static out : List Int} (h : rebaseDonated donate static = .ok out)
    {i : Nat} (hi : (i : Int) ∉ static) : (rank static i : Int) ∈ out ↔ (i : Int) ∈ donate := by
  obtain ⟨hor, rfl⟩ := rebaseDonated_ok_iff.mp h
  rw [List.mem_map]
  rcases hor with rfl | hr
  · simp [ascending]
  · constructor
    · intro hmem
      obtain ⟨d, hd, hrank⟩ := hmem
      have hd := mem_ascending.mp hd
      obtain ⟨j, rfl⟩ := Int.eq_ofNat_of_zero_le (hr.donate_nonneg d hd)
      rw [sub_countP_eq_rank hr.static_nonneg] at hrank
      rwa [rank_injective hi (hr.disjoint _ hd) (by exact_mod_cast hrank.symm)]
    · intro hd
      exact ⟨i, mem_ascending.mpr hd, sub_countP_eq_rank hr.static_nonneg i⟩

/-- The differences that a sweep takes, up to where it fails if it does. -/
def differences (passed : Int) : List Int → List Int → List Int
  | [], _ => []
  | d :: ds, [] => (d - passed) :: differences passed ds []
  | d :: ds, s :: ss =>
    if s < d then differences (passed + 1) (d :: ds) ss
    else if s = d then []
    else (d - passed) :: differences passed ds (s :: ss)
termination_by ds ss => ds.length + ss.length

theorem sweep_eq_differences {passed : Int} {ds ss out : List Int}
    (h : sweep passed ds ss = some out) : out = differences passed ds ss := by
  fun_induction sweep passed ds ss generalizing out with
  | case1 =>
    cases h
    rw [differences]
  | case2 passed d ds ih =>
    obtain ⟨rest, hrest, rfl⟩ := Option.map_eq_some_iff.mp h
    rw [differences, ih hrest]
  | case3 passed d ds s ss hlt ih =>
    rw [differences, if_pos hlt]
    exact ih h
  | case4 => cases h
  | case5 passed d ds s ss hge hne ih =>
    obtain ⟨rest, hrest, rfl⟩ := Option.map_eq_some_iff.mp h
    rw [differences, if_neg hge, if_neg hne, ih hrest]

theorem bounds_cons {passed d : Int} {ds xs : List Int} (h0 : 0 ≤ passed) (hd : passed ≤ d)
    (h : ∀ x ∈ xs, 0 ≤ x ∧ ∃ e ∈ ds, x ≤ e) :
    ∀ x ∈ (d - passed) :: xs, 0 ≤ x ∧ ∃ e ∈ d :: ds, x ≤ e := by
  refine List.forall_mem_cons.mpr ⟨⟨by omega, d, List.mem_cons_self, by omega⟩, fun x hx => ?_⟩
  obtain ⟨hx, e, he, hxe⟩ := h x hx
  exact ⟨hx, e, List.mem_cons_of_mem _ he, hxe⟩

/-- No position that a sweep has still to meet lies below the number of those it has passed. -/
theorem differences_bounds {passed : Int} {ds ss : List Int} (hd : ds.Pairwise (· < ·))
    (hs : ss.Pairwise (· < ·)) (h0 : 0 ≤ passed) (hds : ∀ d ∈ ds, passed ≤ d)
    (hss : ∀ s ∈ ss, passed ≤ s) :
    ∀ x ∈ differences passed ds ss, 0 ≤ x ∧ ∃ d ∈ ds, x ≤ d := by
  fun_induction differences passed ds ss with
  | case1 => simp
  | case2 passed d ds ih =>
    obtain ⟨hfirst, hrest⟩ := List.forall_mem_cons.mp hds
    exact bounds_cons h0 hfirst (ih (List.pairwise_cons.mp hd).2 hs h0 hrest hss)
  | case3 passed d ds s ss hlt ih =>
    obtain ⟨hsd, hss'⟩ := List.pairwise_cons.mp hs
    have hs0 := hss s List.mem_cons_self
    refine ih hd hss' (by omega) (fun e he => ?_) (fun t ht => ?_)
    · rcases List.mem_cons.mp he with rfl | he
      · omega
      · have := (List.pairwise_cons.mp hd).1 e he
        omega
    · have := hsd t ht
      omega
  | case4 => simp
  | case5 passed d ds s ss hge hne ih =>
    obtain ⟨hfirst, hrest⟩ := List.forall_mem_cons.mp hds
    exact bounds_cons h0 hfirst (ih (List.pairwise_cons.mp hd).2 hs h0 hrest hss)

/-- In an ascending list a member stands after as many as lie below it. -/
theorem getElem?_countP_lt {α : Type} [LinearOrder α] {xs : List α} (h : xs.Pairwise (· < ·))
    {x : α} (hx : x ∈ xs) : xs[xs.countP (· < x)]? = some x := by
  induction xs with
  | nil => cases hx
  | cons y ys ih =>
    obtain ⟨hy, hys⟩ := List.pairwise_cons.mp h
    rcases List.mem_cons.mp hx with rfl | hx
    · have hnone : ys.countP (· < x) = 0 := by
        rw [List.countP_eq_zero]
        intro z hz
        simpa using (hy z hz).le
      simp [hnone]
    · simp [hy x hx, ih hys hx]

/-- How many distinct members of a list lie below a bound. -/
def numBelow (is : List Int) (bound : Int) : Nat := is.dedup.countP (· < bound)

theorem ascending_perm_dedup (is : List Int) : (ascending is).Perm is.dedup := by
  apply (List.perm_ext_iff_of_nodup ((ascending_pairwise is).imp Int.ne_of_lt) is.nodup_dedup).mpr
  intro i
  rw [mem_ascending, List.mem_dedup]

theorem countP_ascending (is : List Int) (bound : Int) :
    (ascending is).countP (· < bound) = numBelow is bound :=
  (ascending_perm_dedup is).countP_eq _

/-- Donated positions once the static ones are taken away. A donated position has the place in
the result that it has among the distinct donated ones. It moves down by the static positions
below it, and what comes of that is its number among the positions that are not static. -/
structure Rebases (donate static out : List Int) : Prop where
  ordered : out.Pairwise (· < ·)
  length_eq : out.length = donate.dedup.length
  moved : ∀ d ∈ donate, ∃ r, out[numBelow donate d]? = some r ∧ 0 ≤ r ∧
    r = d - numBelow static d ∧ (Nat.nth (fun j => (j : Int) ∉ static) r.toNat : Int) = d

theorem Rebasable.rebases {donate static : List Int} (h : Rebasable donate static) :
    Rebases donate static
      ((ascending donate).map fun d => d - (ascending static).countP (· < d)) := by
  have hrank : ∀ d ∈ donate, ∃ i : Nat, d = i ∧ (i : Int) ∉ static ∧
      d - (ascending static).countP (· < d) = rank static i := by
    intro d hd
    obtain ⟨i, rfl⟩ := Int.eq_ofNat_of_zero_le (h.donate_nonneg d hd)
    exact ⟨i, rfl, h.disjoint _ hd, sub_countP_eq_rank h.static_nonneg i⟩
  refine ⟨?_, ?_, ?_⟩
  · rw [List.pairwise_map]
    refine (ascending_pairwise donate).imp_of_mem fun {d e} hd he hlt => ?_
    obtain ⟨i, rfl, hi, hri⟩ := hrank d (mem_ascending.mp hd)
    obtain ⟨j, rfl, -, hrj⟩ := hrank e (mem_ascending.mp he)
    rw [hri, hrj]
    exact_mod_cast Nat.count_strict_mono hi (by exact_mod_cast hlt)
  · rw [List.length_map, (ascending_perm_dedup donate).length_eq]
  · intro d hd
    obtain ⟨i, rfl, hi, hri⟩ := hrank d hd
    have hplace := getElem?_countP_lt (ascending_pairwise donate) (mem_ascending.mpr hd)
    rw [countP_ascending] at hplace
    refine ⟨rank static i, ?_, Int.natCast_nonneg _, ?_, ?_⟩
    · rw [List.getElem?_map, hplace, Option.map_some, hri]
    · rw [← hri, countP_ascending]
    · exact_mod_cast Nat.nth_count (p := fun j : Nat => (j : Int) ∉ static) hi

theorem rebases_of_ok {donate static out : List Int} (h : rebaseDonated donate static = .ok out) :
    Rebases donate static out := by
  obtain ⟨rfl | hr, rfl⟩ := rebaseDonated_ok_iff.mp h
  · exact ⟨.nil, rfl, by simp⟩
  · exact hr.rebases

theorem differences_of_ok {donate static out : List Int}
    (h : rebaseDonated donate static = .ok out) :
    out = differences 0 (ascending donate) (ascending static) := by
  obtain ⟨rfl | hr, rfl⟩ := rebaseDonated_ok_iff.mp h
  · simp [ascending, differences]
  · exact sweep_eq_differences (sweep_ascending.mpr ⟨hr.disjoint, rfl⟩)

/-- Rebasing undoes the insertion of the static positions: it succeeds exactly where nothing is
donated or both lists hold positions from the front and share none, and the position in each
place of the result, counted among the positions that are not static, is the donated one in that
place. All differences that are taken, those before a failure included, lie between zero and a
donated position. -/
theorem rebaseDonated_inverts (donate static : List Int) :
    ((∃ out, rebaseDonated donate static = .ok out) ↔ donate = [] ∨ Rebasable donate static) ∧
    (rebaseDonated donate static =
        .error (.negativeArgnums (ascending static) (ascending donate)) ↔
      donate ≠ [] ∧ ∃ i ∈ donate ++ static, i < 0) ∧
    (rebaseDonated donate static =
        .error (.argnumsIntersect (ascending static) (ascending donate)) ↔
      donate ≠ [] ∧ (∀ i ∈ donate ++ static, 0 ≤ i) ∧ ∃ d ∈ donate, d ∈ static) ∧
    (∀ out, rebaseDonated donate static = .ok out → Rebases donate static out ∧
      out = differences 0 (ascending donate) (ascending static)) ∧
    ((∀ i ∈ donate ++ static, 0 ≤ i) →
      ∀ x ∈ differences 0 (ascending donate) (ascending static), 0 ≤ x ∧ ∃ d ∈ donate, x ≤ d) := by
  refine ⟨?_, ?_, ?_, fun out h => ⟨rebases_of_ok h, differences_of_ok h⟩, fun h => ?_⟩
  · simp only [rebaseDonated_ok_iff, exists_and_left, exists_eq, and_true]
  · simp [rebaseDonated_error_iff]
  · simp [rebaseDonated_error_iff]
  · obtain ⟨hd, hs⟩ := List.forall_mem_append.mp h
    have hbounds := differences_bounds (ascending_pairwise donate) (ascending_pairwise static)
      (Int.le_refl 0) (fun d hmem => hd d (mem_ascending.mp hmem))
      (fun s hmem => hs s (mem_ascending.mp hmem))
    simpa only [mem_ascending] using hbounds

/-- Both lists out of order and with repeats. -/
theorem rebaseDonated_inverts_unsorted :
    let donate : List Int := [7, 3, 1, 3]
    let static : List Int := [2, 0, 2, 5]
    rebaseDonated donate static = .ok [0, 1, 4] ∧ (∀ i ∈ donate ++ static, 0 ≤ i) ∧
      (Nat.nth (fun j => (j : Int) ∉ static) 4 : Int) = 7 ∧
      ∀ x ∈ differences 0 (ascending donate) (ascending static), 0 ≤ x := by
  intro donate static
  obtain ⟨-, -, -, hrebases, hbounds⟩ := rebaseDonated_inverts donate static
  have hok : rebaseDonated donate static = .ok [0, 1, 4] := by with_unfolding_all rfl
  have hsigns : ∀ i ∈ donate ++ static, 0 ≤ i := by decide
  obtain ⟨r, hr, -, -, hnth⟩ := (hrebases _ hok).1.moved 7 (by decide)
  have hplace : numBelow donate 7 = 2 := by decide
  rw [hplace] at hr
  obtain rfl : 4 = r := by simpa using hr
  exact ⟨hok, hsigns, hnth, fun x hx => (hbounds hsigns x hx).1⟩

end Staging
