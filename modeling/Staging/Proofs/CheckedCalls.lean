import Staging.Proofs.InvalidNumbers
import Staging.Proofs.Transparency

namespace Staging

open Results

theorem fillSlots_of_shape {slots slots' : List (Option Value)} {fixed args : List Value}
    (hs : slots.map Option.isNone = slots'.map Option.isNone)
    (h : fillSlots slots fixed = some args) :
    ∃ args', fillSlots slots' fixed = some args' ∧ args'.length = args.length := by
  induction slots generalizing slots' fixed args with
  | nil =>
    obtain rfl : slots' = [] := by simpa using hs.symm
    exact ⟨args, h, rfl⟩
  | cons slot slots ih =>
    cases slots' with
    | nil => cases hs
    | cons slot' slots' =>
      rw [List.map_cons, List.map_cons, List.cons.injEq] at hs
      obtain ⟨hslot, hs⟩ := hs
      cases slot with
      | some v =>
        obtain ⟨v', rfl⟩ : ∃ v', slot' = some v' := by simpa [Option.isSome_iff_exists] using hslot
        obtain ⟨rest, hrest, rfl⟩ := Option.map_eq_some_iff.mp h
        obtain ⟨rest', hrest', hlen⟩ := ih hs hrest
        exact ⟨v' :: rest', by simp [fillSlots, hrest'], by simp [hlen]⟩
      | none =>
        obtain rfl : slot' = none := by simpa using hslot
        cases fixed with
        | nil => cases h
        | cons v fixed =>
          obtain ⟨rest, hrest, rfl⟩ := Option.map_eq_some_iff.mp h
          obtain ⟨rest', hrest', hlen⟩ := ih hs hrest
          exact ⟨v :: rest', by simp [fillSlots, hrest'], by simp [hlen]⟩

/-- Whether a transform takes a call depends on no more than the number of its positional
arguments. -/
theorem Transform.apply_of_length {t : Transform} {c c' full : Call}
    (hc : c'.args.length = c.args.length) (h : t.apply c = .ok full) :
    ∃ full', t.apply c' = .ok full' ∧ full'.args.length = full.args.length := by
  cases t with
  | names fixed =>
    cases h
    exact ⟨_, rfl, hc⟩
  | front args =>
    cases h
    exact ⟨_, rfl, by simp [hc]⟩
  | positions dynamic fixed =>
    simp only [apply] at h
    split at h
    · cases h
    · rename_i hlen
      have hlen : c.args.length = dynamic.length := by simpa using hlen
      split at h
      · rename_i args hfill
        cases h
        have hshape : (slotsFor dynamic c.args (dynamic.length + fixed.length)).map Option.isNone =
            (slotsFor dynamic c'.args (dynamic.length + fixed.length)).map Option.isNone := by
          simp only [slotsFor, List.map_map]
          apply List.map_congr_left
          intro i _
          simp only [Function.comp_apply, lookup_zip_isNone hlen,
            lookup_zip_isNone (hc.trans hlen)]
        obtain ⟨args', hfill', hargs⟩ := fillSlots_of_shape hshape hfill
        exact ⟨{ c' with args := args' }, by simp [apply, hc, hlen, hfill'], hargs⟩
      · cases h

namespace Callable

/-- The function beneath all layers of transforms. -/
def root : Callable → Function
  | .function f => f
  | .object _ inner _ => inner.root

/-- Turns the arguments of a call into those that the function beneath all layers is given. -/
def expandAll : Callable → Call → Except CallError Call
  | .function _, c => .ok c
  | .object _ inner transforms, c => do inner.expandAll (← expand transforms c)

/-- From `before` to `after` the function beneath all layers ran once, on what it is given for a
call. -/
def RanOnce (f : Callable) (c : Call) (before after : World) : Prop :=
  ∃ full, f.expandAll c = .ok full ∧ after.runs = before.runs ++ [⟨f.root.ticket, full⟩]

theorem call_eq (f : Callable) (w : World) (c : Call) :
    f.call w c = match f.expandAll c with
      | .ok full => f.root.run w full
      | .error e => (.error e, w) := by
  induction f generalizing c with
  | function f => rfl
  | object ticket inner transforms ih =>
    rw [call, expandAll]
    cases h : expand transforms c with
    | ok full => exact ih full
    | error e => rfl

theorem ranOnce_of_expandAll {f : Callable} {w : World} {c full : Call}
    (h : f.expandAll c = .ok full) : f.RanOnce c w (f.call w c).2 := by
  refine ⟨full, h, ?_⟩
  rw [call_eq, h]
  rfl

theorem expandAll_of_call {f : Callable} {w after : World} {c : Call} {output : Value}
    (h : f.call w c = (.ok output, after)) : ∃ full, f.expandAll c = .ok full := by
  rw [call_eq] at h
  cases hc : f.expandAll c with
  | ok full => exact ⟨full, rfl⟩
  | error e => rw [hc] at h; cases h

theorem expand_of_length {transforms : List Transform} {c c' full : Call}
    (hc : c'.args.length = c.args.length) (h : expand transforms c = .ok full) :
    ∃ full', expand transforms c' = .ok full' ∧ full'.args.length = full.args.length := by
  induction transforms generalizing full with
  | nil =>
    cases h
    exact ⟨c', rfl, hc⟩
  | cons t transforms ih =>
    rw [expand_cons, bind_ok] at h
    obtain ⟨mid, hmid, ht⟩ := h
    obtain ⟨mid', hmid', hlen⟩ := ih hmid
    obtain ⟨full', ht', hfull⟩ := Transform.apply_of_length hlen ht
    exact ⟨full', by rw [expand_cons, bind_ok]; exact ⟨mid', hmid', ht'⟩, hfull⟩

/-- A function that ran for one call runs for every other of as many positional arguments. -/
theorem expandAll_of_length {f : Callable} {c c' full : Call}
    (hc : c'.args.length = c.args.length) (h : f.expandAll c = .ok full) :
    ∃ full', f.expandAll c' = .ok full' := by
  induction f generalizing c c' with
  | function f => exact ⟨c', rfl⟩
  | object ticket inner transforms ih =>
    rw [expandAll, bind_ok] at h
    obtain ⟨mid, hmid, h⟩ := h
    obtain ⟨mid', hmid', hlen⟩ := expand_of_length hc hmid
    obtain ⟨full', hfull'⟩ := ih hlen h
    exact ⟨full', by rw [expandAll, bind_ok]; exact ⟨mid', hmid', hfull'⟩⟩

/-- The error to report for an output whose first invalid number is `x`, from what the function
does when it runs again. -/
inductive Reports (f : Callable) (checks : InvalidChecks) (x : Binary64) :
    CallResult × World → Error → Prop where
  | failed {e : CallError} {after : World} : Reports f checks x (.error e, after) (.call e)
  | invalid {output : Value} {after : World} {y : Binary64}
    (h : checks.FindsFirst after.cells output y) :
    Reports f checks x (.ok output, after) (.invalidOutput ⟨f.name, .of y⟩)
  | valid {output : Value} {after : World} (h : ¬ checks.Finds after.cells output) :
    Reports f checks x (.ok output, after) (.invalidWhenStaged ⟨f.name, .of x⟩)

theorem reports_recheck (f : Callable) (checks : InvalidChecks) (x : Binary64) (w : World)
    (c : Call) :
    f.Reports checks x (f.call w c) (f.recheck ⟨f.name, .of x⟩ checks w c).result := by
  simp only [recheck]
  rcases f.call w c with ⟨e | output, after⟩
  · exact .failed
  · cases h : checks.output? after.cells f.name output with
    | none => simpa only [h] using .valid (InvalidChecks.output?_none.mp h)
    | some found =>
      obtain ⟨y, hy, rfl⟩ := InvalidChecks.output?_some.mp h
      simpa only [h] using .invalid hy

end Callable

theorem Handed.length_args {r : Resolved} {made given : Call} (h : Handed r made given) :
    given.args.length = made.args.length := by
  have hnone : ∀ i : Nat, given.args.length ≤ i ↔ made.args.length ≤ i := by
    intro i
    rw [← List.getElem?_eq_none_iff, ← List.getElem?_eq_none_iff]
    have hi := h.arg i
    generalize given.args[i]? = v at hi ⊢
    generalize made.args[i]? = w at hi ⊢
    cases hi <;> simp
  have h₁ := (hnone given.args.length).mp le_rfl
  have h₂ := (hnone made.args.length).mpr le_rfl
  exact le_antisymm h₂ h₁

namespace Staged

variable {f : Callable} {roles : Roles} {config : Config} {s : Staged} {w after : World}
  {c : Call} {l : Lowered} {output : Value}

/-- What a call that succeeds went through. -/
theorem call_ok (h : (s.call w c).result = .ok output) :
    ∃ l, (s.lower w.cells c).result = .ok l ∧
      l.entry.function.call w l.dynamic = (.ok output, (s.call w c).state.2) ∧
      ¬ s.config.invalidChecks.Finds (s.call w c).state.2.cells output := by
  simp only [call] at h ⊢
  split at h
  · cases h
  · rename_i l hl
    split at h
    · cases h
    · rename_i out after hrun
      simp only [inspect] at h
      split at h
      · rename_i hnone
        cases h
        refine ⟨l, hl, ?_⟩
        simp only [hrun, inspect, hnone]
        exact ⟨trivial, InvalidChecks.output?_none.mp hnone⟩
      · cases h

/-- What comes of a call whose output has a number to look for. -/
theorem call_invalid (hl : (s.lower w.cells c).result = .ok l)
    (hrun : l.entry.function.call w l.dynamic = (.ok output, after))
    (hfinds : s.config.invalidChecks.Finds after.cells output) :
    ∃ x e, s.config.invalidChecks.FindsFirst after.cells output x ∧
      (s.call w c).result = .error e ∧
      s.callable.Reports s.config.invalidChecks x (s.callable.call after c) e ∧
      (s.call w c).state.2 = (s.callable.call after c).2 := by
  cases hfound : s.config.invalidChecks.output? after.cells s.name output with
  | none => exact absurd hfinds (InvalidChecks.output?_none.mp hfound)
  | some found =>
    obtain ⟨x, hx, rfl⟩ := InvalidChecks.output?_some.mp hfound
    refine ⟨x, _, hx, ?_, s.callable.reports_recheck _ x after c, ?_⟩ <;>
      simp only [call, hl, hrun, inspect, hfound]
    · rfl
    · rfl

/-- An entry whose function succeeds ran the function, once, for what it was handed. -/
theorem InUse.ranOnce {resolved : Resolved} (h : InUse f resolved config s)
    (hl : (s.lower w.cells c).result = .ok l)
    (hrun : l.entry.function.call w l.dynamic = (.ok output, after)) :
    ∃ given full, Handed resolved c given ∧ f.expandAll given = .ok full ∧
      f.RanOnce given w after := by
  obtain ⟨given, hgiven, -, hcall⟩ := h.lower_handed (s.lowers w.cells c) hl
  rw [hcall] at hrun
  obtain ⟨full, hfull⟩ := Callable.expandAll_of_call hrun
  have hran := Callable.ranOnce_of_expandAll (w := w) hfull
  rw [hrun] at hran
  exact ⟨given, full, hgiven, hfull, hran⟩

/-- At any point of its use a staged function returns nothing that its checks look for, and ran
its function once for what it returns. Where the function's output has something to look for, the
function runs once more, on the call as it was made, and the call fails: with the error of that
run, or with the kind of the first such number, in the new output if there is one and in the old
output otherwise. -/
theorem call_checked (hs : s.Made f roles config) (uses : List Use) (w : World) (c : Call) :
    let used := s.afterAll uses
    let called := used.call w c
    let checks := config.invalidChecks
    (∀ output, called.result = .ok output →
      ¬ checks.Finds called.state.2.cells output ∧
        ∃ given, Handed s.resolved c given ∧ f.RanOnce given w called.state.2) ∧
    ∀ l output after, (used.lower w.cells c).result = .ok l →
      l.entry.function.call w l.dynamic = (.ok output, after) →
      checks.Finds after.cells output →
      (∃ given, Handed s.resolved c given ∧ f.RanOnce given w after) ∧
        f.RanOnce c after called.state.2 ∧ called.state.2 = (f.call after c).2 ∧
        ∃ x e, checks.FindsFirst after.cells output x ∧ called.result = .error e ∧
          f.Reports checks x (f.call after c) e := by
  intro used called checks
  have hu := hs.inUse.2.afterAll uses
  constructor
  · intro output houtput
    obtain ⟨l, hl, hrun, hvalid⟩ := call_ok houtput
    obtain ⟨given, -, hgiven, -, honce⟩ := hu.ranOnce hl hrun
    rw [hu.config] at hvalid
    exact ⟨hvalid, given, hgiven, honce⟩
  · intro l output after hl hrun hfinds
    obtain ⟨given, full, hgiven, hfull, honce⟩ := hu.ranOnce hl hrun
    obtain ⟨full', hfull'⟩ := Callable.expandAll_of_length hgiven.length_args.symm hfull
    obtain ⟨x, e, hx, hresult, hreports, hstate⟩ := call_invalid hl hrun (hu.config ▸ hfinds)
    rw [hu.callable, hu.config] at hreports
    rw [hu.callable] at hstate
    rw [hu.config] at hx
    refine ⟨⟨given, hgiven, honce⟩, ?_, hstate, x, e, hx, hresult, hreports⟩
    rw [hstate]
    exact Callable.ranOnce_of_expandAll hfull'

/-- A function that returns a NaN when it runs first, and a zero when it runs again. -/
theorem call_checked_valid_again :
    let body : Cells → List Call → Call → CallResult × Cells := fun cells calls _ =>
      (.ok (.list [.float (if calls.isEmpty then .nan else ⟨0⟩)]), cells)
    let f : Callable := .function ⟨0, "f", none, none, body⟩
    let config : Config := { debugNans := true }
    let s : Staged := { callable := f, resolved := ⟨[], [], [], []⟩, config }
    let c : Call := ⟨[.int 1], .empty⟩
    let once := (f.call .blank c).2
    s.Made f {} config ∧ f.RanOnce c once (s.call .blank c).state.2 ∧
      (∃ x, config.invalidChecks.FindsFirst once.cells (.list [.float .nan]) x ∧
        (s.call .blank c).result = .error (.invalidWhenStaged ⟨"f", .of x⟩)) ∧
      (s.call once c).result.isOk = true ∧ ∀ output, (s.call once c).result = .ok output →
        ¬ config.invalidChecks.Finds (s.call once c).state.2.cells output := by
  intro body f config s c once
  have hs : s.Made f {} config := .direct rfl
  obtain ⟨l, hl⟩ := exists_ok (x := (s.lower World.blank.cells c).result) rfl
  have hrun : l.entry.function.call .blank l.dynamic = (.ok (.list [.float .nan]), once) := by
    cases hl
    rfl
  have hfinds : config.invalidChecks.Finds once.cells (.list [.float .nan]) :=
    ⟨.float .nan, .list (by simp) (.self rfl), .nan, by simp [Value.numbers], .inl ⟨rfl, by decide⟩⟩
  obtain ⟨-, hagain, -, x, e, hx, hresult, hreports⟩ :=
    (call_checked hs [] .blank c).2 l _ _ hl hrun hfinds
  have hvalid : ¬ config.invalidChecks.Finds once.cells (.list [.float ⟨0⟩]) :=
    InvalidChecks.value?_none.mp rfl
  refine ⟨hs, hagain, ⟨x, hx, ?_⟩, by decide, fun output h => ?_⟩
  rotate_left
  · exact ((call_checked hs [] once c).1 output h).1
  have hreports : f.Reports config.invalidChecks x
      (.ok (.list [.float ⟨0⟩]), (f.call once c).2) e := hreports
  cases hreports with
  | invalid h => exact absurd h.finds hvalid
  | valid _ => exact hresult

end Staged

end Staging
