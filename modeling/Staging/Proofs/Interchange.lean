import Staging.Proofs.Keys
import Staging.Proofs.Matching
import Staging.Proofs.Substitution

namespace Staging

theorem isSome_of_rel {α β : Type} {R : α → β → Prop} {x : Option α} {y : Option β}
    (h : Option.Rel R x y) : x.isSome = y.isSome := by
  cases h <;> rfl

theorem lookup_zip_map_right {α β : Type} (f : α → β) (ps : List Nat) (xs : List α) (i : Nat) :
    (ps.zip (xs.map f)).lookup i = ((ps.zip xs).lookup i).map f := by
  induction ps generalizing xs with
  | nil => rfl
  | cons p ps ih =>
    cases xs with
    | nil => rfl
    | cons x xs =>
      simp only [List.map_cons, List.zip_cons_cons, List.lookup_cons, ih]
      cases i == p <;> rfl

theorem lookup_zip_rel {α β : Type} {R : α → β → Prop} {xs : List α} {ys : List β}
    (h : List.Forall₂ R xs ys) (ps : List Nat) (i : Nat) :
    Option.Rel R ((ps.zip xs).lookup i) ((ps.zip ys).lookup i) := by
  induction h generalizing ps with
  | nil => simp
  | cons hxy _ ih =>
    cases ps with
    | nil => exact .none
    | cons p ps =>
      simp only [List.zip_cons_cons, List.lookup_cons]
      cases i == p with
      | true => exact .some hxy
      | false => exact ih ps

/-- Arguments that were boxed alike are as many, and match where no position was left open. -/
theorem Transform.Opens.matches_of_boxes {dynamic : List Nat} {boxes boxes' : List Boxed}
    {args args' : List Value} (ho : Opens (.positions dynamic (boxes.map .boxed)) args dynamic)
    (ho' : Opens (.positions dynamic (boxes'.map .boxed)) args' dynamic)
    (h : List.Forall₂ (fun x y => x.equal y = true) boxes boxes') :
    args.length = args'.length ∧
      ∀ i < args.length, i ∉ dynamic → (argAt args i).Matches (argAt args' i) := by
  obtain ⟨fixed, heq, hlen, hf⟩ := ho.held
  obtain ⟨fixed', heq', hlen', hf'⟩ := ho'.held
  obtain ⟨-, rfl⟩ := Transform.positions.inj heq
  obtain ⟨-, rfl⟩ := Transform.positions.inj heq'
  rw [List.length_map] at hlen hlen'
  have hsize : args.length = args'.length := by rw [← hlen, ← hlen', h.length_eq]
  have hothers : otherPositions args' dynamic = otherPositions args dynamic := by
    rw [otherPositions, otherPositions, hsize]
  rw [FixedArg.map_value_boxed, pick_otherPositions] at hf hf'
  have hvalues : List.Forall₂ Value.Matches (boxes.map Boxed.value) (boxes'.map Boxed.value) := by
    rw [List.forall₂_map_left_iff, List.forall₂_map_right_iff]
    exact h.imp fun _ _ => Boxed.equal_iff_matches.mp
  rw [hf, hf', hothers, List.forall₂_map_left_iff, List.forall₂_map_right_iff,
    List.forall₂_same] at hvalues
  exact ⟨hsize, fun i hi hd => hvalues i (mem_otherPositions.mpr ⟨hi, hd⟩)⟩

/-- What a positional argument is: one of those that a call has, or a value that was fixed. -/
inductive Slot (count : Nat) where
  | given (i : Fin count)
  | fixed (v : Value)

namespace Slot

variable {count : Nat}

def fill (args : List Value) (h : args.length = count) : Slot count → Value
  | .given i => args.get (i.cast h.symm)
  | .fixed v => v

@[simp] theorem fill_given (f : Fin count → Value) (i : Fin count) :
    (given i).fill (List.ofFn f) List.length_ofFn = f i := by
  simp [fill]

/-- A slot is known by what it is filled with. -/
theorem ext_fill {s t : Slot count}
    (h : ∀ (args : List Value) (hargs : args.length = count),
      s.fill args hargs = t.fill args hargs) : s = t := by
  have hof : ∀ f : Fin count → Value,
      s.fill (List.ofFn f) List.length_ofFn = t.fill (List.ofFn f) List.length_ofFn :=
    fun f => h _ _
  have hvaries : ∀ (i : Fin count) (v : Value), ¬ ∀ f : Fin count → Value, f i = v := by
    intro i v hv
    cases (hv fun _ => .bool true).trans (hv fun _ => .bool false).symm
  cases s with
  | given i =>
    cases t with
    | given j =>
      have hmarked := hof fun k => .bool (k = i)
      simp only [fill_given, Value.bool.injEq, decide_true, true_eq_decide_iff] at hmarked
      rw [hmarked]
    | fixed v => exact absurd (fun f => (fill_given f i).symm.trans (hof f)) (hvaries i v)
  | fixed v =>
    cases t with
    | given j => exact absurd (fun f => (fill_given f j).symm.trans (hof f).symm) (hvaries j v)
    | fixed w => exact congrArg fixed (hof fun _ => .absent)

/-- The same argument of a call, or fixed values that are equal with the same kinds throughout. -/
inductive Matches : Slot count → Slot count → Prop where
  | given (i : Fin count) : Matches (.given i) (.given i)
  | fixed {v w : Value} (h : v.Matches w) : Matches (.fixed v) (.fixed w)

end Slot

/-- What the arguments of calls with `count` positional ones become: each positional argument is
one of the call or fixed, and values were fixed under names. -/
structure Filling (count : Nat) where
  slots : List (Slot count)
  names : Kwargs

namespace Filling

variable {count : Nat} {a b : Filling count} {t t' : Transform} {dynamic : List Nat}
  {args args' : List Value}

/-- What a call becomes. Its keyword arguments go before those fixed under their names. -/
def fill (a : Filling count) (c : Call) (h : c.args.length = count) : Call where
  args := a.slots.map (Slot.fill c.args h)
  kwargs := a.names.merge c.kwargs

structure Matches (a b : Filling count) : Prop where
  slots : List.Forall₂ Slot.Matches a.slots b.slots
  names : ∀ k, Option.Rel Value.Matches (a.names.get? k) (b.names.get? k)

/-- With nothing fixed. -/
def plain (count : Nat) : Filling count := ⟨(List.finRange count).map .given, .empty⟩

theorem plain_matches (count : Nat) : (plain count).Matches (plain count) := by
  refine ⟨?_, fun k => .none⟩
  rw [plain, List.forall₂_map_left_iff, List.forall₂_map_right_iff, List.forall₂_same]
  exact fun i _ => .given i

theorem fill_plain (c : Call) (h : c.args.length = count) : (plain count).fill c h = c := by
  subst h
  have hargs : (plain c.args.length).slots.map (Slot.fill c.args rfl) = c.args := by
    rw [plain, List.map_map]
    exact List.map_get_finRange c.args
  have hkwargs : (plain c.args.length).names.merge c.kwargs = c.kwargs := by
    apply Kwargs.ext_get?
    intro k
    rw [Kwargs.get?_merge]
    exact Option.or_none
  rw [fill, hargs, hkwargs]

/-- A filling is known by what calls without keyword arguments become. -/
theorem ext_fill (h : ∀ (args : List Value) (hargs : args.length = count),
    a.fill ⟨args, .empty⟩ hargs = b.fill ⟨args, .empty⟩ hargs) : a = b := by
  have hslots : ∀ (args : List Value) (hargs : args.length = count),
      a.slots.map (Slot.fill args hargs) = b.slots.map (Slot.fill args hargs) :=
    fun args hargs => congrArg Call.args (h args hargs)
  let blank := List.replicate count Value.absent
  have hblank : blank.length = count := List.length_replicate
  have hlen := congrArg List.length (hslots blank hblank)
  rw [List.length_map, List.length_map] at hlen
  have hsame : a.slots = b.slots := by
    refine List.ext_getElem hlen fun i hi hi' => Slot.ext_fill fun args hargs => ?_
    have hslot := congrArg (·[i]?) (hslots args hargs)
    simpa [hi, hi'] using hslot
  have hnames : a.names = b.names := congrArg Call.kwargs (h blank hblank)
  exact congrArg₂ mk hsame hnames

/-- Puts what there is at the dynamic positions; the others hold the fixed arguments. -/
def place (a : Filling count) (args : List Value) (dynamic : List Nat) : Filling count where
  slots := (List.range args.length).map fun i =>
    ((dynamic.zip a.slots).lookup i).getD (.fixed (argAt args i))
  names := a.names

def adopt (a : Filling count) (fixed : List (String × Boxed)) : Filling count :=
  { a with names := Transform.adopt fixed a.names }

theorem apply_fill (ht : t.Opens args dynamic) (ha : a.slots.length = dynamic.length) (c : Call)
    (h : c.args.length = count) :
    t.apply (a.fill c h) = .ok ((a.place args dynamic).fill c h) := by
  obtain ⟨fixed, rfl, -, hf⟩ := ht.held
  have hslots : substitute args dynamic (a.slots.map (Slot.fill c.args h)) =
      (a.place args dynamic).slots.map (Slot.fill c.args h) := by
    rw [substitute, place, List.map_map]
    apply List.map_congr_left
    intro i _
    rw [lookup_zip_map_right, Function.comp_apply]
    cases (dynamic.zip a.slots).lookup i <;> rfl
  rw [fill, Transform.apply_positions_substitute ht.distinct ht.bounds hf (by simpa using ha),
    hslots]
  rfl

theorem apply_fill_refused (ht : t.Opens args dynamic) (ha : a.slots.length ≠ dynamic.length)
    (c : Call) (h : c.args.length = count) :
    t.apply (a.fill c h) = .error (.wrongArity dynamic.length a.slots.length) := by
  have hlen : (a.slots.map (Slot.fill c.args h)).length = a.slots.length := List.length_map _
  rw [fill, ht.apply_refused (by rwa [hlen]), hlen]

theorem apply_names_fill (fixed : List (String × Boxed)) (c : Call) (h : c.args.length = count) :
    (Transform.names fixed).apply (a.fill c h) = .ok ((a.adopt fixed).fill c h) := by
  have hnames : Transform.adopt fixed (a.names.merge c.kwargs) =
      (Transform.adopt fixed a.names).merge c.kwargs := by
    apply Kwargs.ext_get?
    intro k
    rw [Transform.get?_adopt, Kwargs.get?_merge, Kwargs.get?_merge, Transform.get?_adopt,
      Option.or_assoc]
  rw [fill, Transform.apply_names_adopt, hnames]
  rfl

namespace Matches

/-- Positions left open hold what there was, all others fixed arguments that match. -/
theorem place (hm : a.Matches b) (ha : a.slots.length = dynamic.length)
    (hlen : args.length = args'.length)
    (hv : ∀ i < args.length, i ∉ dynamic → (argAt args i).Matches (argAt args' i)) :
    (a.place args dynamic).Matches (b.place args' dynamic) := by
  refine ⟨?_, hm.names⟩
  rw [Filling.place, Filling.place, ← hlen, List.forall₂_map_left_iff, List.forall₂_map_right_iff,
    List.forall₂_same]
  intro i hi
  have hopen := lookup_zip_isNone ha i
  have hrel := lookup_zip_rel hm.slots dynamic i
  generalize (dynamic.zip a.slots).lookup i = x at hopen hrel
  generalize (dynamic.zip b.slots).lookup i = y at hrel
  cases hrel with
  | some h => exact h
  | none =>
    refine .fixed (hv i (List.mem_range.mp hi) ?_)
    simpa using hopen.symm

theorem adopt (hm : a.Matches b) {named named' : List (String × Boxed)}
    (h : List.Forall₂ (fun x y => x.1 = y.1 ∧ x.2.equal y.2 = true) named named') :
    (a.adopt named).Matches (b.adopt named') := by
  refine ⟨hm.slots, fun k => ?_⟩
  have hnamed : List.Forall₂ (fun x y : String × Value => x.1 = y.1 ∧ x.2.Matches y.2)
      (named.map fun e => (e.1, e.2.value)) (named'.map fun e => (e.1, e.2.value)) := by
    rw [List.forall₂_map_left_iff, List.forall₂_map_right_iff]
    exact h.imp fun _ _ hxy => ⟨hxy.1, Boxed.equal_iff_matches.mp hxy.2⟩
  have hlookup := Entries.lookup_rel hnamed k
  have hnames := hm.names k
  rw [Filling.adopt, Filling.adopt, Transform.get?_adopt, Transform.get?_adopt]
  generalize a.names.get? k = x at hnames
  generalize b.names.get? k = y at hnames
  cases hnames with
  | some h => exact .some h
  | none => exact hlookup

end Matches

end Filling

/-- Two ways of completing calls: they refuse those with `count` positional arguments for the same
reason, or complete them with what they match in. -/
inductive Lockstep (count : Nat) (run run' : Call → Except CallError Call) : Prop where
  | refused (expected given : Nat)
    (h : ∀ c, c.args.length = count → run c = .error (.wrongArity expected given) ∧
      run' c = .error (.wrongArity expected given))
  | filled {a b : Filling count} (hm : a.Matches b)
    (h : ∀ c hc, run c = .ok (a.fill c hc) ∧ run' c = .ok (b.fill c hc))

namespace Lockstep

variable {count : Nat} {a b : Filling count} {t t' : Transform} {ts ts' : List Transform}

theorem nil : Lockstep count (Callable.expand []) (Callable.expand []) :=
  .filled (Filling.plain_matches count) fun c hc => by
    rw [Filling.fill_plain]
    exact ⟨rfl, rfl⟩

/-- One transform more on either side, given what the calls come to before it. -/
theorem step (hs : t.Same t') (ht : t.Made) (ht' : t'.Made) (hm : a.Matches b) :
    (∃ expected given, ∀ c (hc : c.args.length = count),
      t.apply (a.fill c hc) = .error (.wrongArity expected given) ∧
        t'.apply (b.fill c hc) = .error (.wrongArity expected given)) ∨
    ∃ a' b' : Filling count, a'.Matches b' ∧ ∀ c (hc : c.args.length = count),
      t.apply (a.fill c hc) = .ok (a'.fill c hc) ∧ t'.apply (b.fill c hc) = .ok (b'.fill c hc) := by
  cases hs with
  | names h =>
    exact .inr ⟨_, _, hm.adopt h, fun c hc =>
      ⟨Filling.apply_names_fill _ c hc, Filling.apply_names_fill _ c hc⟩⟩
  | @positions dynamic boxes boxes' h =>
    obtain ⟨args, ho⟩ := ht.opens
    obtain ⟨args', ho'⟩ := ht'.opens
    have hslots : a.slots.length = b.slots.length := hm.slots.length_eq
    by_cases ha : a.slots.length = dynamic.length
    · refine .inr ⟨_, _, hm.place ha ?_ ?_, fun c hc =>
        ⟨Filling.apply_fill ho ha c hc, Filling.apply_fill ho' (hslots ▸ ha) c hc⟩⟩
      · exact (ho.matches_of_boxes ho' h).1
      · exact (ho.matches_of_boxes ho' h).2
    · refine .inl ⟨_, _, fun c hc => ⟨Filling.apply_fill_refused ho ha c hc, ?_⟩⟩
      rw [hslots] at ha ⊢
      exact Filling.apply_fill_refused ho' ha c hc

theorem cons (hs : t.Same t') (ht : t.Made) (ht' : t'.Made)
    (h : Lockstep count (Callable.expand ts) (Callable.expand ts')) :
    Lockstep count (Callable.expand (t :: ts)) (Callable.expand (t' :: ts')) := by
  cases h with
  | refused expected given h =>
    refine .refused expected given fun c hc => ?_
    rw [Callable.expand_cons, Callable.expand_cons, (h c hc).1, (h c hc).2]
    exact ⟨rfl, rfl⟩
  | filled hm h =>
    rcases step hs ht ht' hm with ⟨expected, given, hr⟩ | ⟨a', b', hm', hf⟩
    · refine .refused expected given fun c hc => ?_
      rw [Callable.expand_cons, Callable.expand_cons, (h c hc).1, (h c hc).2]
      exact hr c hc
    · refine .filled hm' fun c hc => ?_
      rw [Callable.expand_cons, Callable.expand_cons, (h c hc).1, (h c hc).2]
      exact hf c hc

/-- By induction on the transforms, the last of which meets a call first. -/
theorem expand (hs : List.Forall₂ Transform.Same ts ts') (ht : ∀ t ∈ ts, t.Made)
    (ht' : ∀ t ∈ ts', t.Made) : Lockstep count (Callable.expand ts) (Callable.expand ts') := by
  induction hs with
  | nil => exact nil
  | cons hs _ ih =>
    obtain ⟨hfirst, hrest⟩ := List.forall_mem_cons.mp ht
    obtain ⟨hfirst', hrest'⟩ := List.forall_mem_cons.mp ht'
    exact cons hs hfirst hfirst' (ih hrest hrest')

end Lockstep

/-- What calls come to has as many arguments on both sides, and keyword arguments for the same
names. -/
theorem Filling.Matches.shape {count : Nat} {a b : Filling count} (hm : a.Matches b) (c : Call)
    (hc : c.args.length = count) : (a.fill c hc).args.length = (b.fill c hc).args.length ∧
      (a.fill c hc).kwargs.keys = (b.fill c hc).kwargs.keys := by
  constructor
  · rw [fill, fill, List.length_map, List.length_map, hm.slots.length_eq]
  · apply Kwargs.keys_eq
    intro k
    rw [fill, fill, Kwargs.get?_merge, Kwargs.get?_merge, Option.isSome_or, Option.isSome_or,
      isSome_of_rel (hm.names k)]

/-- Functions made from the same one by taking arguments off, with the same key, can stand for one
another. Calls with any number of positional arguments either are refused by both, for the same
reason, and nothing runs; or become calls of the function beneath on both sides, with as many
positional arguments and the same names. There what the call gives is in the same places, its own
keyword arguments included, and all fixed values are equal with the same kinds throughout. -/
theorem Reduced.interchangeable {f : Callable} {r r' : Reduced} {k k' : ReducedKey}
    (hr : Built f r) (hr' : Built f r') (hk : r.key? = some k) (hk' : r'.key? = some k')
    (hs : k.same k' = true) (count : Nat) :
    (∃ expected given, ∀ w c, c.args.length = count →
      r.call w c = (.error (.wrongArity expected given), w) ∧
        r'.call w c = (.error (.wrongArity expected given), w)) ∨
    ∃ a b : Filling count, a.Matches b ∧ ∀ w c (hc : c.args.length = count),
      (r.call w c = f.call w (a.fill c hc) ∧ r'.call w c = f.call w (b.fill c hc)) ∧
        (a.fill c hc).args.length = (b.fill c hc).args.length ∧
        (a.fill c hc).kwargs.keys = (b.fill c hc).kwargs.keys := by
  have hsame := (same_of_key hk hk' hs).2
  have hlockstep : Lockstep count (Callable.expand r.transforms) (Callable.expand r'.transforms) :=
    .expand hsame hr.made hr'.made
  cases hlockstep with
  | refused expected given h =>
    refine .inl ⟨expected, given, fun w c hc => ?_⟩
    rw [call, call, (h c hc).1, (h c hc).2]
    exact ⟨rfl, rfl⟩
  | @filled a b hm h =>
    refine .inr ⟨a, b, hm, fun w c hc => ⟨?_, hm.shape c hc⟩⟩
    rw [call, call, (h c hc).1, (h c hc).2, hr.inner_eq, hr'.inner_eq]
    exact ⟨rfl, rfl⟩

/-- The argument in the middle and a name are fixed, with zeros of either sign. -/
theorem Reduced.interchangeable_zeros :
    let f : Callable := .function (.echo 0)
    let zero : Boxed := ⟨.float ⟨0⟩, rfl⟩
    let negative : Boxed := ⟨.float ⟨0x8000000000000000⟩, rfl⟩
    let reduced (b : Boxed) : Reduced :=
      ⟨f, [.positions [0, 2] [.boxed b], .names [("mode", b)]]⟩
    let filling (b : Boxed) : Filling 2 :=
      ⟨[.given 0, .fixed b.value, .given 1], .ofList [("mode", b.value)]⟩
    ∃ k k', (Built f (reduced zero) ∧ Built f (reduced negative) ∧
      (reduced zero).key? = some k ∧ (reduced negative).key? = some k' ∧ k.same k' = true) ∧
      (filling zero).Matches (filling negative) ∧ ∀ w c (hc : c.args.length = 2),
        (reduced zero).call w c = f.call w ((filling zero).fill c hc) ∧
          (reduced negative).call w c = f.call w ((filling negative).fill c hc) := by
  intro f zero negative reduced filling
  let inner (b : Boxed) : Reduced := ⟨f, [.positions [0, 2] [.boxed b]]⟩
  have hbuilt : ∀ b : Boxed,
      (of f).fixArgnums [1] [.int 5, b.value, .int 7] true = .ok (inner b, [.int 5, .int 7]) →
      (inner b).fixArgnames ["mode"] (.ofList [("mode", b.value)]) = .ok (reduced b, .empty) →
      Built f (reduced b) := fun b hargs hnames => .fixNames (.fix .of hargs) hnames
  have hzero := hbuilt zero rfl rfl
  have hnegative := hbuilt negative rfl rfl
  have hsame : ∃ k k', (reduced zero).key? = some k ∧ (reduced negative).key? = some k' ∧
      k.same k' = true := ⟨_, _, rfl, rfl, by decide⟩
  obtain ⟨k, k', hk, hk', hs⟩ := hsame
  refine ⟨k, k', ⟨hzero, hnegative, hk, hk', hs⟩, ?_⟩
  -- the calls of the function beneath tell which filling they come from
  have hfilling : ∀ (b : Boxed) (a : Filling 2), (∀ w c (hc : c.args.length = 2),
      (reduced b).call w c = f.call w (a.fill c hc)) → a = filling b := by
    intro b a h
    refine Filling.ext_fill fun args hargs => ?_
    obtain ⟨x, y, rfl⟩ := List.length_eq_two.mp hargs
    exact Function.run_inj ((h .blank ⟨[x, y], .empty⟩ rfl).symm.trans rfl)
  rcases interchangeable hzero hnegative hk hk' hs 2 with ⟨expected, given, h⟩ | ⟨a, b, hm, h⟩
  · -- a call with two arguments is not refused
    have herror := congrArg (fun o => o.1.isOk) (h .blank ⟨[.int 1, .int 2], .empty⟩ rfl).1
    cases herror
  · obtain rfl := hfilling zero a fun w c hc => (h w c hc).1.1
    obtain rfl := hfilling negative b fun w c hc => (h w c hc).1.2
    exact ⟨hm, fun w c hc => (h w c hc).1⟩

end Staging
