import Staging.Proofs.ArgumentNames
import Staging.Value.Abstract

namespace Staging

namespace Value

/-- The paths to the leaves of a value. -/
def paths (v : Value) : List Path := v.leafPaths.map Prod.fst

theorem length_paths (v : Value) : v.paths.length = v.numLeaves := by
  rw [paths, List.length_map, length_leafPaths]

theorem map_fst_under (step : Step) (found : List (Path × Value)) :
    (under step found).map Prod.fst = (found.map Prod.fst).map (step :: ·) := by
  simp [under, Function.comp_def]

end Value

namespace AbstractValue

open Value (Path)

mutual

/-- The paths to the leaves of whatever was abstracted. -/
def paths : AbstractValue → List Path
  | .scalar .absent => []
  | .tuple items => itemPaths 0 items
  | .list items => itemPaths 0 items
  | .dict entries => entryPaths entries
  | .scalar _ | .tensor _ | .ref _ => [[]]

def itemPaths (index : Nat) : List AbstractValue → List Path
  | [] => []
  | a :: rest => (paths a).map (.item index :: ·) ++ itemPaths (index + 1) rest

def entryPaths : List (String × AbstractValue) → List Path
  | [] => []
  | (k, a) :: rest => (paths a).map (.entry k :: ·) ++ entryPaths rest

end

end AbstractValue

namespace Value

mutual

/-- Whatever the cells hold, the abstract of a value has its leaves where the value has them. -/
theorem paths_abstract (cells : Cells) : ∀ v : Value, (v.abstract cells).paths = v.paths
  | .tuple items => itemPaths_abstract cells 0 items
  | .list items => itemPaths_abstract cells 0 items
  | .dict entries => entryPaths_abstract cells entries
  | .absent | .bool _ | .int _ | .float _ | .str _ | .tensor _ | .ref _ => rfl

theorem itemPaths_abstract (cells : Cells) : ∀ (index : Nat) (vs : List Value),
    AbstractValue.itemPaths index (abstractAll cells vs) = (itemPaths index vs).map Prod.fst
  | _, [] => rfl
  | index, v :: vs => by
    rw [abstractAll, AbstractValue.itemPaths, itemPaths, List.map_append, map_fst_under,
      paths_abstract cells v, itemPaths_abstract cells (index + 1) vs, paths]

theorem entryPaths_abstract (cells : Cells) : ∀ es : List (String × Value),
    AbstractValue.entryPaths (abstractEntries cells es) = (entryPaths es).map Prod.fst
  | [] => rfl
  | (k, v) :: es => by
    rw [abstractEntries, AbstractValue.entryPaths, entryPaths, List.map_append, map_fst_under,
      paths_abstract cells v, entryPaths_abstract cells es, paths]

end

theorem abstractAll_eq_map (cells : Cells) (vs : List Value) :
    abstractAll cells vs = vs.map (abstract cells) := by
  induction vs with
  | nil => rfl
  | cons v vs ih => rw [abstractAll, ih, List.map_cons]

theorem abstractEntries_eq_map (cells : Cells) (es : List (String × Value)) :
    abstractEntries cells es = es.map fun (k, v) => (k, v.abstract cells) := by
  induction es with
  | nil => rfl
  | cons e es ih => rw [abstractEntries, ih, List.map_cons]

end Value

theorem leafNames_eq_map (name : String) (v : Value) :
    leafNames name v = v.paths.map (name ++ ·.text) := by
  rw [leafNames, Value.paths, List.map_map]
  rfl

namespace Call

/-- At every place the arguments of two calls have leaves at the same paths. -/
structure SameLeaves (c d : Call) : Prop where
  arg : ∀ i : Nat, c.args[i]?.map Value.paths = d.args[i]?.map Value.paths
  kwarg : ∀ k, (c.kwargs.get? k).map Value.paths = (d.kwargs.get? k).map Value.paths

namespace SameLeaves

variable {c d : Call} {β : Type}

/-- Calls that look the same in the abstract have leaves at the same places. -/
theorem of_abstract {cells cells' : Cells}
    (hargs : Value.abstractAll cells c.args = Value.abstractAll cells' d.args)
    (hkwargs : Value.abstractEntries cells c.kwargs.entries =
      Value.abstractEntries cells' d.kwargs.entries) : c.SameLeaves d := by
  have hpaths : ∀ cells : Cells, AbstractValue.paths ∘ Value.abstract cells = Value.paths :=
    fun cells => funext (Value.paths_abstract cells)
  rw [Value.abstractAll_eq_map, Value.abstractAll_eq_map] at hargs
  rw [Value.abstractEntries_eq_map, Value.abstractEntries_eq_map] at hkwargs
  constructor
  · intro i
    have hi := congrArg (fun as : List AbstractValue => as[i]?.map AbstractValue.paths) hargs
    simpa [hpaths] using hi
  · intro k
    have hk := congrArg (fun es => (es.lookup k).map AbstractValue.paths) hkwargs
    rwa [Entries.lookup_map fun _ => Value.abstract cells,
      Entries.lookup_map fun _ => Value.abstract cells', Option.map_map, Option.map_map, hpaths,
      hpaths] at hk

theorem map_args (h : c.SameLeaves d) : c.args.map Value.paths = d.args.map Value.paths := by
  apply List.ext_getElem?
  intro i
  rw [List.getElem?_map, List.getElem?_map, h.arg]

theorem map_kwargs (h : c.SameLeaves d) :
    (c.kwargs.entries.map fun (k, v) => (k, v.paths)) =
      d.kwargs.entries.map fun (k, v) => (k, v.paths) := by
  refine (c.kwargs.ascending.map fun _ => Value.paths).ext
    (d.kwargs.ascending.map fun _ => Value.paths) fun k => ?_
  rw [Entries.lookup_map fun _ => Value.paths, Entries.lookup_map fun _ => Value.paths]
  exact h.kwarg k

theorem length_args (h : c.SameLeaves d) : c.args.length = d.args.length := by
  simpa using congrArg List.length h.map_args

theorem contains_kwargs (h : c.SameLeaves d) (k : String) :
    c.kwargs.contains k = d.kwargs.contains k := by
  have hk := congrArg Option.isSome (h.kwarg k)
  rwa [Option.isSome_map, Option.isSome_map, ← Kwargs.contains_eq, ← Kwargs.contains_eq] at hk

/-- What is put together from the places and paths of positional arguments. -/
theorem flatMap_args (h : c.SameLeaves d) (f : List Value.Path → Nat → List β) :
    (c.args.zipIdx.flatMap fun (v, i) => f v.paths i) =
      d.args.zipIdx.flatMap fun (v, i) => f v.paths i := by
  have hpaths : ∀ args : List Value, (args.zipIdx.flatMap fun (v, i) => f v.paths i) =
      (args.map Value.paths).zipIdx.flatMap fun (ps, i) => f ps i := by
    intro args
    rw [List.zipIdx_map, List.flatMap_map]
    rfl
  rw [hpaths, hpaths, h.map_args]

/-- What is put together from the names and paths of keyword arguments. -/
theorem flatMap_kwargs (h : c.SameLeaves d) (f : String → List Value.Path → List β) :
    (c.kwargs.entries.flatMap fun (k, v) => f k v.paths) =
      d.kwargs.entries.flatMap fun (k, v) => f k v.paths := by
  have hpaths : ∀ es : List (String × Value), (es.flatMap fun (k, v) => f k v.paths) =
      (es.map fun (k, v) => (k, v.paths)).flatMap fun (k, ps) => f k ps := by
    intro es
    rw [List.flatMap_map]
  rw [hpaths, hpaths, h.map_kwargs]

theorem donationFlags_eq (h : c.SameLeaves d) (argnums : List Int) (argnames : List String) :
    donationFlags argnums argnames c = donationFlags argnums argnames d := by
  simp only [donationFlags, ← Value.length_paths]
  rw [h.flatMap_args fun ps i => List.replicate ps.length (argnums.contains (i : Int)),
    h.flatMap_kwargs fun k ps => List.replicate ps.length (argnames.contains k)]

/-- A keyword argument is bound under its own name in both calls or in neither. -/
theorem keywordName_eq (h : c.SameLeaves d) (sig : Signature) {k : String}
    (hk : c.kwargs.contains k = true) :
    BoundCall.keywordName ⟨sig, sig.boundArguments c⟩ k =
      BoundCall.keywordName ⟨sig, sig.boundArguments d⟩ k := by
  have hk' : d.kwargs.contains k = true := h.contains_kwargs k ▸ hk
  have hbound : BoundCall.contains ⟨sig, sig.boundArguments c⟩ k =
      BoundCall.contains ⟨sig, sig.boundArguments d⟩ k := by
    by_cases ht : Signature.takes sig.parameters k = true
    · rw [Signature.contains_of_takes hk ht, Signature.contains_of_takes hk' ht]
    · have ht := Bool.eq_false_iff.mpr ht
      rw [Bool.eq_iff_iff, Signature.contains_iff_shadows hk ht,
        Signature.contains_iff_shadows hk' ht]
      exact Signature.Shadows.congr h.length_args h.contains_kwargs
  rw [BoundCall.keywordName, BoundCall.keywordName, hbound]

/-- The names of the leaves of keyword arguments, whatever these are named. -/
theorem flatMap_leafNames_kwargs (h : c.SameLeaves d) (name : String → String) :
    (c.kwargs.entries.flatMap fun (k, v) => leafNames (name k) v) =
      d.kwargs.entries.flatMap fun (k, v) => leafNames (name k) v := by
  simp only [leafNames_eq_map]
  exact h.flatMap_kwargs fun k ps => ps.map (name k ++ ·.text)

/-- The names of the leaves of those positional arguments that are kept. -/
theorem flatMap_leafNames_args (h : c.SameLeaves d) (keep : Nat → Bool) (name : Nat → String) :
    (c.args.zipIdx.flatMap fun (v, i) => if keep i then leafNames (name i) v else []) =
      d.args.zipIdx.flatMap fun (v, i) => if keep i then leafNames (name i) v else [] := by
  simp only [leafNames_eq_map]
  exact h.flatMap_args fun ps i => if keep i then ps.map (name i ++ ·.text) else []

theorem flatMap_plain_eq (h : c.SameLeaves d) :
    c.namedArguments.flatMap (fun (name, v) => leafNames name v) =
      d.namedArguments.flatMap fun (name, v) => leafNames name v := by
  have hargs := h.flatMap_leafNames_args (fun _ => true) Naming.plain.argument
  simp only [↓reduceIte] at hargs
  rw [flatMap_plain_namedArguments, flatMap_plain_namedArguments, hargs,
    h.flatMap_leafNames_kwargs]

theorem flatMap_bound_eq (h : c.SameLeaves d) {sig : Signature} (hc : sig.Binds c)
    (hd : sig.Binds d) :
    (BoundCall.namedArguments ⟨sig, sig.boundArguments c⟩ c.kwargs).flatMap
        (fun (name, v) => leafNames name v) =
      (BoundCall.namedArguments ⟨sig, sig.boundArguments d⟩ d.kwargs).flatMap
        fun (name, v) => leafNames name v := by
  have hnames : ∀ e ∈ c.kwargs.entries,
      leafNames (BoundCall.keywordName ⟨sig, sig.boundArguments c⟩ e.1) e.2 =
        leafNames (BoundCall.keywordName ⟨sig, sig.boundArguments d⟩ e.1) e.2 := by
    intro e he
    rw [h.keywordName_eq sig (Kwargs.contains_iff.mpr ⟨e.2, Kwargs.mem_entries.mp he⟩)]
  rw [Signature.flatMap_namedArguments hc, Signature.flatMap_namedArguments hd,
    List.flatMap_congr hnames, h.flatMap_leafNames_kwargs]
  simp only [← h.contains_kwargs]
  rw [h.flatMap_leafNames_args fun i =>
    (Signature.parameterAt? sig.positional sig.collector? i).all
      fun p => !c.kwargs.contains p.name]

theorem flatMap_namedArguments_eq (h : c.SameLeaves d) (signature : Option Signature) :
    (Staging.namedArguments signature c).flatMap (fun (name, v) => leafNames name v) =
      (Staging.namedArguments signature d).flatMap fun (name, v) => leafNames name v := by
  cases signature with
  | none => exact h.flatMap_plain_eq
  | some sig =>
    by_cases hc : sig.Binds c
    · have hd : sig.Binds d := hc.congr h.length_args.symm fun k => (h.contains_kwargs k).symm
      have hbind := (Signature.bind_ok_iff sig c _).mpr ⟨hc, rfl⟩
      have hbind' := (Signature.bind_ok_iff sig d _).mpr ⟨hd, rfl⟩
      simp only [Staging.namedArguments, hbind, hbind']
      exact h.flatMap_bound_eq hc hd
    · have hd : ¬ sig.Binds d := fun hd => hc (hd.congr h.length_args h.contains_kwargs)
      obtain ⟨e, he⟩ := Signature.bind_error_of_not_binds hc
      obtain ⟨e', he'⟩ := Signature.bind_error_of_not_binds hd
      simp only [Staging.namedArguments, he, he']
      exact h.flatMap_plain_eq

end SameLeaves

end Call

end Staging
