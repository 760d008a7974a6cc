import Staging.Ascending
import Staging.Callable.Reduced
import Staging.Error

namespace Staging

/-- Positions from indices, the negative ones counted from the end. Indices past the end are
dropped if that is allowed; the first index that is no position otherwise is an error. -/
def positionsIn (count : Int) (dropPastEnd : Bool) : List Int → Except Int (List Nat)
  | [] => .ok []
  | i :: is =>
    if dropPastEnd ∧ count ≤ i then positionsIn count dropPastEnd is
    else if -count ≤ i ∧ i < count then
      (positionsIn count dropPastEnd is).map ((i % count).toNat :: ·)
    else .error i

/-- Positions among `numArgs` arguments. -/
def ensureInBounds (dropPastEnd : Bool) (numArgs : Nat) (argnums : List Int) :
    Except Error (List Nat) :=
  (positionsIn numArgs dropPastEnd argnums).mapError fun i => .indexOutOfBounds i numArgs

/-- As `ensureInBounds` for a count in a machine word, whose upper half reads as negative. -/
def ensureInBoundsWord (dropPastEnd : Bool) (numArgs : UInt64) (argnums : List Int) :
    Except Error (List Nat) :=
  (positionsIn numArgs.toInt64.toInt dropPastEnd argnums).mapError fun i =>
    .indexOutOfBounds i numArgs.toNat

/-- Boxes a static argument of a function. -/
def boxStatic (v : Value) (place : ArgPlace) (function : String) : Except Error Boxed :=
  match Boxed.of? v with
  | some b => .ok b
  | none => .error (.unhashableStatic place v.kind function)

/-- The arguments at some positions, in the order of the positions. -/
def pick (args : List Value) (positions : List Nat) : List Value :=
  positions.filterMap (args[·]?)

/-- The positions of a list of arguments that are not among some. -/
def otherPositions (args : List Value) (positions : List Nat) : List Nat :=
  (List.range args.length).filter (!positions.contains ·)

/-- Fixes the arguments at some positions in boxes. -/
def boxAt (function : String) (args : List Value) (positions : List Nat) :
    Except Error (List FixedArg) :=
  (positions.filterMap fun i => args[i]?.map (i, ·)).mapM fun (i, v) =>
    (boxStatic v (.index i) function).map .boxed

namespace Reduced

/-- Fixes every argument that is not at one of the indices. Without boxes the result has no
key. -/
def keepArgnums (r : Reduced) (dynamic : List Int) (args : List Value) (boxed : Bool) :
    Except Error (Reduced × List Value) := do
  let dynamic := (← ensureInBounds false args.length dynamic).eraseDups
  let static := otherPositions args dynamic
  let fixed ← if boxed then boxAt r.name args static else pure ((pick args static).map .plain)
  return (r.push (.positions dynamic fixed), pick args dynamic)

/-- Fixes the arguments at the indices. -/
def fixArgnums (r : Reduced) (static : List Int) (args : List Value) (dropPastEnd : Bool) :
    Except Error (Reduced × List Value) := do
  if static.isEmpty then return (r, args)
  let static := ascending (← ensureInBounds dropPastEnd args.length static)
  let dynamic := otherPositions args static
  let fixed ← boxAt r.name args static
  return (r.push (.positions dynamic fixed), pick args dynamic)

/-- Fixes the keyword arguments of the given names. -/
def fixArgnames (r : Reduced) (static : List String) (kwargs : Kwargs) :
    Except Error (Reduced × Kwargs) := do
  if static.isEmpty then return (r, kwargs)
  let fixed ← (kwargs.filter (static.contains ·.1)).entries.mapM fun (k, v) =>
    (boxStatic v (.name k) r.name).map (k, ·)
  return (r.push (.names fixed), kwargs.filter (!static.contains ·.1))

/-- Fixes positional arguments before all others, without boxes. -/
def prepend (r : Reduced) (args : List Value) : Reduced := r.push (.front args)

end Reduced

end Staging
