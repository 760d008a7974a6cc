import Staging.Ascending
import Staging.Roles.Given

namespace Staging

/-- A role both by position and by name. -/
structure Role where
  argnums : List Int
  argnames : List String
  deriving DecidableEq

namespace Signature

/-- Parameters that may be passed either way, with their positions. -/
def eitherWay (sig : Signature) : List (Int × String) :=
  sig.parameters.zipIdx.filterMap fun (p, i) =>
    if p.kind = .positionalOrKeyword then some (i, p.name) else none

def namesAt (sig : Signature) (argnums : List Int) : List String :=
  sig.eitherWay.filterMap fun (i, name) => if i ∈ argnums then some name else none

def positionsOf (sig : Signature) (argnames : List String) : List Int :=
  sig.eitherWay.filterMap fun (i, name) => if name ∈ argnames then some i else none

/-- What is given stands; what is not is found from the other half. -/
def completeRole (sig : Signature) (argnums : Option (List Int)) (argnames : Option (List String)) :
    Role :=
  match argnums, argnames with
  | none, none => ⟨[], []⟩
  | some nums, some names => ⟨ascending nums, ascending names⟩
  | none, some names => ⟨ascending (sig.positionsOf names), ascending names⟩
  | some nums, none => ⟨ascending nums, ascending (sig.namesAt nums)⟩

/-- Reads the two halves of a role and completes it. -/
def inferRole (sig : Signature) (argnums argnames : Option Value) : Except Error Role := do
  let nums ← readGiven Value.toIndices argnums
  let names ← readGiven Value.toNames argnames
  return sig.completeRole nums names

/-- Every index is valid where positional arguments are open-ended. -/
def validateArgnums (sig : Signature) (argnums : List Int) (field : String) : Except Error Unit :=
  let n : Int := sig.numPositional
  if sig.hasVarPositional || argnums.all fun i => -n ≤ i && i < n then .ok ()
  else .error (.invalidArgnums field argnums sig.numPositional)

def hasName (sig : Signature) (name : String) (among : Parameter.Kind → Bool) : Bool :=
  sig.parameters.any fun p => p.name == name && among p.kind

/-- Cannot be named by a keyword argument, and collects none. -/
def takesPositionOnly : Parameter.Kind → Bool
  | .positionalOnly | .varPositional => true
  | _ => false

/-- Any name that is not refused is valid where keyword arguments are open-ended. -/
def validateArgnames (sig : Signature) (argnames : List String) (field : String) :
    Except Error Unit :=
  let requested := ascending argnames
  let closed := requested.filter (sig.hasName · takesPositionOnly)
  let unknown := requested.filter fun name => !sig.hasName name Parameter.Kind.acceptsKeyword
  if !closed.isEmpty then .error (.invalidArgnames field closed .positionalOnly)
  else if sig.varKeyword?.isSome || unknown.isEmpty then .ok ()
  else .error (.invalidArgnames field unknown .unknown)

end Signature

end Staging
