import Staging.Callable.Splitting

namespace Staging

/-- Static arguments by position and by name. -/
structure Statics where
  argnums : List Int
  argnames : List String

namespace Statics

/-- The call with its static arguments made absent, so that they have no leaves. -/
def mask (s : Statics) (c : Call) : Except Error Call := do
  let positions ← ensureInBounds true c.args.length s.argnums
  return {
    args := c.args.zipIdx.map fun (v, i) => if positions.contains i then .absent else v
    kwargs := c.kwargs.map fun k v => if s.argnames.contains k then .absent else v }

end Statics

/-- A keyword argument as collected under a name. -/
def underKey (collector key : String) : String := collector ++ "['" ++ key ++ "']"

/-- The name of a keyword argument: its own if a parameter of that name is bound. -/
def BoundCall.keywordName (b : BoundCall) (key : String) : String :=
  if b.contains key then key else underKey (b.signature.varKeyword?.getD "kwargs") key

/-- Arguments with their names when a signature binds them: those bound by position, then the
keyword arguments. -/
def BoundCall.namedArguments (b : BoundCall) (kwargs : Kwargs) : List (String × Value) :=
  let byPosition := b.arguments.filter fun (name, _) =>
    !kwargs.contains name && some name != b.signature.varKeyword?
  byPosition.map (fun (name, bound) => (name, bound.toValue)) ++
    kwargs.entries.map fun (k, v) => (b.keywordName k, v)

/-- Arguments with their names when no signature binds them. -/
def Call.namedArguments (c : Call) : List (String × Value) :=
  ("args", .tuple c.args) :: c.kwargs.entries.map fun (k, v) => (underKey "kwargs" k, v)

def namedArguments (signature : Option Signature) (c : Call) : List (String × Value) :=
  match signature with
  | none => c.namedArguments
  | some sig =>
    match sig.bind c with
    | .ok b => b.namedArguments c.kwargs
    | .error _ => c.namedArguments

/-- The names of the leaves of the arguments that are not static. -/
def nonStaticArgNames (signature : Option Signature) (c : Call) (statics : Statics) :
    Except Error (List String) := do
  let masked ← statics.mask c
  return (namedArguments signature masked).flatMap fun (name, v) => leafNames name v

/-- The provenance of a call. The source and the signature are the function's own unless others
are given. -/
def Callable.provenance (f : Callable) (tracedFor : String) (c : Call) (statics : Statics)
    (source : Option String) (signature : Option Signature) : Except Error Provenance := do
  let argNames ← nonStaticArgNames (signature <|> f.signature) c statics
  return { tracedFor, source := source.getD f.sourceInfo, argNames }

end Staging
