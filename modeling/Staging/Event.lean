import Staging.Roles.Resolved

namespace Staging

inductive Event where
  | resolved (function : String) (hasSignature : Bool) (roles : Resolved)
  | resolutionHit (function : String)
  | entryHit (function : String)
  | compiling (function : String) (argNames : List String) (donated : Nat)
  | invalidOutput (function : String) (kind : InvalidKind)

namespace Event

def level : Event → String
  | .resolved .. | .compiling .. => "DEBUG"
  | .resolutionHit _ | .entryHit _ => "TRACE"
  | .invalidOutput .. => "WARN"

def message : Event → String
  | .resolved .. => "resolved argnums"
  | .resolutionHit _ => "argnum resolution cache hit"
  | .entryHit _ => "jit cache hit"
  | .compiling .. => "jit cache miss, compiling"
  | .invalidOutput _ kind =>
    s!"Invalid {kind.name} value encountered in the output of a jit function. " ++
      "Calling the de-optimized version."

def function : Event → String
  | .resolved f _ _ | .resolutionHit f | .entryHit f | .compiling f _ _ | .invalidOutput f _ => f

/-- What an event says beside the function it is about. -/
def details : Event → List (String × String)
  | .resolved _ hasSignature roles =>
    [("has_signature", if hasSignature then "true" else "false"), ("resolved", roles.dump.render)]
  | .compiling _ argNames donated =>
    [("arg_names", (Text.Dump.texts argNames).render), ("donated", toString donated)]
  | _ => []

end Event

/-- What a step comes to, the state it leaves and the events on its way. -/
structure Outcome (σ α : Type) where
  result : α
  state : σ
  events : List Event

end Staging
