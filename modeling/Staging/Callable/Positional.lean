import Staging.Callable.Reduced
import Staging.Error

namespace Staging

/-- All arguments by position, defaults among them. A keyword argument that only a name can pass
is an error. -/
def Callable.toPositional (f : Callable) (c : Call) : Except Error (List Value) :=
  match f.signature with
  | none => if c.kwargs.isEmpty then .ok c.args else .error (.unresolvedKeywords c.kwargs.keys)
  | some sig =>
    match sig.bind c with
    | .error e => .error (.binding e)
    | .ok bound =>
      let full := bound.withDefaults
      let passed := full.kwargs.keys.filter (c.kwargs.contains ·)
      if passed.isEmpty then .ok full.args else .error (.unresolvedKeywords passed)

end Staging
