import Staging.Callable.Reduced
import Staging.Event

namespace Staging

/-- The error to report: that of the run if it fails, its output's if that is invalid too, else
that staging made the value invalid. -/
def Callable.recheck (f : Callable) (found : InvalidValue) (checks : InvalidChecks) (w : World)
    (c : Call) : Outcome World Error :=
  let (result, after) := f.call w c
  let error :=
    match result with
    | .error e => .call e
    | .ok output =>
      match checks.output? after.cells f.name output with
      | some invalid => .invalidOutput invalid
      | none => .invalidWhenStaged found
  ⟨error, after, [.invalidOutput f.name found.kind]⟩

end Staging
