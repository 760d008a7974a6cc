import Staging.Callable.Reduced
import Staging.Provenance.Basic
import Staging.Value.Abstract
import Staging.Value.Path

namespace Staging

/-- Positional arguments come first, then keyword arguments in the order of their names. -/
def donationFlags (argnums : List Int) (argnames : List String) (c : Call) : List Bool :=
  (c.args.zipIdx.flatMap fun (v, i) => List.replicate v.numLeaves (argnums.contains (i : Int))) ++
    c.kwargs.entries.flatMap fun (k, v) => List.replicate v.numLeaves (argnames.contains k)

/-- What was compiled for one set of static arguments and one shape of dynamic ones. -/
structure Entry where
  ticket : Nat
  function : Reduced
  provenance : Provenance
  donated : List Bool

/-- What an entry is found by. -/
structure EntryKey where
  function : ReducedKey
  args : List AbstractValue
  kwargs : List (String × AbstractValue)

namespace EntryKey

def same (a b : EntryKey) : Bool :=
  a.function.same b.function && a.args == b.args && a.kwargs == b.kwargs

end EntryKey

/-- A call split off its static arguments: the reduced function and its arguments. -/
structure SplitCall where
  function : Reduced
  dynamic : Call

namespace SplitCall

def key? (s : SplitCall) (cells : Cells) : Option EntryKey :=
  s.function.key?.map fun function =>
    { function
      args := Value.abstractAll cells s.dynamic.args
      kwargs := Value.abstractEntries cells s.dynamic.kwargs.entries }

/-- Positional arguments, then keyword arguments in the order of their names. -/
def values (s : SplitCall) : List Value := s.dynamic.args ++ s.dynamic.kwargs.values

end SplitCall

end Staging
