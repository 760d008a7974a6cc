import Staging.Text.Split
import Staging.Value.Path

namespace Staging

/-- Where a traced function came from and what its argument leaves are called, for error texts. -/
structure Provenance where
  /-- The transformation the function is traced for. -/
  tracedFor : String
  source : String
  /-- One name for each leaf of the arguments that are not static. -/
  argNames : List String
  /-- One name for each leaf of the result, once it is known. -/
  resultNames : Option (List String) := none
  deriving DecidableEq

namespace Provenance

/-- The source without the location. -/
def functionName (p : Provenance) : String :=
  String.ofList (Text.upTo " at ".toList p.source.toList)

/-- The argument names if there are as many as expected, else so many empty ones. -/
def safeArgNames (p : Provenance) (expected : Nat) : List String :=
  if p.argNames.length = expected then p.argNames else List.replicate expected ""

/-- The name of a leaf; one without a name goes by its index. -/
def leafName (p : Provenance) (leaf : Nat) : String :=
  match p.argNames[leaf]?.filter (!·.isEmpty) with
  | some name => name
  | none => s!"flat index {leaf}"

end Provenance

/-- A name followed by each path to a leaf of a value. -/
def leafNames (name : String) (v : Value) : List String :=
  v.leafPaths.map fun (path, _) => name ++ path.text

def Provenance.withResult (p : Provenance) (result : Value) : Provenance :=
  { p with resultNames := some (leafNames "result" result) }

end Staging
