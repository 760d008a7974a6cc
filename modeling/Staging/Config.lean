import Staging.Decimal.Integer
import Staging.Text.Blank
import Staging.Value.Invalid

namespace Staging

structure Config where
  debugNans : Bool := false
  debugInfs : Bool := false
  mutableArrayChecks : Bool := false
  resolveCacheCapacity : Nat := 4096
  deriving DecidableEq

namespace Config

def invalidChecks (c : Config) : InvalidChecks := ⟨c.debugNans, c.debugInfs⟩

/-- Whether any output is looked at. -/
def checksInvalidValues (c : Config) : Bool := c.invalidChecks.any

/-- Blanks and the case of letters do not matter; nothing at all means off. -/
def readFlag? (text : String) : Option Bool :=
  let word := String.ofList ((Text.trim text.toList).map Char.toLower)
  if word ∈ ["1", "true", "yes", "on"] then some true
  else if word ∈ ["0", "false", "no", "off", ""] then some false
  else none

/-- A count in a machine word. -/
def readCapacity? (text : String) : Option Nat :=
  (Decimal.readNat? (Text.trim text.toList)).filter (· < UInt64.size)

/-- What is unset or makes no sense keeps its default. -/
def ofEnvironment (lookup : String → Option String) : Config :=
  let defaults : Config := {}
  let flag (name : String) (default : Bool) := ((lookup name).bind readFlag?).getD default
  { debugNans := flag "JAX_DEBUG_NANS" defaults.debugNans
    debugInfs := flag "JAX_DEBUG_INFS" defaults.debugInfs
    mutableArrayChecks := flag "JAX_MUTABLE_ARRAY_CHECKS" defaults.mutableArrayChecks
    resolveCacheCapacity :=
      ((lookup "JAX_RESOLVE_CACHE_SIZE").bind readCapacity?).getD defaults.resolveCacheCapacity }

end Config

end Staging
