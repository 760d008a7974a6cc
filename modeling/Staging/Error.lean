import Staging.Callable.Basic
import Staging.Provenance.Basic
import Staging.Value.Invalid

namespace Staging

/-- How an argument is told apart in a call. -/
inductive ArgPlace where
  | index (i : Nat)
  | name (n : String)

namespace ArgPlace

def text : ArgPlace → String
  | .index i => s!"index {i}"
  | .name n => s!"name {n}"

end ArgPlace

/-- Why names were refused for a role. -/
inductive NameFault where
  | positionalOnly | unknown
  deriving DecidableEq

namespace NameFault

def text : NameFault → String
  | .positionalOnly => "These are positional-only"
  | .unknown => "Function does not take these args."

end NameFault

inductive Error where
  | notAnIndex (kind : Value.Kind)
  | notIndices (v : Value)
  | notAName (v : Value)
  | notNames (v : Value)
  | unresolvedKeywords (names : List String)
  | invalidArgnums (field : String) (argnums : List Int) (numPositional : Nat)
  | invalidArgnames (field : String) (names : List String) (fault : NameFault)
  | indexOutOfBounds (index : Int) (numArgs : Nat)
  | signatureUnavailable (function : String)
  | argnumsIntersect (static donate : List Int)
  | negativeArgnums (static donate : List Int)
  | argnamesIntersect (names : List String)
  | unhashableStatic (place : ArgPlace) (kind : Value.Kind) (function : String)
  | binding (e : BindError)
  | invalidSignature (e : SignatureError)
  /-- A cell at two leaves of the arguments. -/
  | aliasedArgs (provenance : Option Provenance) (type : TensorType) (first second : Nat)
  /-- A cell both closed over and passed as an argument leaf. -/
  | aliasedClosedOver (provenance : Option Provenance) (type : TensorType) (leaf : Nat)
  | invalidOutput (i : InvalidValue)
  /-- The value was invalid, but not when the function ran unstaged. -/
  | invalidWhenStaged (i : InvalidValue)
  | call (e : CallError)

namespace Error

open Text (Dump)

def listed (ns : List Int) : String := (Dump.ints ns).render

def namesListed (names : List String) : String := (Dump.texts names).render

def aliasedArgsText (provenance : Option Provenance) (type : TensorType) (first second : Nat) :
    String :=
  "only one reference to a mutable array may be passed as an argument to a function, but " ++
    match provenance with
    | some p =>
      s!"when tracing {p.source} for {p.tracedFor} the mutable array reference of type " ++
        s!"{type.refText} appeared at both {p.leafName first} and {p.leafName second}."
    | none =>
      s!"the mutable array reference of type {type.refText} appeared at both flat index " ++
        s!"{first} and flat index {second}."

def aliasedClosedOverText (provenance : Option Provenance) (type : TensorType) (leaf : Nat) :
    String :=
  match provenance with
  | some p =>
    s!"when tracing {p.source} for {p.tracedFor}, a mutable array reference of type " ++
      s!"{type.refText} was both closed over and passed as the argument {p.leafName leaf}"
  | none =>
    s!"a mutable array reference of type {type.refText} was both closed over and passed as " ++
      s!"the argument at flat index {leaf}"

def invalidWhenStagedText (i : InvalidValue) : String :=
  i.text ++ ". Because debug_nans and/or debug_infs is set, the de-optimized function (i.e., " ++
    "the function as if the `jit` decorator were removed) was called in an attempt to get a more " ++
    "precise error message. However, the de-optimized function did not produce invalid values " ++
    "during its execution. This behavior can result from `jit` optimizations causing the invalid " ++
    "value to be produced. It may also arise from having nan/inf literals as inputs or outputs." ++
    "\n\nIt may be possible to avoid the invalid value by removing the `jit` decorator, at the " ++
    "cost of losing optimizations."

/-- Values are shown with what the cells hold. -/
def message (cells : Cells) : Error → String
  | .notAnIndex kind => s!"'{kind.name}' object cannot be interpreted as an integer"
  | .notIndices v =>
    s!"expected a static index or sequence of indices, got {v.shown cells} of type {v.kind.name}"
  | .notAName v => s!"argument is not a string: {v.shown cells}"
  | .notNames v =>
    s!"expected a string or sequence of strings, got {v.shown cells} of type {v.kind.name}"
  | .unresolvedKeywords names =>
    "The following keyword arguments could not be resolved to positions: " ++
      ", ".intercalate names
  | .invalidArgnums field argnums n =>
    s!"Jitted function has {field}={listed argnums}, but only accepts {n} positional arguments."
  | .invalidArgnames field names fault =>
    s!"Jitted function has invalid argnames {namesListed names} in {field}. {fault.text}"
  | .indexOutOfBounds index numArgs =>
    "Positional argument indices, e.g. for `static_argnums`, must have value greater than or " ++
      "equal to -len(args) and less than len(args), but got value " ++
      s!"{index} for len(args) == {numArgs}."
  | .signatureUnavailable function =>
    s!"Getting the signature of function {function} failed. Pass donate_argnums instead of " ++
      "donate_argnames."
  | .argnumsIntersect static donate =>
    s!"`static_argnums` {listed static} and `donate_argnums` {listed donate} cannot intersect."
  | .negativeArgnums static donate =>
    "Cannot rebase donated arguments past static ones with negative indices: " ++
      s!"`static_argnums` {listed static}, `donate_argnums` {listed donate}. Negative argnums " ++
      "are only resolved against a signature without *args."
  | .argnamesIntersect names =>
    "static_argnames and donate_argnames cannot intersect. Argument names " ++
      s!"{namesListed names} appear in both static_argnames and donate_argnames"
  | .unhashableStatic place kind function =>
    "Non-hashable static arguments are not supported, as this can lead to unexpected " ++
      s!"cache-misses. Static argument ({place.text}) of type {kind.name} for function " ++
      s!"{function} is non-hashable."
  | .binding e => e.message
  | .invalidSignature e => "invalid signature: " ++ e.message
  | .aliasedArgs p type first second => aliasedArgsText p type first second
  | .aliasedClosedOver p type leaf => aliasedClosedOverText p type leaf
  | .invalidOutput i => i.text
  | .invalidWhenStaged i => invalidWhenStagedText i
  | .call e => e.message

end Error

end Staging
