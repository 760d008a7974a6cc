import Staging.Kwargs
import Staging.Signature.Basic

namespace Staging

/-- The arguments of a call. -/
structure Call where
  args : List Value
  kwargs : Kwargs

inductive BindError where
  | tooManyPositional
  | missing (name : String)
  | multipleValues (name : String)
  | unexpectedKeyword (name : String)
  | positionalOnlyAsKeyword (name : String)
  deriving DecidableEq

namespace BindError

def message : BindError → String
  | .tooManyPositional => "too many positional arguments"
  | .missing name => s!"missing a required argument: '{name}'"
  | .multipleValues name => s!"multiple values for argument '{name}'"
  | .unexpectedKeyword name => s!"got an unexpected keyword argument '{name}'"
  | .positionalOnlyAsKeyword name =>
    s!"'{name}' parameter is positional only, but was passed as a keyword"

end BindError

/-- What a parameter is bound to. -/
inductive Bound where
  | value (v : Value)
  | varArgs (items : List Value)
  | varKwargs (entries : Kwargs)

namespace Bound

/-- Collected arguments as one value. -/
def toValue : Bound → Value
  | .value v => v
  | .varArgs items => .tuple items
  | .varKwargs kw => .dict kw.entries

end Bound

/-- Parameters with what they are bound to, in the order of the signature. -/
abbrev Arguments := List (String × Bound)

namespace Signature

/-- How far positional arguments go: the parameters they are bound to, the parameters after those
and the arguments that no parameter takes. -/
structure Placed where
  arguments : Arguments
  parameters : List Parameter
  surplus : List Value

def Placed.push (name : String) (b : Bound) (p : Placed) : Placed :=
  { p with arguments := (name, b) :: p.arguments }

/-- A parameter that has its value by position must not have another by name. -/
def place (kwargs : Kwargs) : List Parameter → List Value → Except BindError Placed
  | p :: ps, v :: vs =>
    match p.kind with
    | .positionalOnly => (place kwargs ps vs).map (.push p.name (.value v))
    | .positionalOrKeyword =>
      if kwargs.contains p.name then .error (.multipleValues p.name)
      else (place kwargs ps vs).map (.push p.name (.value v))
    | .varPositional => .ok ⟨[(p.name, .varArgs (v :: vs))], ps, []⟩
    | .keywordOnly | .varKeyword => .ok ⟨[], p :: ps, v :: vs⟩
  | ps, vs => .ok ⟨[], ps, vs⟩

/-- Parameters that keyword arguments are bound to, and the keyword arguments left. -/
structure Named where
  arguments : Arguments
  rest : Kwargs

/-- Takes keyword arguments for the parameters that no positional argument reached. With
`absorbs` a parameter collects keyword arguments that fit no other. -/
def takeKeywords (absorbs : Bool) : List Parameter → Kwargs → Except BindError Named
  | [], kwargs => .ok ⟨[], kwargs⟩
  | p :: ps, kwargs =>
    match p.kind with
    | .varPositional | .varKeyword => takeKeywords absorbs ps kwargs
    | .positionalOnly =>
      if kwargs.contains p.name && !absorbs then .error (.positionalOnlyAsKeyword p.name)
      else if p.isOptional then takeKeywords absorbs ps kwargs
      else .error (.missing p.name)
    | .positionalOrKeyword | .keywordOnly =>
      match kwargs.get? p.name with
      | some v =>
        (takeKeywords absorbs ps (kwargs.erase p.name)).map fun n =>
          { n with arguments := (p.name, .value v) :: n.arguments }
      | none => if p.isOptional then takeKeywords absorbs ps kwargs else .error (.missing p.name)

end Signature

/-- The arguments of a call bound to the parameters of a signature. -/
structure BoundCall where
  signature : Signature
  arguments : Arguments

namespace Signature

def bind (sig : Signature) (c : Call) : Except BindError BoundCall := do
  let placed ← place c.kwargs sig.parameters c.args
  if !placed.surplus.isEmpty then throw .tooManyPositional
  let named ← takeKeywords sig.varKeyword?.isSome placed.parameters c.kwargs
  let bound := placed.arguments ++ named.arguments
  match named.rest.keys, sig.varKeyword? with
  | [], _ => return ⟨sig, bound⟩
  | _ :: _, some collector => return ⟨sig, bound ++ [(collector, .varKwargs named.rest)]⟩
  | key :: _, none => throw (.unexpectedKeyword key)

end Signature

namespace BoundCall

def get? (b : BoundCall) (name : String) : Option Bound := b.arguments.lookup name

def contains (b : BoundCall) (name : String) : Bool := (b.get? name).isSome

/-- What a parameter is bound to if the call says nothing about it. -/
def fallback? (p : Parameter) : Option Bound :=
  match p.kind with
  | .varPositional => some (.varArgs [])
  | .varKeyword => some (.varKwargs .empty)
  | _ => p.default.map .value

/-- Every parameter with its own argument or its default. -/
def withDefaults (b : BoundCall) : BoundCall :=
  { b with
    arguments := b.signature.parameters.filterMap fun p =>
      (b.get? p.name <|> fallback? p).map fun bound => (p.name, bound) }

/-- The positional arguments of parameters up to the first that is unbound. -/
def positional (b : BoundCall) : List Parameter → List Value
  | [] => []
  | p :: ps =>
    match p.kind, b.get? p.name with
    | .keywordOnly, _ | .varKeyword, _ => []
    | _, some (.varArgs items) => items ++ positional b ps
    | _, some (.value v) => v :: positional b ps
    | _, _ => []

/-- The arguments to pass by position. -/
def args (b : BoundCall) : List Value := b.positional b.signature.parameters

/-- The parameters to pass by name: the keyword-only ones and those after the first positional
parameter that is unbound. -/
def named (b : BoundCall) : List Parameter → List Parameter
  | [] => []
  | p :: ps =>
    match p.kind with
    | .keywordOnly | .varKeyword => p :: ps
    | _ => if b.contains p.name then named b ps else ps

/-- Adds what a parameter is bound to to keyword arguments. -/
def pass (b : BoundCall) (kw : Kwargs) (p : Parameter) : Kwargs :=
  match b.get? p.name with
  | some (.value v) => kw.put p.name v
  | some (.varKwargs more) => kw.merge more
  | _ => kw

/-- The arguments to pass by name. -/
def kwargs (b : BoundCall) : Kwargs := (b.named b.signature.parameters).foldl b.pass .empty

/-- The call that binding reads off again. -/
def toCall (b : BoundCall) : Call := ⟨b.args, b.kwargs⟩

end BoundCall

end Staging
