import Staging.Value.Equality

namespace Staging

namespace Parameter

/-- How a parameter may be passed, in the order the kinds take in a signature. -/
inductive Kind where
  | positionalOnly | positionalOrKeyword | varPositional | keywordOnly | varKeyword
  deriving DecidableEq

namespace Kind

def rank : Kind → Nat
  | .positionalOnly => 0
  | .positionalOrKeyword => 1
  | .varPositional => 2
  | .keywordOnly => 3
  | .varKeyword => 4

/-- Takes one positional argument. -/
def isPositional : Kind → Bool
  | .positionalOnly | .positionalOrKeyword => true
  | _ => false

/-- Can be named by a keyword argument. -/
def acceptsKeyword : Kind → Bool
  | .positionalOrKeyword | .keywordOnly => true
  | _ => false

/-- Collects what no other parameter takes. -/
def isVariadic : Kind → Bool
  | .varPositional | .varKeyword => true
  | _ => false

def name : Kind → String
  | .positionalOnly => "positional-only"
  | .positionalOrKeyword => "positional-or-keyword"
  | .varPositional => "var-positional"
  | .keywordOnly => "keyword-only"
  | .varKeyword => "var-keyword"

end Kind

end Parameter

structure Parameter where
  name : String
  kind : Parameter.Kind
  default : Option Value := none

namespace Parameter

def isOptional (p : Parameter) : Bool := p.default.isSome

/-- Equality of parameters; defaults are compared as values are. -/
def equal (p q : Parameter) : Bool :=
  p.name == q.name && p.kind == q.kind &&
    match p.default, q.default with
    | none, none => true
    | some v, some w => v.equal w
    | _, _ => false

end Parameter

inductive SignatureError where
  | emptyName
  | duplicateName (name : String)
  | misplaced (parameter previous : Parameter)
  | requiredAfterOptional (name : String)
  | variadicDefault (parameter : Parameter)
  | unsupportedDefault (text : String)

namespace SignatureError

def message : SignatureError → String
  | .emptyName => "empty parameter name"
  | .duplicateName name => s!"duplicate parameter name: '{name}'"
  | .misplaced p q =>
    s!"{p.kind.name} parameter '{p.name}' cannot follow {q.kind.name} parameter '{q.name}'"
  | .requiredAfterOptional name => s!"non-default parameter '{name}' follows default parameter"
  | .variadicDefault p => s!"{p.kind.name} parameter '{p.name}' cannot have a default value"
  | .unsupportedDefault text => s!"unsupported default value: {text}"

end SignatureError

namespace Signature

/-- A kind may follow itself unless it is variadic, and any kind before it. -/
def mayFollow (p previous : Parameter) : Bool :=
  previous.kind.rank < p.kind.rank || previous.kind == p.kind && !p.kind.isVariadic

/-- The first fault of a parameter that comes after `before`, the nearest of which is first. -/
def fault? (before : List Parameter) (p : Parameter) : Option SignatureError :=
  if p.name.isEmpty then some .emptyName
  else if before.any (·.name == p.name) then some (.duplicateName p.name)
  else
    match before.head?.filter fun q => !mayFollow p q with
    | some q => some (.misplaced p q)
    | none =>
      if p.kind.isPositional && !p.isOptional &&
          before.any fun q => q.kind.isPositional && q.isOptional then
        some (.requiredAfterOptional p.name)
      else if p.kind.isVariadic && p.isOptional then some (.variadicDefault p)
      else none

def checkAfter (before : List Parameter) : List Parameter → Except SignatureError Unit
  | [] => .ok ()
  | p :: ps =>
    match fault? before p with
    | some e => .error e
    | none => checkAfter (p :: before) ps

/-- Reports the first fault of the first faulty parameter. -/
def check (ps : List Parameter) : Except SignatureError Unit := checkAfter [] ps

end Signature

/-- Parameters in the order they are declared. -/
structure Signature where
  parameters : List Parameter
  accepted : Signature.check parameters = .ok ()

namespace Signature

def ofParameters (ps : List Parameter) : Except SignatureError Signature :=
  match h : check ps with
  | .ok () => .ok ⟨ps, h⟩
  | .error e => .error e

/-- All parameters may be passed either way. -/
def ofNames (names : List String) : Except SignatureError Signature :=
  ofParameters (names.map fun name => { name, kind := .positionalOrKeyword })

def find? (sig : Signature) (name : String) : Option Parameter :=
  sig.parameters.find? (·.name == name)

def length (sig : Signature) : Nat := sig.parameters.length

def isEmpty (sig : Signature) : Bool := sig.parameters.isEmpty

def numPositional (sig : Signature) : Nat := sig.parameters.countP (·.kind.isPositional)

def hasVarPositional (sig : Signature) : Bool :=
  sig.parameters.any (·.kind == .varPositional)

def varKeyword? (sig : Signature) : Option String :=
  (sig.parameters.find? (·.kind == .varKeyword)).map (·.name)

/-- Names and kinds: all that the roles of arguments depend on. -/
def kinds (sig : Signature) : List (String × Parameter.Kind) :=
  sig.parameters.map fun p => (p.name, p.kind)

def equal (a b : Signature) : Bool := a.parameters.isEqv b.parameters Parameter.equal

theorem ofParameters_parameters {ps : List Parameter} {sig : Signature}
    (h : ofParameters ps = .ok sig) : sig.parameters = ps := by
  unfold ofParameters at h
  split at h
  · cases h; rfl
  · cases h

end Signature

end Staging
