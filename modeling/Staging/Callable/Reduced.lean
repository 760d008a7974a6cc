import Staging.Callable.Basic
import Staging.Value.Boxed

namespace Staging

/-- A fixed argument, with or without its box. -/
inductive FixedArg where
  | boxed (b : Boxed)
  | plain (v : Value)

namespace FixedArg

def value : FixedArg → Value
  | .boxed b => b.value
  | .plain v => v

def boxed? : FixedArg → Option Boxed
  | .boxed b => some b
  | .plain _ => none

end FixedArg

inductive Transform where
  /-- Positional arguments go to the positions `dynamic`, the fixed ones to the others. -/
  | positions (dynamic : List Nat) (fixed : List FixedArg)
  /-- Keyword arguments are added unless the call has them. -/
  | names (fixed : List (String × Boxed))
  /-- Positional arguments are put before those of the call. -/
  | front (args : List Value)

/-- Fills the empty slots with the fixed values, in order. -/
def fillSlots : List (Option Value) → List Value → Option (List Value)
  | [], _ => some []
  | some v :: slots, fixed => (fillSlots slots fixed).map (v :: ·)
  | none :: slots, v :: fixed => (fillSlots slots fixed).map (v :: ·)
  | none :: _, [] => none

/-- The slots of a call, those at dynamic positions taken. -/
def slotsFor (dynamic : List Nat) (args : List Value) (size : Nat) : List (Option Value) :=
  (List.range size).map fun i => (dynamic.zip args).lookup i

namespace Transform

def apply (t : Transform) (c : Call) : Except CallError Call :=
  match t with
  | .positions dynamic fixed =>
    if c.args.length ≠ dynamic.length then .error (.wrongArity dynamic.length c.args.length)
    else
      let slots := slotsFor dynamic c.args (dynamic.length + fixed.length)
      match fillSlots slots (fixed.map FixedArg.value) with
      | some args => .ok { c with args }
      | none => .error .staticsExhausted
  | .names fixed =>
    .ok { c with
      kwargs := fixed.foldl
        (fun kw (k, b) => if kw.contains k then kw else kw.put k b.value) c.kwargs }
  | .front args => .ok { c with args := args ++ c.args }

end Transform

/-- A transform without what its values are besides boxes. -/
inductive TransformKey where
  | positions (dynamic : List Nat) (fixed : List Boxed)
  | names (fixed : List (String × Boxed))

namespace TransformKey

def same : TransformKey → TransformKey → Bool
  | .positions d f, .positions e g => d == e && f.isEqv g Boxed.equal
  | .names f, .names g => f.isEqv g fun (k, a) (l, b) => k == l && a.equal b
  | _, _ => false

end TransformKey

/-- A transform that holds values without boxes has no key. -/
def Transform.key? : Transform → Option TransformKey
  | .positions dynamic fixed => (fixed.mapM FixedArg.boxed?).map (.positions dynamic)
  | .names fixed => some (.names fixed)
  | .front _ => none

/-- Anything that can be called. A reduced function made into an object of its own has its own
ticket. -/
inductive Callable where
  | function (f : Function)
  | object (ticket : Nat) (inner : Callable) (transforms : List Transform)

namespace Callable

def ticket : Callable → Nat
  | .function f => f.ticket
  | .object ticket _ _ => ticket

def name : Callable → String
  | .function f => f.name
  | .object _ inner _ => inner.name

/-- The signature is that of all arguments, so fixing some hides it. -/
def signature : Callable → Option Signature
  | .function f => f.signature
  | .object _ inner transforms => if transforms.isEmpty then inner.signature else none

def location : Callable → Option SourceLocation
  | .function f => f.location
  | .object _ inner _ => inner.location

def sourceInfo (f : Callable) : String := Staging.sourceInfo f.name f.location

/-- Turns the arguments of a call into those beneath all transforms. -/
def expand (transforms : List Transform) (c : Call) : Except CallError Call :=
  transforms.foldrM (fun t c => t.apply c) c

def call (f : Callable) (w : World) (c : Call) : CallResult × World :=
  match f with
  | .function f => f.run w c
  | .object _ inner transforms =>
    match expand transforms c with
    | .ok full => inner.call w full
    | .error e => (.error e, w)

end Callable

/-- A function and the transforms put on it, the first one first. -/
structure Reduced where
  inner : Callable
  transforms : List Transform

/-- What tells reduced functions apart in a cache. -/
structure ReducedKey where
  inner : Nat
  transforms : List TransformKey

namespace ReducedKey

def same (a b : ReducedKey) : Bool :=
  a.inner == b.inner && a.transforms.isEqv b.transforms TransformKey.same

end ReducedKey

namespace Reduced

def of (f : Callable) : Reduced := ⟨f, []⟩

def push (r : Reduced) (t : Transform) : Reduced := { r with transforms := r.transforms ++ [t] }

/-- The reduced function as an object of its own. -/
def toCallable (r : Reduced) (ticket : Nat) : Callable := .object ticket r.inner r.transforms

def name (r : Reduced) : String := r.inner.name

def signature (r : Reduced) : Option Signature :=
  if r.transforms.isEmpty then r.inner.signature else none

def sourceInfo (r : Reduced) : String := r.inner.sourceInfo

def call (r : Reduced) (w : World) (c : Call) : CallResult × World :=
  match Callable.expand r.transforms c with
  | .ok full => r.inner.call w full
  | .error e => (.error e, w)

def key? (r : Reduced) : Option ReducedKey :=
  (r.transforms.mapM Transform.key?).map fun keys => ⟨r.inner.ticket, keys⟩

def dump (r : Reduced) : Text.Dump :=
  .record "WrappedFun" [("name", .text r.name), ("transforms", .nat r.transforms.length)] true

theorem call_toCallable (r : Reduced) (ticket : Nat) (w : World) (c : Call) :
    (r.toCallable ticket).call w c = r.call w c := by
  simp [toCallable, Callable.call, call]

end Reduced

end Staging
