import Staging.Event
import Staging.Value.Boxed

namespace Staging

/-- What a resolution depends on: names and kinds of the parameters and the roles as given. -/
structure ResolutionKey where
  signature : Option (List (String × Parameter.Kind))
  roles : List (Option Boxed)

namespace ResolutionKey

def sameRole : Option Boxed → Option Boxed → Bool
  | none, none => true
  | some a, some b => a.equal b
  | _, _ => false

def same (a b : ResolutionKey) : Bool :=
  a.signature == b.signature && a.roles.isEqv b.roles sameRole

/-- A role is left unset or boxed; one without a hash cannot be. -/
def boxRole? : Option Value → Option (Option Boxed)
  | none => some none
  | some v => (Boxed.of? v).map some

def of? (signature : Option Signature) (roles : Roles) : Option ResolutionKey := do
  let boxes ← [roles.donateArgnums, roles.donateArgnames, roles.staticArgnums,
    roles.staticArgnames].mapM boxRole?
  return ⟨signature.map (·.kinds), boxes⟩

end ResolutionKey

/-- A resolution under its key, and when it was last used. -/
structure Held where
  key : ResolutionKey
  resolved : Resolved
  lastUsed : Nat

/-- Entries stand in no order; every use moves the clock on. -/
structure ResolutionCache where
  capacity : Nat
  entries : List Held := []
  clock : Nat := 0
  hits : Nat := 0
  misses : Nat := 0

namespace ResolutionCache

def size (cache : ResolutionCache) : Nat := cache.entries.length

def find? (cache : ResolutionCache) (key : ResolutionKey) : Option Held :=
  cache.entries.find? (·.key.same key)

def contains (cache : ResolutionCache) (key : ResolutionKey) : Bool :=
  (cache.find? key).isSome

def tick (cache : ResolutionCache) : ResolutionCache := { cache with clock := cache.clock + 1 }

/-- The entry under a key is used now. -/
def touch (cache : ResolutionCache) (key : ResolutionKey) : ResolutionCache :=
  { cache with
    entries := cache.entries.map fun e =>
      if e.key.same key then { e with lastUsed := cache.clock } else e
    hits := cache.hits + 1 }

/-- The entry that was not used for longest goes. -/
def evict (cache : ResolutionCache) : ResolutionCache :=
  match cache.entries.minOn? (·.lastUsed) with
  | some oldest => { cache with entries := cache.entries.filter (!·.key.same oldest.key) }
  | none => cache

/-- Holds a resolution, used now, in place of what is held under its key. -/
def put (cache : ResolutionCache) (key : ResolutionKey) (r : Resolved) : ResolutionCache :=
  { cache with
    entries := ⟨key, r, cache.clock⟩ :: cache.entries.filter (!·.key.same key) }

/-- Makes room for a new key if there is none, then holds the resolution. -/
def insert (cache : ResolutionCache) (key : ResolutionKey) (r : Resolved) : ResolutionCache :=
  let room :=
    if cache.capacity ≤ cache.size && !cache.contains key then cache.evict else cache
  room.tick.put key r

def clear (cache : ResolutionCache) : ResolutionCache := { capacity := cache.capacity }

end ResolutionCache

/-- Resolves roles and reports success. -/
def Roles.resolveReporting (function : String) (signature : Option Signature) (roles : Roles) :
    Except Error Resolved × List Event :=
  match roles.resolve function signature with
  | .ok r => (.ok r, [.resolved function signature.isSome r])
  | .error e => (.error e, [])

namespace ResolutionCache

/-- Resolves through the cache. Roles that have no hash pass it by, as everything does if it can
hold nothing; failures are not held. -/
def resolve (cache : ResolutionCache) (function : String) (signature : Option Signature)
    (roles : Roles) : Outcome ResolutionCache (Except Error Resolved) :=
  match (ResolutionKey.of? signature roles).filter fun _ => 0 < cache.capacity with
  | none =>
    let (result, events) := roles.resolveReporting function signature
    ⟨result, cache, events⟩
  | some key =>
    let now := cache.tick
    match now.find? key with
    | some entry => ⟨.ok entry.resolved, now.touch key, [.resolutionHit function]⟩
    | none =>
      let missed := { now with misses := now.misses + 1 }
      match roles.resolveReporting function signature with
      | (.ok r, events) => ⟨.ok r, missed.insert key r, events⟩
      | (.error e, events) => ⟨.error e, missed, events⟩

end ResolutionCache

end Staging
