import Staging.Value.Boxed

namespace Staging

/-- What boxing a value writes to its hash. -/
def Boxed.writes (b : Boxed) : List Write :=
  match b.value.feed with
  | .ok writes => writes
  | .error _ => []

/-- How a hash comes from what is written to it, and which elements of a set a box is compared
with. -/
structure Hashing where
  finish : List Write → UInt64
  /-- Elements are compared where their hashes meet. -/
  meets : UInt64 → UInt64 → Bool
  meets_self : ∀ hash, meets hash hash = true

namespace Hashing

/-- The hash that is kept in a box. -/
def hash (hashing : Hashing) (b : Boxed) : UInt64 := hashing.finish b.writes

def finds (hashing : Hashing) (a b : Boxed) : Bool :=
  hashing.meets (hashing.hash a) (hashing.hash b) && a.equal b

def insert (hashing : Hashing) (set : List Boxed) (b : Boxed) : List Boxed :=
  insertNew hashing.finds b set

/-- The set that boxes put in one after the other make up. -/
def setOf (hashing : Hashing) (boxes : List Boxed) : List Boxed :=
  boxes.foldl hashing.insert []

end Hashing

end Staging
