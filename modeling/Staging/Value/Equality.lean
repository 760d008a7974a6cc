import Staging.Value.Basic

namespace Staging

/-- What booleans, integers and floats are compared by. -/
inductive Number where
  | int (n : Int)
  | float (x : Binary64)

namespace Number

def equal : Number → Number → Bool
  | .int a, .int b => a == b
  | .float x, .float y => x.equal y
  | .int a, .float x => x.toInt? == some a
  | .float x, .int a => x.toInt? == some a

end Number

/-- One write to a hash. -/
inductive Write where
  | tag (n : Nat)
  | int (n : Int)
  | bits (word : UInt64)
  | text (s : String)
  | length (n : Nat)
  deriving DecidableEq

namespace Number

/-- A float that is an integer is written as the integer. -/
def feed : Number → List Write
  | .int n => [.tag 1, .int n]
  | .float x =>
    match x.toInt? with
    | some n => [.tag 1, .int n]
    | none => [.tag 2, .bits x.bits]

end Number

namespace Value

def number? : Value → Option Number
  | .bool b => some (.int b.toInt)
  | .int n => some (.int n.toInt)
  | .float x => some (.float x)
  | _ => none

mutual

def equal : Value → Value → Bool
  | .absent, .absent => true
  | .str a, .str b => a == b
  | .tuple a, .tuple b => equalAll a b
  | .list a, .list b => equalAll a b
  | .dict a, .dict b => equalEntries a b
  | .tensor a, .tensor b => a.equal b
  | .ref a, .ref b => a == b
  | v, w =>
    match v.number?, w.number? with
    | some a, some b => a.equal b
    | _, _ => false

def equalAll : List Value → List Value → Bool
  | [], [] => true
  | v :: vs, w :: ws => equal v w && equalAll vs ws
  | _, _ => false

def equalEntries : List (String × Value) → List (String × Value) → Bool
  | [], [] => true
  | (k, v) :: vs, (l, w) :: ws => k == l && equal v w && equalEntries vs ws
  | _, _ => false

end

mutual

/-- What hashing a value writes; lists, dicts, tensors and references have no hash. -/
def feed : Value → Except Kind (List Write)
  | .absent => .ok [.tag 0]
  | .bool b => .ok (Number.int b.toInt).feed
  | .int n => .ok (Number.int n.toInt).feed
  | .float x => .ok (Number.float x).feed
  | .str s => .ok [.tag 3, .text s]
  | .tuple items => (feedAll items).map ([.tag 4, .length items.length] ++ ·)
  | .list _ => .error .list
  | .dict _ => .error .dict
  | .tensor _ => .error .tensor
  | .ref _ => .error .ref

def feedAll : List Value → Except Kind (List Write)
  | [] => .ok []
  | v :: vs =>
    match feed v, feedAll vs with
    | .ok a, .ok b => .ok (a ++ b)
    | .error k, _ => .error k
    | .ok _, .error k => .error k

end

def isHashable (v : Value) : Bool := v.feed.isOk

/-- Whether two values have the same hash, if both have one. -/
def hashesAlike? (v w : Value) : Option Bool :=
  match v.feed, w.feed with
  | .ok a, .ok b => some (a == b)
  | _, _ => none

end Value

end Staging
