import Staging.Value.Basic

namespace Staging

structure Kwargs where
  entries : List (String × Value)
  ascending : Entries.Ascending entries

namespace Kwargs

def empty : Kwargs := ⟨[], List.Pairwise.nil⟩

instance : Inhabited Kwargs := ⟨empty⟩

def ofList (pairs : List (String × Value)) : Kwargs :=
  ⟨Entries.ofList pairs, Entries.ascending_ofList pairs⟩

def isEmpty (kw : Kwargs) : Bool := kw.entries.isEmpty

def keys (kw : Kwargs) : List String := kw.entries.map Prod.fst

def values (kw : Kwargs) : List Value := kw.entries.map Prod.snd

def get? (kw : Kwargs) (key : String) : Option Value := kw.entries.lookup key

def contains (kw : Kwargs) (key : String) : Bool := kw.entries.any (·.1 == key)

def put (kw : Kwargs) (key : String) (v : Value) : Kwargs :=
  ⟨Entries.put key v kw.entries, kw.ascending.put⟩

def filter (kw : Kwargs) (p : String × Value → Bool) : Kwargs :=
  ⟨kw.entries.filter p, kw.ascending.filter p⟩

def erase (kw : Kwargs) (key : String) : Kwargs := kw.filter (·.1 != key)

def map (kw : Kwargs) (f : String → Value → Value) : Kwargs :=
  ⟨kw.entries.map fun (k, v) => (k, f k v), kw.ascending.map f⟩

/-- The entries of `other` win. -/
def merge (kw other : Kwargs) : Kwargs :=
  other.entries.foldl (fun out (k, v) => out.put k v) kw

theorem eq_of_entries {a b : Kwargs} (h : a.entries = b.entries) : a = b := by
  cases a; cases b; simpa using h

end Kwargs

end Staging
