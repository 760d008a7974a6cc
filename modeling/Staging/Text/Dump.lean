import Staging.Text.Quoted

namespace Staging.Text

inductive Dump where
  | word (text : String)
  | text (content : String)
  | applied (name : String) (args : List Dump)
  | record (name : String) (fields : List (String × Dump)) (complete : Bool)
  | list (items : List Dump)
  | map (entries : List (String × Dump))

namespace Dump

def int (n : Int) : Dump := .word (toString n)

def nat (n : Nat) : Dump := .word (toString n)

def bool (b : Bool) : Dump := .word (if b then "true" else "false")

def ints (ns : List Int) : Dump := .list (ns.map int)

def texts (ss : List String) : Dump := .list (ss.map text)

def option : Option Dump → Dump
  | none => .word "None"
  | some d => .applied "Some" [d]

/-- The body of a record; two dots stand for fields that are left out. -/
def braces (name : String) (fields : List String) (complete : Bool) : String :=
  let shown := fields ++ if complete then [] else [".."]
  name ++ " \x7b " ++ ", ".intercalate shown ++ " \x7d"

mutual

def render : Dump → String
  | .word t => t
  | .text t => quote t
  | .applied name args => name ++ "(" ++ ", ".intercalate (renderAll args) ++ ")"
  | .record name fields complete => braces name (renderFields fields) complete
  | .list items => "[" ++ ", ".intercalate (renderAll items) ++ "]"
  | .map entries => "\x7b" ++ ", ".intercalate (renderEntries entries) ++ "\x7d"

def renderAll : List Dump → List String
  | [] => []
  | d :: ds => render d :: renderAll ds

def renderFields : List (String × Dump) → List String
  | [] => []
  | (name, d) :: rest => (name ++ ": " ++ render d) :: renderFields rest

def renderEntries : List (String × Dump) → List String
  | [] => []
  | (key, d) :: rest => (quote key ++ ": " ++ render d) :: renderEntries rest

end

end Dump

end Staging.Text
