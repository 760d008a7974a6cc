import Staging.Signature.Binding
import Staging.Signature.Text

namespace Staging

/-- How a call of a user function fails. The last two are faults of the arguments that a reduced
function is given. -/
inductive CallError where
  | floatingPoint (text : String)
  | zeroDivision (text : String)
  | other (text : String)
  | wrongArity (expected given : Nat)
  | staticsExhausted
  deriving DecidableEq

namespace CallError

def message : CallError → String
  | .floatingPoint text => "FloatingPointError: " ++ text
  | .zeroDivision text => "ZeroDivisionError: " ++ text
  | .other text => text
  | .wrongArity expected given =>
    s!"expected {expected} dynamic positional arguments, got {given}"
  | .staticsExhausted => "static arguments exhausted"

/-- Faults of arithmetic on floats, division by zero among them. -/
def isFloatingPoint : CallError → Bool
  | .floatingPoint _ | .zeroDivision _ => true
  | _ => false

end CallError

abbrev CallResult := Except CallError Value

structure SourceLocation where
  file : String
  line : Nat
  deriving DecidableEq

namespace SourceLocation

def text (l : SourceLocation) : String := l.file ++ ":" ++ toString l.line

end SourceLocation

/-- A named function. Tickets tell functions apart that look alike. -/
structure Function where
  ticket : Nat
  name : String
  signature : Option Signature
  location : Option SourceLocation
  body : Cells → List Call → Call → CallResult × Cells

/-- A function's ticket and the arguments it was given. -/
structure Run where
  function : Nat
  call : Call

structure World where
  cells : Cells
  runs : List Run

namespace World

/-- The calls a function had, in order. -/
def callsOf (w : World) (ticket : Nat) : List Call :=
  w.runs.filterMap fun r => if r.function = ticket then some r.call else none

end World

namespace Function

def run (f : Function) (w : World) (c : Call) : CallResult × World :=
  let (result, cells) := f.body w.cells (w.callsOf f.ticket) c
  (result, ⟨cells, w.runs ++ [⟨f.ticket, c⟩]⟩)

/-- What a function was called with can be told from the record. -/
theorem run_inj {f : Function} {w : World} {c d : Call} (h : f.run w c = f.run w d) : c = d := by
  have hruns : w.runs ++ [⟨f.ticket, c⟩] = w.runs ++ [⟨f.ticket, d⟩] :=
    congrArg (fun out => out.2.runs) h
  cases List.append_cancel_left hruns
  rfl

end Function

namespace Parameter

def kindDump : Kind → Text.Dump
  | .positionalOnly => .word "PositionalOnly"
  | .positionalOrKeyword => .word "PositionalOrKeyword"
  | .varPositional => .word "VarPositional"
  | .keywordOnly => .word "KeywordOnly"
  | .varKeyword => .word "VarKeyword"

def dump (cells : Cells) (p : Parameter) : Text.Dump :=
  .record "Parameter"
    [("name", .text p.name), ("kind", kindDump p.kind),
      ("default", .option (p.default.map (·.dump cells)))] true

end Parameter

def Signature.dump (cells : Cells) (sig : Signature) : Text.Dump :=
  .record "Signature" [("parameters", .list (sig.parameters.map (·.dump cells)))] true

def SourceLocation.dump (l : SourceLocation) : Text.Dump :=
  .record "SourceLocation" [("file", .text l.file), ("line", .nat l.line)] true

/-- Everything about a function but its body. -/
def Function.dump (cells : Cells) (f : Function) : Text.Dump :=
  .record "Function"
    [("name", .text f.name), ("signature", .option (f.signature.map (·.dump cells))),
      ("location", .option (f.location.map (·.dump)))] false

/-- A name and, if it is known, where the function was defined. A name that is empty or holds
blanks is no name. -/
def sourceInfo (name : String) (location : Option SourceLocation) : String :=
  if name.isEmpty || name.toList.any Text.isBlank then "<unknown>"
  else
    match location with
    | some l => name ++ " at " ++ l.text
    | none => name

end Staging
