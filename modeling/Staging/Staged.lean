import Staging.Aliasing
import Staging.Config
import Staging.Provenance.Naming
import Staging.Recheck
import Staging.Roles.ResolutionCache
import Staging.Staged.Entry

namespace Staging

/-- A function with what is compiled for its static arguments and the shapes of the dynamic ones. -/
structure Staged where
  callable : Callable
  resolved : Resolved
  config : Config
  entries : List (EntryKey × Entry) := []
  nextTicket : Nat := 0

/-- An entry and the arguments to pass to it. -/
structure Lowered where
  entry : Entry
  dynamic : Call

namespace Staged

def name (s : Staged) : String := s.callable.name

def cacheSize (s : Staged) : Nat := s.entries.length

def clear (s : Staged) : Staged := { s with entries := [] }

/-- Stages a function without a cache of resolutions. -/
def make (f : Callable) (roles : Roles) (config : Config) : Except Error Staged × List Event :=
  let (resolved, events) := roles.resolveReporting f.name f.signature
  (resolved.map fun r => { callable := f, resolved := r, config }, events)

/-- Stages a function through a cache of resolutions. -/
def makeWith (cache : ResolutionCache) (f : Callable) (roles : Roles) (config : Config) :
    Outcome ResolutionCache (Except Error Staged) :=
  let o := cache.resolve f.name f.signature roles
  { o with result := o.result.map fun r => { callable := f, resolved := r, config } }

def split (s : Staged) (c : Call) : Except Error SplitCall := do
  let (r, args) ← (Reduced.of s.callable).fixArgnums s.resolved.staticArgnums c.args true
  let (r, kwargs) ← r.fixArgnames s.resolved.staticArgnames c.kwargs
  return ⟨r, ⟨args, kwargs⟩⟩

def provenance (s : Staged) (c : Call) : Except Error Provenance :=
  s.callable.provenance "jit" c ⟨s.resolved.staticArgnums, s.resolved.staticArgnames⟩ none none

/-- The dynamic arguments must not share cells; names are looked up only if they do. -/
def checkUnaliased (s : Staged) (cells : Cells) (c : Call) (values : List Value) :
    Except Error Unit := do
  if s.config.mutableArrayChecks && (repeatedCell? values).isSome then
    checkArgsUnaliased (some (← s.provenance c)) cells values

def find? (s : Staged) (key : EntryKey) : Option Entry :=
  (s.entries.find? fun e => e.1.same key).map Prod.snd

def compile (s : Staged) (c : Call) (split : SplitCall) : Except Error Entry := do
  let provenance ← s.provenance c
  return {
    ticket := s.nextTicket
    function := split.function
    provenance
    donated :=
      donationFlags s.resolved.donateArgnums s.resolved.donateArgnames split.dynamic }

/-- Holds a new entry, if it has a key. -/
def hold (s : Staged) (key? : Option EntryKey) (entry : Entry) : Staged :=
  let entries := match key? with
    | some key => s.entries ++ [(key, entry)]
    | none => s.entries
  { s with entries, nextTicket := s.nextTicket + 1 }

/-- Finds the entry for a call that was split, or compiles one. -/
def fetch (s : Staged) (cells : Cells) (c : Call) (split : SplitCall) :
    Outcome Staged (Except Error Lowered) :=
  let key? := split.key? cells
  match key?.bind s.find? with
  | some entry => ⟨.ok ⟨entry, split.dynamic⟩, s, [.entryHit s.name]⟩
  | none =>
    match s.compile c split with
    | .error e => ⟨.error e, s, []⟩
    | .ok entry =>
      ⟨.ok ⟨entry, split.dynamic⟩, s.hold key? entry,
        [.compiling s.name entry.provenance.argNames (entry.donated.count true)]⟩

/-- The entry for a call and the arguments to pass to it. -/
def lower (s : Staged) (cells : Cells) (c : Call) : Outcome Staged (Except Error Lowered) :=
  match s.split c with
  | .error e => ⟨.error e, s, []⟩
  | .ok split =>
    match s.checkUnaliased cells c split.values with
    | .error e => ⟨.error e, s, []⟩
    | .ok () => s.fetch cells c split

/-- Looks at the output of a staged call if the configuration says so. -/
def inspect (s : Staged) (w : World) (c : Call) (output : Value) :
    Outcome World (Except Error Value) :=
  let checks := s.config.invalidChecks
  match checks.output? w.cells s.name output with
  | none => ⟨.ok output, w, []⟩
  | some found =>
    let o := s.callable.recheck found checks w c
    ⟨.error o.result, o.state, o.events⟩

/-- Calls the function through its entry. -/
def call (s : Staged) (w : World) (c : Call) : Outcome (Staged × World) (Except Error Value) :=
  let lowered := s.lower w.cells c
  match lowered.result with
  | .error e => ⟨.error e, (lowered.state, w), lowered.events⟩
  | .ok l =>
    match l.entry.function.call w l.dynamic with
    | (.error e, after) => ⟨.error (.call e), (lowered.state, after), lowered.events⟩
    | (.ok output, after) =>
      let o := s.inspect after c output
      ⟨o.result, (lowered.state, o.state), lowered.events ++ o.events⟩

end Staged

end Staging
