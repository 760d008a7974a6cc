import Staging.Roles.Remaining
import Staging.Roles.Role

namespace Staging

/-- Roles as given; each half may be left unset. -/
structure Roles where
  donateArgnums : Option Value := none
  donateArgnames : Option Value := none
  staticArgnums : Option Value := none
  staticArgnames : Option Value := none

/-- Roles resolved. Donated positions count the dynamic arguments only, static ones all. -/
structure Resolved where
  donateArgnums : List Int
  donateArgnames : List String
  staticArgnums : List Int
  staticArgnames : List String
  deriving DecidableEq

namespace Resolved

open Text (Dump)

def dump (r : Resolved) : Dump :=
  .record "ResolvedArgnums"
    [("donate_argnums", .ints r.donateArgnums), ("donate_argnames", .texts r.donateArgnames),
      ("static_argnums", .ints r.staticArgnums), ("static_argnames", .texts r.staticArgnames)] true

end Resolved

/-- Both roles before donated positions are rebased. -/
structure RolePair where
  static : Role
  donate : Role

namespace Signature

/-- Negative indices count from the end where the positional parameters have one. -/
def wrapIndex (sig : Signature) (i : Int) : Int :=
  if i < 0 && !sig.hasVarPositional then i + sig.numPositional else i

def wrapArgnums (sig : Signature) (field : String) (argnums : Option Value) :
    Except Error (Option (List Int)) := do
  match ← readGiven Value.toIndices argnums with
  | none => return none
  | some nums =>
    sig.validateArgnums nums field
    return some (nums.map sig.wrapIndex)

def validateRole (sig : Signature) (role : Role) (numsField namesField : String) :
    Except Error Unit := do
  sig.validateArgnums role.argnums numsField
  sig.validateArgnames role.argnames namesField

def rolePair (sig : Signature) (roles : Roles) : Except Error RolePair := do
  let staticNums ← sig.wrapArgnums "static_argnums" roles.staticArgnums
  let donateNums ← sig.wrapArgnums "donate_argnums" roles.donateArgnums
  let staticNames ← readGiven Value.toNames roles.staticArgnames
  let donateNames ← readGiven Value.toNames roles.donateArgnames
  let static := sig.completeRole staticNums staticNames
  let donate := sig.completeRole donateNums donateNames
  sig.validateRole static "static_argnums" "static_argnames"
  sig.validateRole donate "donate_argnums" "donate_argnames"
  return ⟨static, donate⟩

end Signature

namespace Roles

/-- Without a signature nothing is found or validated, and donated names mean nothing. -/
def unsignedPair (function : String) (roles : Roles) : Except Error RolePair := do
  if roles.donateArgnames.isSome then throw (.signatureUnavailable function)
  let staticNums ← readGiven Value.toIndices roles.staticArgnums
  let staticNames ← readGiven Value.toNames roles.staticArgnames
  let donateNums ← readGiven Value.toIndices roles.donateArgnums
  return {
    static := ⟨ascending (staticNums.getD []), ascending (staticNames.getD [])⟩
    donate := ⟨ascending (donateNums.getD []), []⟩ }

def pair (function : String) (signature : Option Signature) (roles : Roles) :
    Except Error RolePair :=
  match signature with
  | some sig => sig.rolePair roles
  | none => roles.unsignedPair function

/-- Resolves the roles of a function. -/
def resolve (function : String) (signature : Option Signature) (roles : Roles) :
    Except Error Resolved := do
  let p ← roles.pair function signature
  checkDisjoint p.static.argnames p.donate.argnames
  let donateArgnums ← rebaseDonated p.donate.argnums p.static.argnums
  return {
    donateArgnums
    donateArgnames := p.donate.argnames
    staticArgnums := p.static.argnums
    staticArgnames := p.static.argnames }

end Roles

end Staging
