import Staging.Ascending
import Staging.Error

namespace Staging

/-- One sweep over two ascending lists. `passed` static positions lie below all that are left;
fails where a donated position is static. -/
def sweep (passed : Int) : List Int → List Int → Option (List Int)
  | [], _ => some []
  | d :: ds, [] => (sweep passed ds []).map ((d - passed) :: ·)
  | d :: ds, s :: ss =>
    if s < d then sweep (passed + 1) (d :: ds) ss
    else if s = d then none
    else (sweep passed ds (s :: ss)).map ((d - passed) :: ·)
termination_by ds ss => ds.length + ss.length

/-- Negative positions have no place in the count. -/
def rebaseDonated (donate static : List Int) : Except Error (List Int) :=
  let donate := ascending donate
  let static := ascending static
  if donate.isEmpty then .ok []
  else if donate.any (· < 0) || static.any (· < 0) then .error (.negativeArgnums static donate)
  else
    match sweep 0 donate static with
    | some rebased => .ok rebased
    | none => .error (.argnumsIntersect static donate)

/-- No name may be both static and donated. -/
def checkDisjoint (static donate : List String) : Except Error Unit :=
  let both := donate.filter (static.contains ·)
  if both.isEmpty then .ok () else .error (.argnamesIntersect (ascending both))

end Staging
