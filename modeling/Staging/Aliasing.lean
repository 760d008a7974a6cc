import Staging.Error

namespace Staging

def Value.cell? : Value → Option CellId
  | .ref cell => some cell
  | _ => none

/-- The leaves of arguments, each with its cell if it is a reference. -/
def leafCells (args : List Value) : List (Option CellId) :=
  args.flatMap fun v => v.leaves.map Value.cell?

/-- A cell at a leaf, and an earlier leaf with the same cell. -/
structure Repeat where
  cell : CellId
  first : Nat
  second : Nat
  deriving DecidableEq

/-- The first leaf, counted from `leaf`, whose cell was seen before. `seen` has every cell with
its first leaf. -/
def repeatFrom (leaf : Nat) (seen : List (CellId × Nat)) : List (Option CellId) → Option Repeat
  | [] => none
  | none :: rest => repeatFrom (leaf + 1) seen rest
  | some cell :: rest =>
    match seen.lookup cell with
    | some first => some ⟨cell, first, leaf⟩
    | none => repeatFrom (leaf + 1) ((cell, leaf) :: seen) rest

def repeatedCell? (args : List Value) : Option Repeat := repeatFrom 0 [] (leafCells args)

/-- Fails if a cell is at two leaves of the arguments. -/
def checkArgsUnaliased (provenance : Option Provenance) (cells : Cells) (args : List Value) :
    Except Error Unit :=
  match repeatedCell? args with
  | none => .ok ()
  | some r => .error (.aliasedArgs provenance (cells.read r.cell).type r.first r.second)

/-- The first leaf that is a reference to one of some cells. -/
def sharedCell? (closedOver : List CellId) (leaves : List (Option CellId)) :
    Option (CellId × Nat) :=
  leaves.zipIdx.findSome? fun (cell?, leaf) =>
    cell?.bind fun cell => if closedOver.contains cell then some (cell, leaf) else none

/-- Fails if a cell is both a leaf of what is closed over and of the arguments. -/
def checkClosedOverUnaliased (provenance : Option Provenance) (cells : Cells)
    (consts args : List Value) : Except Error Unit :=
  match sharedCell? ((leafCells consts).filterMap id) (leafCells args) with
  | none => .ok ()
  | some (cell, leaf) => .error (.aliasedClosedOver provenance (cells.read cell).type leaf)

end Staging
