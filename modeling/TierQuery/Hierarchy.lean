/-! The levels of annotation, lowest first: every level is contained by the next one. A name that
occurs twice in a hierarchy counts at its first position. -/

namespace TierQuery

/-- A list without later repetitions. -/
def distinct [DecidableEq α] : List α → List α
  | [] => []
  | a :: as => a :: (distinct as).filter (· ≠ a)

structure Hierarchy where
  levels : List String
deriving DecidableEq

namespace Hierarchy

def ofList (levels : List String) : Hierarchy := ⟨distinct levels⟩

def position? (h : Hierarchy) (level : String) : Option Nat := h.levels.findIdx? (· == level)

def contains (h : Hierarchy) (level : String) : Bool := (h.position? level).isSome

/-- Containment steps from `lower` up to `higher`, at least one. -/
def distance? (h : Hierarchy) (lower higher : String) : Option Nat :=
  match h.position? lower, h.position? higher with
  | some lo, some hi => if lo < hi then some (hi - lo) else none
  | _, _ => none

/-- `upper` contains `lower`. -/
def isAbove (h : Hierarchy) (upper lower : String) : Bool := (h.distance? lower upper).isSome

end Hierarchy

end TierQuery
