import TierQuery.Hierarchy
import TierQuery.Joined
import TierQuery.NameSet

/-! Tiers of annotation as queries address them: a level of the hierarchy reached from an origin by
hops, narrowed to a discourse and to subsets. Two tiers are equal exactly when they denote the same
node of a pattern. -/

namespace TierQuery

/-- One step from a tier to a related one. -/
inductive Hop
  | following
  | previous
  | up (level : String)
  | speaker
deriving DecidableEq

/-- The name of a hop in paths, column names and variables. -/
def Hop.segment : Hop → String
  | following => "following"
  | previous => "previous"
  | up level => level
  | speaker => "speaker"

structure Tier where
  origin : String
  hops : List Hop
  discourse : Option String
  typeSubsets : NameSet
  tokenSubsets : NameSet
deriving DecidableEq

namespace Tier

def ofLevel (level : String) : Tier := ⟨level, [], none, .empty, .empty⟩

def depth (a : Tier) : Nat := a.hops.length

def hasSubsets (a : Tier) : Bool := !a.typeSubsets.isEmpty || !a.tokenSubsets.isEmpty

/-- The level that a hop leads to from the level `name`. -/
def levelAfter (name : String) : Hop → String
  | .following | .previous => name
  | .up level => level
  | .speaker => "speaker"

/-- The level the hops end at. -/
def name (a : Tier) : String := a.hops.foldl levelAfter a.origin

def isSpeaker (a : Tier) : Bool := a.hops.getLast? == some .speaker

/-- The position of the last level on the way that the hierarchy knows. -/
def position? (h : Hierarchy) (a : Tier) : Option Nat :=
  a.hops.foldl
    (fun p hop =>
      match hop with
      | .up level => (h.position? level).or p
      | _ => p)
    (h.position? a.origin)

def segmentPath (a : Tier) : String := joinWith "_" (a.hops.map Hop.segment)

/-- One hop further. Subsets narrow the last position only, so the new position has none. -/
def hop (a : Tier) (h : Hop) : Tier :=
  { a with hops := a.hops ++ [h], typeSubsets := .empty, tokenSubsets := .empty }

def withTypeSubset (a : Tier) (s : String) : Tier :=
  { a with typeSubsets := a.typeSubsets.insert s }

def withTokenSubset (a : Tier) (s : String) : Tier :=
  { a with tokenSubsets := a.tokenSubsets.insert s }

def withDiscourse (a : Tier) (d : Option String) : Tier := { a with discourse := d }

def withoutSubsets (a : Tier) : Tier :=
  { a with typeSubsets := .empty, tokenSubsets := .empty }

/-- One hop back, without subsets; none at the origin. -/
def parent? (a : Tier) : Option Tier :=
  if a.hops.isEmpty then none
  else some { a with hops := a.hops.dropLast, typeSubsets := .empty, tokenSubsets := .empty }

/-- The same position seen from `level`, by one containment hop to the old origin first. -/
def rebased (a : Tier) (level : String) : Tier :=
  { a with origin := level, hops := .up a.origin :: a.hops }

/-- Origin and hops as a dotted path. -/
def dotted (a : Tier) : String :=
  a.hops.foldl (fun s hop => s ++ "." ++ hop.segment) a.origin

end Tier

end TierQuery
