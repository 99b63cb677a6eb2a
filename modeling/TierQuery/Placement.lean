import TierQuery.LevelTable

/-! Where each criterion is expressed in the statement: on the node of its level, among the filters
after the pattern, or as a constraint between nodes. -/

namespace TierQuery

inductive Route
  /-- A condition on `id`, on the node of the level. -/
  | identity (level : LevelId)
  /-- A condition on where the token stands, on the node of the level. -/
  | anchor (level : LevelId)
  /-- A condition on any other property, after the pattern. -/
  | property (level : LevelId)
  /-- A condition between two tokens. -/
  | relationship
deriving DecidableEq

/-- The level whose node carries the condition. -/
def Route.inlineLevel? : Route → Option LevelId
  | .identity n | .anchor n => some n
  | .property _ | .relationship => none

/-- A property's own place, on the level it belongs to. -/
def Property.route (p : Property) (n : LevelId) : Route :=
  if p.isId then .identity n else if p.isAnchor then .anchor n else .property n

def Criterion.route (f : Frame) (t : LevelTable) : Criterion → Except CompileError Route
  | .alignment _ _ _ => .ok .relationship
  | .contains container path _ =>
    if path.property = .duration then .error (.unsupportedContainment path.property.name)
    else do
      let (_, l) ← t.lookup f container
      if path.tier.hops = [] ∧ f.hierarchy.isAbove l.tier.name path.tier.origin
      then .ok .relationship
      else .error (f.unreachable path.tier)
  | .comparison path _ operand => do
    let (n, _) ← t.lookup f path.tier
    match operand with
    | .value _ => .ok (path.property.route n)
    | .path other => do
      let (m, _) ← t.lookup f other.tier
      .ok (if m = n then path.property.route n else .relationship)

/-- A criterion with its place. -/
structure Placed where
  criterion : Criterion
  route : Route
deriving DecidableEq

/-- The criteria with their places, in their order. -/
abbrev Placement := List Placed

namespace Placement

def ofCriteria (f : Frame) (t : LevelTable) (criteria : List Criterion) :
    Except CompileError Placement :=
  criteria.mapM fun c => do .ok ⟨c, ← c.route f t⟩

/-- The conditions on the node of a level. -/
def inline (p : Placement) (n : LevelId) : List Placed :=
  p.filter (·.route.inlineLevel? = some n)

def relationships (p : Placement) : List Criterion :=
  (p.filter (·.route = .relationship)).map (·.criterion)

/-- The conditions after the pattern, each with its level. -/
def filters (p : Placement) : List (Criterion × LevelId) :=
  p.filterMap fun q =>
    match q.route with
    | .property n => some (q.criterion, n)
    | _ => none

end Placement

end TierQuery
