import TierQuery.Aggregate
import TierQuery.LevelTable

/-! Statements over the annotation graph: nodes to be matched, the edges between them, constraints and
filters, optional nodes, and what is done with every match. Literals stand in a statement as
parameters of a type `π`: first as the literals themselves, then as names in a parameter table. -/

namespace TierQuery

inductive AccessMode
  | read
  | write
deriving DecidableEq

def AccessMode.name : AccessMode → String
  | read => "read"
  | write => "write"

variable {π ρ : Type}

/-- `duration` of a variable is its end minus its begin. -/
inductive Expr (π : Type)
  | property (var : String) (property : Property)
  | param (p : π)
deriving DecidableEq

structure Predicate (π : Type) where
  left : Expr π
  op : CompareOp
  right : Expr π
deriving DecidableEq

structure TypeNode where
  var : String
  labels : List String
deriving DecidableEq

/-- A token node with the conditions on it. -/
structure NodePattern (π : Type) where
  level : LevelId
  var : String
  labels : List String
  /-- The `id` the node is pinned to. -/
  identity? : Option π
  typeNode? : Option TypeNode
  inline : List (Predicate π)
deriving DecidableEq

inductive Relation
  | following
  | previous
  /-- Containment over a number of levels. -/
  | containedBy (steps : Nat)
  | spokenBy
deriving DecidableEq

/-- A hop, from the node it starts at to the node it ends at. -/
structure Edge where
  parent : String
  child : String
  relation : Relation
deriving DecidableEq

/-- A test for a token some levels below the container. -/
structure Containment (π : Type) where
  container : String
  depth : Nat
  labels : List String
  typeLabels : List String
  property : Property
  param : π
deriving DecidableEq

inductive Constraint (π : Type)
  | compare (p : Predicate π)
  | contains (c : Containment π)
deriving DecidableEq

structure OptionalMatch (π : Type) where
  edge : Edge
  node : NodePattern π
deriving DecidableEq

inductive ReturnExpr (π : Type)
  | value (e : Expr π)
  | aggregate (function : AggregateFunction) (arg? : Option (Expr π))
deriving DecidableEq

/-- A returned expression under the name of its column. -/
structure ReturnItem (π : Type) where
  expr : ReturnExpr π
  name : String
deriving DecidableEq

/-- A column that rows are sorted by. -/
structure OrderItem where
  name : String
  descending : Bool
deriving DecidableEq

structure Assignment (π : Type) where
  var : String
  key : String
  param : π
deriving DecidableEq

/-- A link from a token node to a type node that the pattern does not have yet. -/
structure TypeLink where
  var : String
  node : TypeNode
deriving DecidableEq

/-- What is done with the matches. -/
inductive Tail (π : Type)
  | select (items : List (ReturnItem π)) (order : List OrderItem)
  | set (link? : Option TypeLink) (assignments : List (Assignment π))
  | delete (var : String)
deriving DecidableEq

structure Body (π : Type) where
  nodes : List (NodePattern π)
  edges : List Edge
  constraints : List (Constraint π)
  filters : List (Predicate π)
  optional : List (OptionalMatch π)
  tail : Tail π
deriving DecidableEq

namespace Tail

def mode : Tail π → AccessMode
  | select _ _ => .read
  | set _ _ | delete _ => .write

/-- Reads and property updates may be run again, a deletion may not. -/
def retrySafe : Tail π → Bool
  | delete _ => false
  | select _ _ | set _ _ => true

/-- The names of the returned columns. -/
def columns : Tail π → List String
  | select items _ => items.map (·.name)
  | set _ _ | delete _ => []

end Tail

namespace Body

/-- Token nodes, required and optional. -/
def nodeCount (b : Body π) : Nat := b.nodes.length + b.optional.length

/-- Edges and constraints between nodes. -/
def relationshipCount (b : Body π) : Nat :=
  b.edges.length + b.optional.length + b.constraints.length

def filterCount (b : Body π) : Nat := b.filters.length

end Body

end TierQuery
