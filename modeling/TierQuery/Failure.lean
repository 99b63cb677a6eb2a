/-! Why a query has no statement. Build errors are faults of the query as it was put together, compile
errors faults of what it refers to. -/

namespace TierQuery

inductive BuildError
  | orderByUnknownColumn (column : String)
  | groupByWithoutAggregate
  | groupedCount
  | emptyAggregate
  | emptyMutation
  | conflictingMutation
  | readOnlyProperty (property : String)
  | emptyPropertyName
  | duplicateColumn (column : String)
deriving DecidableEq

def BuildError.message : BuildError → String
  | orderByUnknownColumn c => "order by `" ++ c ++ "` does not name a returned column"
  | groupByWithoutAggregate => "group by requires at least one aggregate"
  | groupedCount => "count cannot be combined with group by; use an aggregate instead"
  | emptyAggregate => "aggregate requires at least one aggregate function"
  | emptyMutation => "mutation has no properties to set"
  | conflictingMutation => "delete cannot be combined with property updates"
  | readOnlyProperty p => "property `" ++ p ++ "` cannot be written"
  | emptyPropertyName => "property names must not be empty"
  | duplicateColumn c => "column `" ++ c ++ "` is returned more than once"

inductive CompileError
  /-- Two sources name different discourses. -/
  | conflictingDiscourse (first second : String)
  /-- No chain of hops leads to the tier. -/
  | unreachable (tier root : String)
  /-- The searched-for level is mentioned with other qualifiers than it is searched for. -/
  | ambiguousLevel (level : String)
  /-- Only stored properties can be tested on a contained token. -/
  | unsupportedContainment (property : String)
deriving DecidableEq

def CompileError.message : CompileError → String
  | conflictingDiscourse a b => "conflicting discourse scopes `" ++ a ++ "` and `" ++ b ++ "`"
  | unreachable a r => "annotation `" ++ a ++ "` is not reachable from `" ++ r ++ "`"
  | ambiguousLevel l =>
    "`" ++ l ++ "` is referenced with subsets that differ from the searched-for type"
  | unsupportedContainment p => "`" ++ p ++ "` cannot be tested through containment"

inductive StatementError
  | build (e : BuildError)
  | compile (e : CompileError)
deriving DecidableEq

def StatementError.message : StatementError → String
  | build e => e.message
  | compile e => e.message

end TierQuery
