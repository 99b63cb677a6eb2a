import TierQuery.Failure
import TierQuery.Query

/-! What a query must satisfy before it is compiled: column names are distinct, rows are sorted by
what is returned, groups come with aggregates, and updates name properties that can be written. -/

namespace TierQuery

/-- What a statement is for. -/
inductive Intent
  | rows
  | count
  | mutation
deriving DecidableEq

/-- The returned path that a field of an ordering means: one with the same target, or else one with
the same name. -/
def findReturned? (returned : List AttributePath) (field : AttributePath) : Option AttributePath :=
  (returned.find? (·.sameTarget field)).or
    (returned.find? fun p => p.outputName = field.outputName)

namespace Query

/-- No name is among those seen, or comes twice. -/
def checkDistinct (seen : List String) : List String → Except BuildError Unit
  | [] => .ok ()
  | n :: ns => if n ∈ seen then .error (.duplicateColumn n) else checkDistinct (n :: seen) ns

def checkOrder (q : Query) (returned : List AttributePath) : Except BuildError Unit :=
  q.ordering.forM fun o =>
    match findReturned? returned o.path with
    | some _ => .ok ()
    | none => .error (.orderByUnknownColumn o.path.outputName)

def checkKey (key : String) : Except BuildError Unit :=
  if key = "" then .error .emptyPropertyName
  else if key = Property.id.name ∨ key = Property.duration.name then
    .error (.readOnlyProperty key)
  else .ok ()

def checkRows (q : Query) : Except BuildError Unit :=
  if q.grouping.isEmpty then do
    checkDistinct [] (q.columns.map AttributePath.outputName)
    q.checkOrder q.columns
  else .error .groupByWithoutAggregate

def checkAggregates (q : Query) : Except BuildError Unit := do
  checkDistinct []
    (q.grouping.map AttributePath.outputName ++ q.aggregates.map Aggregate.outputName)
  q.checkOrder q.grouping

def checkMutation (q : Query) : Except BuildError Unit :=
  if q.mutation.isEmpty then .error .emptyMutation
  else if q.mutation.delete && q.mutation.updates then .error .conflictingMutation
  else do
    q.mutation.typeProperties.names.forM checkKey
    q.mutation.tokenProperties.names.forM checkKey

def validate (q : Query) : Intent → Except BuildError Unit
  | .rows => if q.aggregates.isEmpty then q.checkRows else q.checkAggregates
  | .count => if q.grouping.isEmpty then .ok () else .error .groupedCount
  | .mutation => q.checkMutation

end Query

end TierQuery
