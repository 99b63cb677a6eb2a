import TierQuery.Query

/-! Edits: the calls that build up a query. Each adds to one part of it, or replaces that part. -/

namespace TierQuery

open Json (Value)

inductive Edit
  | corpus (name : String)
  | filter (c : Criterion)
  /-- A criterion on a containing level, which is reached like any other level. -/
  | filterContainedBy (c : Criterion)
  | filterContains (path : AttributePath) (v : Value)
  | filterAligned (kind : Alignment) (other : Tier)
  | discourses (names : List String)
  | columns (paths : List AttributePath)
  | times
  | timesAs (begin «end» : String)
  | duration
  | groupBy (path : AttributePath)
  | orderBy (path : AttributePath) (descending : Bool)
  | aggregates (as : List Aggregate)
  | typeUpdate (properties : List (String × Value))
  | tokenUpdate (properties : List (String × Value))
  | delete
deriving DecidableEq

namespace Query

def edit (q : Query) : Edit → Query
  | .corpus name => q.withCorpus name
  | .filter c | .filterContainedBy c => q.filter c
  | .filterContains path v => q.filterContains path v
  | .filterAligned kind other => q.filterAligned kind other
  | .discourses names => q.discourses names
  | .columns paths => q.withColumns paths
  | .times => q.withTimes
  | .timesAs b e => q.withTimesAs b e
  | .duration => q.withDuration
  | .groupBy path => q.groupBy path
  | .orderBy path descending => q.orderBy path descending
  | .aggregates as => q.withAggregates as
  | .typeUpdate properties => q.withTypeUpdate properties
  | .tokenUpdate properties => q.withTokenUpdate properties
  | .delete => q.withDelete

def edits (q : Query) (es : List Edit) : Query := es.foldl edit q

end Query

end TierQuery
