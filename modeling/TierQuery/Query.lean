import TierQuery.Aggregate
import TierQuery.Bindings
import TierQuery.Criterion.Key

/-! Queries: what is searched for, under which criteria, and what is done with it. A query is built
up step by step and holds no result of compiling it. -/

namespace TierQuery

open Json (Value)

/-- What is written to the tokens found. -/
structure Mutation where
  typeProperties : Bindings
  tokenProperties : Bindings
  delete : Bool
deriving DecidableEq

namespace Mutation

def none : Mutation := ⟨.empty, .empty, false⟩

def updates (m : Mutation) : Bool := !m.typeProperties.isEmpty || !m.tokenProperties.isEmpty

def isEmpty (m : Mutation) : Bool := !m.updates && !m.delete

end Mutation

/-- A field that rows are sorted by. -/
structure OrderField where
  path : AttributePath
  descending : Bool
deriving DecidableEq

structure Query where
  hierarchy : Hierarchy
  corpus? : Option String
  find : Tier
  criteria : List Criterion
  columns : List AttributePath
  ordering : List OrderField
  grouping : List AttributePath
  aggregates : List Aggregate
  mutation : Mutation
deriving DecidableEq

namespace Query

/-- A search for tokens of `find` that returns their `id` and `label`. -/
def ofFind (h : Hierarchy) (find : Tier) : Query where
  hierarchy := h
  corpus? := none
  find := find
  criteria := []
  columns := [find.attribute .id, find.attribute .label]
  ordering := []
  grouping := []
  aggregates := []
  mutation := .none

def withCorpus (q : Query) (name : String) : Query := { q with corpus? := some name }

/-- One more criterion, unless there is one with its key. -/
def filter (q : Query) (c : Criterion) : Query :=
  if (q.criteria.map Criterion.key).contains c.key then q
  else { q with criteria := q.criteria ++ [c] }

/-- Only tokens that contain a lower token with the value at the path. -/
def filterContains (q : Query) (p : AttributePath) (v : Value) : Query :=
  q.filter (.contains q.find p v)

def filterAligned (q : Query) (kind : Alignment) (other : Tier) : Query :=
  q.filter (.alignment kind q.find other)

/-- Only tokens of the named discourses. A single name is an equality, and so fixes the scope. -/
def discourses (q : Query) (names : List String) : Query :=
  let path := q.find.attribute .discourse
  match names with
  | [name] => q.filter (path.compare .eq (.text name))
  | _ => q.filter (path.compare .isIn (.array (names.map .text)))

/-- One more column, unless the same is there. -/
def addColumn (columns : List AttributePath) (p : AttributePath) : List AttributePath :=
  if p ∈ columns then columns else columns ++ [p]

def withColumns (q : Query) (ps : List AttributePath) : Query :=
  { q with columns := ps.foldl addColumn q.columns }

def withTimes (q : Query) : Query :=
  q.withColumns [q.find.attribute .begin, q.find.attribute .end]

def withTimesAs (q : Query) (begin «end» : String) : Query :=
  q.withColumns
    [(q.find.attribute .begin).withAlias begin, (q.find.attribute .end).withAlias «end»]

def withDuration (q : Query) : Query := q.withColumns [q.find.attribute .duration]

def groupBy (q : Query) (p : AttributePath) : Query := { q with grouping := q.grouping ++ [p] }

def orderBy (q : Query) (p : AttributePath) (descending : Bool) : Query :=
  { q with ordering := q.ordering ++ [⟨p, descending⟩] }

/-- Aggregates in place of rows; earlier ones are dropped. -/
def withAggregates (q : Query) (as : List Aggregate) : Query := { q with aggregates := as }

def withMutation (q : Query) (m : Mutation) : Query := { q with mutation := m }

def withTypeUpdate (q : Query) (es : List (String × Value)) : Query :=
  q.withMutation { q.mutation with typeProperties := q.mutation.typeProperties.extend es }

def withTokenUpdate (q : Query) (es : List (String × Value)) : Query :=
  q.withMutation { q.mutation with tokenProperties := q.mutation.tokenProperties.extend es }

def withDelete (q : Query) : Query := q.withMutation { q.mutation with delete := true }

end Query

end TierQuery
