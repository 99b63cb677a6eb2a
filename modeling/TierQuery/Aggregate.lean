import TierQuery.AttributePath

/-! Aggregates: one function over a path, or over all rows. -/

namespace TierQuery

inductive AggregateFunction
  | count | average | min | max | sum | stdev
deriving DecidableEq

namespace AggregateFunction

def all : List AggregateFunction := [count, average, min, max, sum, stdev]

/-- The name in descriptions and in default column names. -/
def name : AggregateFunction → String
  | count => "count"
  | average => "average"
  | min => "min"
  | max => "max"
  | sum => "sum"
  | stdev => "stdev"

/-- The name in statement text. -/
def cypherName : AggregateFunction → String
  | count => "count"
  | average => "avg"
  | min => "min"
  | max => "max"
  | sum => "sum"
  | stdev => "stDev"

end AggregateFunction

/-- Without a path the function is taken over all rows. -/
structure Aggregate where
  function : AggregateFunction
  path? : Option AttributePath
  alias? : Option String
deriving DecidableEq

def Aggregate.outputName (a : Aggregate) : String :=
  match a.alias?, a.path? with
  | some name, _ => name
  | none, some p => a.function.name ++ "_" ++ p.outputName
  | none, none => a.function.name ++ "_all"

end TierQuery
