import TierQuery.Compile
import TierQuery.RowSet
import TierQuery.Statement.Text

/-! Operations that end a query: its statement is compiled and handed to a store, and the rows perhaps
to a sink. Store and sink answer as they like, failure included; an operation says what it asked of
them, what it answers itself, and how the query is left. -/

namespace TierQuery

open Json (Value)

/-- A statement as a store receives it. -/
structure Call where
  mode : AccessMode
  text : String
  params : Bindings
deriving DecidableEq

def Statement.call (s : Statement) : Call := ⟨s.mode, s.text, s.params⟩

/-- The answers of a store and a sink to what one operation asks. -/
structure Environment where
  execute : Call → Except String RowSet
  executeWrite : Call → Except String WriteAck
  save : String → RowSet → Except String Unit

inductive OperationError
  | statement (e : StatementError)
  | execution (message : String)
  | saving (message : String)
  | unexpectedCount (v : Value)
deriving DecidableEq

def OperationError.message : OperationError → String
  | statement e => e.message
  | execution m => "statement execution failed: " ++ m
  | saving m => "saving results failed: " ++ m
  | unexpectedCount v => "unexpected result: count returned `" ++ v.compact ++ "`"

inductive Operation
  | all
  | count
  | toCsv (path : String)
  | aggregate (aggregates : List Aggregate)
  | setType (properties : List (String × Value))
  | setToken (properties : List (String × Value))
  | delete
deriving DecidableEq

inductive Answer
  | rows (r : RowSet)
  | count (n : Nat)
  | saved
  | scalar (v : Value)
  | written
deriving DecidableEq

structure Outcome where
  query : Query
  calls : List Call
  saves : List (String × RowSet)
  answer : Except OperationError Answer

namespace Outcome

/-- Nothing was asked of anyone, and the query is as before. -/
def rejected (q : Query) (e : StatementError) : Outcome := ⟨q, [], [], .error (.statement e)⟩

end Outcome

namespace Query

/-- Run a read and answer with what its rows mean. -/
def read (q : Query) (s : Statement) (env : Environment)
    (answer : RowSet → Except OperationError Answer) : Outcome :=
  match env.execute s.call with
  | .error m => ⟨q, [s.call], [], .error (.execution m)⟩
  | .ok rows => ⟨q, [s.call], [], answer rows⟩

/-- No rows count as zero, and so does a missing value. -/
def countOf (rows : RowSet) : Except OperationError Answer :=
  match rows.one? with
  | none | some .null => .ok (.count 0)
  | some v =>
    match v.count? with
    | some n => .ok (.count n)
    | none => .error (.unexpectedCount v)

/-- One aggregate over all rows is a single value. -/
def aggregateOf (q : Query) (rows : RowSet) : Except OperationError Answer :=
  if !q.grouping.isEmpty || 1 < q.aggregates.length then .ok (.rows rows)
  else .ok (.scalar (rows.one?.getD .null))

def saveTo (path : String) (env : Environment) (o : Outcome) : Outcome :=
  match o.answer with
  | .ok (.rows rows) =>
    { o with
      saves := [(path, rows)]
      answer :=
        match env.save path rows with
        | .ok () => .ok .saved
        | .error m => .error (.saving m) }
  | _ => o

/-- Write `m` and nothing else; the query keeps it once it compiles. -/
def write (q : Query) (m : Mutation) (env : Environment) : Outcome :=
  let staged := q.withMutation m
  match staged.mutationStatement with
  | .error e => .rejected q e
  | .ok s =>
    match env.executeWrite s.call with
    | .error m => ⟨staged, [s.call], [], .error (.execution m)⟩
    | .ok _ => ⟨staged, [s.call], [], .ok .written⟩

def perform (q : Query) (env : Environment) : Operation → Outcome
  | .all =>
    match q.statement with
    | .error e => .rejected q e
    | .ok s => q.read s env (.ok ∘ .rows)
  | .toCsv path =>
    match q.statement with
    | .error e => .rejected q e
    | .ok s => saveTo path env (q.read s env (.ok ∘ .rows))
  | .count =>
    match q.countStatement with
    | .error e => .rejected q e
    | .ok s => q.read s env countOf
  | .aggregate [] => .rejected q (.build .emptyAggregate)
  | .aggregate as =>
    let staged := q.withAggregates as
    match staged.statement with
    | .error e => .rejected q e
    | .ok s => staged.read s env staged.aggregateOf
  | .setType es => q.write { Mutation.none with typeProperties := .ofList es } env
  | .setToken es => q.write { Mutation.none with tokenProperties := .ofList es } env
  | .delete => q.write { Mutation.none with delete := true } env

end Query

end TierQuery
