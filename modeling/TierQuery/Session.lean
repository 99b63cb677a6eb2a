import TierQuery.Operation
import TierQuery.Query.Edit

/-! Sessions: a query is edited and operated on by turns. Store and sink may answer every operation
anew, so a session carries their answers to each. -/

namespace TierQuery

inductive Step
  | edit (e : Edit)
  | operate (op : Operation) (env : Environment)

namespace Query

/-- The query after the steps, and what their operations came to. -/
def session (q : Query) : List Step → Query × List Outcome
  | [] => (q, [])
  | .edit e :: steps => (q.edit e).session steps
  | .operate op env :: steps =>
    let o := q.perform env op
    let (r, os) := o.query.session steps
    (r, o :: os)

end Query

end TierQuery
