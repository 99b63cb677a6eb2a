import TierQuery.Placement
import TierQuery.Query.Validity
import TierQuery.Statement.Parameters

/-! Compiling a query: its levels are resolved, its criteria placed, and the statement is put
together in the order of its text. -/

namespace TierQuery

open Json (Value)

/-- The analysis of a query. -/
structure Plan where
  corpus? : Option String
  frame : Frame
  table : LevelTable
  placement : Placement
deriving DecidableEq

/-- What a statement for the intent refers to. A count and a write refer to the criteria alone. -/
def Query.references (q : Query) : Intent → References
  | .rows =>
    let ordering := q.ordering.map (·.path)
    if q.aggregates.isEmpty then ⟨q.criteria, q.columns, [], ordering, []⟩
    else ⟨q.criteria, [], q.grouping, ordering, q.aggregates.filterMap (·.path?)⟩
  | .count | .mutation => ⟨q.criteria, [], [], [], []⟩

def Query.plan (q : Query) (intent : Intent) : Except CompileError Plan := do
  let frame ← Frame.ofQuery q.hierarchy q.find q.criteria
  let table ← LevelTable.resolve frame (q.references intent)
  let placement ← Placement.ofCriteria frame table q.criteria
  .ok ⟨q.corpus?, frame, table, placement⟩

namespace Plan

/-! Labels -/

/-- The level, the corpus and the token subsets. -/
def tokenLabels (p : Plan) (a : Tier) : List String :=
  (if a.isSpeaker then "Speaker" else a.name) :: p.corpus?.toList ++ a.tokenSubsets.names

/-- The type of the level, the corpus and the type subsets. -/
def typeLabels (p : Plan) (a : Tier) : List String :=
  (a.name ++ "_type") :: p.corpus?.toList ++ a.typeSubsets.names

/-! Nodes -/

def var (p : Plan) (a : Tier) : Except CompileError String := do
  let (_, l) ← p.table.lookup p.frame a
  .ok l.var

def pathExpr (p : Plan) (path : AttributePath) : Except CompileError (Expr Literal) := do
  .ok (.property (← p.var path.tier) path.property)

/-- A comparison on the node `var`. -/
def predicate (p : Plan) (var : String) (path : AttributePath) (op : CompareOp) :
    Operand → Except CompileError (Predicate Literal)
  | .value v => .ok ⟨.property var path.property, op, .param ⟨path.property.name, v⟩⟩
  | .path other => do .ok ⟨.property var path.property, op, ← p.pathExpr other⟩

/-- The comparisons among criteria, all on the node `var`. -/
def predicates (p : Plan) (var : String) :
    List Criterion → Except CompileError (List (Predicate Literal))
  | [] => .ok []
  | .comparison path op operand :: cs => do
    let c ← p.predicate var path op operand
    .ok (c :: (← p.predicates var cs))
  | _ :: cs => p.predicates var cs

end Plan

/-- The value that an `id` has to be equal to. -/
def Placed.pin? (q : Placed) : Option Value :=
  match q.route, q.criterion with
  | .identity _, .comparison _ .eq (.value v) => some v
  | _, _ => none

/-- The first pin, and the conditions without it. -/
def takePin : List Placed → Option Value × List Placed
  | [] => (none, [])
  | q :: qs =>
    match q.pin? with
    | some v => (some v, qs)
    | none => let (v, rest) := takePin qs; (v, q :: rest)

/-- Whether one of the conditions fixes the discourse; all that do must fix it to `label`. -/
def fixesDiscourse (label : String) : List Placed → Except CompileError Bool
  | [] => .ok false
  | q :: qs =>
    match q.criterion.discourseLiteral? with
    | none => fixesDiscourse label qs
    | some d =>
      if d = label then do
        let _ ← fixesDiscourse label qs
        .ok true
      else .error (.conflictingDiscourse label d)

namespace Plan

/-- The condition that puts a node into its discourse, unless a criterion does so. Speakers belong
to no discourse. -/
def discourseCondition (a : Tier) (var : String) (conditions : List Placed) :
    Except CompileError (List (Predicate Literal)) :=
  match a.discourse with
  | none => .ok []
  | some label => do
    let fixed ← fixesDiscourse label conditions
    if fixed || a.isSpeaker then .ok []
    else .ok [⟨.property var .discourse, .eq, .param ⟨"discourse", .text label⟩⟩]

/-- The node of a level with the given conditions on it. -/
def node (p : Plan) (n : LevelId) (l : Level) (conditions : List Placed) :
    Except CompileError (NodePattern Literal) := do
  let (pin, rest) := takePin conditions
  let own ← p.predicates l.var (rest.map (·.criterion))
  let added ← discourseCondition l.tier l.var conditions
  .ok {
    level := n
    var := l.var
    labels := p.tokenLabels l.tier
    identity? := pin.map fun v => ⟨"id", v⟩
    typeNode? :=
      if l.tier.typeSubsets.isEmpty then none
      else some ⟨l.typeVar, p.typeLabels l.tier⟩
    inline := own ++ added }

def requiredNode (p : Plan) (l : LevelId × Level) : Except CompileError (NodePattern Literal) :=
  p.node l.1 l.2 (p.placement.inline l.1)

/-! Edges -/

def relation (p : Plan) (parent : Tier) : Hop → Relation
  | .following => .following
  | .previous => .previous
  | .speaker => .spokenBy
  | .up higher => .containedBy ((p.frame.hierarchy.distance? parent.name higher).getD 1)

/-- The last hop of a level. -/
def edge? (p : Plan) (l : Level) : Option Edge := do
  let parent ← p.table.levels[← l.parent?]?
  let hop ← l.tier.hops.getLast?
  return ⟨parent.var, l.var, p.relation parent.tier hop⟩

/-- An optional node with its edge. Criteria put no conditions on it. -/
def optionalMatch (p : Plan) (l : LevelId × Level) :
    Except CompileError (Option (OptionalMatch Literal)) := do
  let node ← p.node l.1 l.2 []
  .ok ((p.edge? l.2).map fun edge => ⟨edge, node⟩)

/-! Constraints and filters -/

def constraint (p : Plan) : Criterion → Except CompileError (Constraint Literal)
  | .comparison path op operand => do
    let var ← p.var path.tier
    .ok (.compare (← p.predicate var path op operand))
  | .alignment kind a b => do
    let left ← p.var a
    let right ← p.var b
    .ok (.compare ⟨.property left kind.anchor, if kind.isNegated then .ne else .eq,
      .property right kind.anchor⟩)
  | .contains container path v => do
    let (_, l) ← p.table.lookup p.frame container
    let inner := path.tier
    .ok (.contains {
      container := l.var
      depth := (p.frame.hierarchy.distance? inner.origin l.tier.name).getD 1
      labels := p.tokenLabels inner
      typeLabels := if inner.typeSubsets.isEmpty then [] else p.typeLabels inner
      property := path.property
      param := ⟨path.property.name, v⟩ })

/-- The condition after the pattern, on the node of its level. -/
def filter (p : Plan) (c : Criterion × LevelId) : Except CompileError (List (Predicate Literal)) :=
  match p.table.levels[c.2]? with
  | some l => p.predicates l.var [c.1]
  | none => .ok []

/-! Tails -/

def column (p : Plan) (path : AttributePath) : Except CompileError (ReturnItem Literal) := do
  .ok ⟨.value (← p.pathExpr path), path.outputName⟩

def aggregate (p : Plan) (a : Aggregate) : Except CompileError (ReturnItem Literal) := do
  .ok ⟨.aggregate a.function (← a.path?.mapM p.pathExpr), a.outputName⟩

/-- The fields of the ordering by the names under which they are returned. -/
def orderItems (q : Query) (returned : List AttributePath) : List OrderItem :=
  q.ordering.map fun o =>
    ⟨((findReturned? returned o.path).getD o.path).outputName, o.descending⟩

def rowsTail (p : Plan) (q : Query) : Except CompileError (Tail Literal) :=
  if q.aggregates.isEmpty then do
    .ok (.select (← q.columns.mapM p.column) (orderItems q q.columns))
  else do
    let groups ← q.grouping.mapM p.column
    let aggregates ← q.aggregates.mapM p.aggregate
    .ok (.select (groups ++ aggregates) (orderItems q q.grouping))

def countTail : Tail Literal := .select [⟨.aggregate .count none, "count_all"⟩] []

def assignments (var : String) (properties : Bindings) : List (Assignment Literal) :=
  properties.entries.map fun (key, v) => ⟨var, key, ⟨"set_" ++ key, v⟩⟩

/-- A write to the searched-for level. Its type node is linked when types are written and the
pattern does not have it. -/
def mutationTail (p : Plan) (m : Mutation) : Tail Literal :=
  let root := p.table.root
  if m.delete then .delete root.var
  else
    let linked := !m.typeProperties.isEmpty && root.tier.typeSubsets.isEmpty
    .set (if linked then some ⟨root.var, root.typeVar, p.typeLabels root.tier⟩ else none)
      (assignments root.typeVar m.typeProperties ++ assignments root.var m.tokenProperties)

def tail (p : Plan) (q : Query) : Intent → Except CompileError (Tail Literal)
  | .rows => p.rowsTail q
  | .count => .ok countTail
  | .mutation => .ok (p.mutationTail q.mutation)

def body (p : Plan) (q : Query) (intent : Intent) : Except CompileError (Body Literal) := do
  let required := p.table.required
  let nodes ← required.mapM p.requiredNode
  let edges := required.filterMap fun l => p.edge? l.2
  let constraints ← p.placement.relationships.mapM p.constraint
  let filters ← p.placement.filters.mapM p.filter
  let optional ← p.table.optional.mapM p.optionalMatch
  let tail ← p.tail q intent
  .ok ⟨nodes, edges, constraints, filters.flatten, optional.filterMap id, tail⟩

end Plan

namespace Query

def draft (q : Query) (intent : Intent) : Except CompileError (Body Literal) := do
  let plan ← q.plan intent
  plan.body q intent

/-- The statement of a query for an intent, if compiling comes to an end: see `Returns`. -/
def compile (q : Query) (intent : Intent) : Except StatementError Statement :=
  match q.validate intent with
  | .error e => .error (.build e)
  | .ok () =>
    match q.draft intent with
    | .error e => .error (.compile e)
    | .ok body => .ok (.ofBody body)

/-- Compiling comes to an end: resolving the levels has its outcome, where it is reached. -/
def Ends (q : Query) (intent : Intent) : Prop :=
  q.validate intent = .ok () → ∀ f, Frame.ofQuery q.hierarchy q.find q.criteria = .ok f →
    LevelTable.Resolves f [] (q.references intent).mentions
      (LevelTable.resolve f (q.references intent))

/-- Compiling comes to an end, with this outcome. -/
def Returns (q : Query) (intent : Intent) (outcome : Except StatementError Statement) : Prop :=
  q.Ends intent ∧ q.compile intent = outcome

def statement (q : Query) : Except StatementError Statement := q.compile .rows

def countStatement (q : Query) : Except StatementError Statement := q.compile .count

def mutationStatement (q : Query) : Except StatementError Statement := q.compile .mutation

end Query

end TierQuery
