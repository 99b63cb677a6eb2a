import TierQuery.Compile
import TierQuery.DottedPath
import TierQuery.Interchange
import TierQuery.Json.Record

/-! Descriptions: a query in JSON, with every tier and every path in dotted form. -/

namespace TierQuery

open Json (Value Document Mismatch ReadError)
open Json.Record

inductive FilterSpec
  | paths (path : String) (op : CompareOp) (other : String)
  | value (path : String) (op : CompareOp) (v : Value)
  | contains (path : String) (v : Value)
  | aligned (kind : Alignment) (other : String)
deriving DecidableEq

/-- A column, perhaps under a name of its own. -/
structure ColumnSpec where
  path : String
  name? : Option String
deriving DecidableEq

structure OrderSpec where
  path : String
  descending : Bool
deriving DecidableEq

structure AggregateSpec where
  function : AggregateFunction
  path? : Option String
  name? : Option String
deriving DecidableEq

structure Description where
  corpus? : Option String
  hierarchy : List String
  find : String
  discourses : List String
  filters : List FilterSpec
  columns : List ColumnSpec
  orderBy : List OrderSpec
  groupBy : List String
  aggregates : List AggregateSpec
  setType : Bindings
  setToken : Bindings
  delete : Bool
  count : Bool
deriving DecidableEq

inductive DescriptionError
  | json (e : ReadError)
  | path (e : PathError)
  | missingAggregatePath (function : AggregateFunction)
  | countWithMutation

def DescriptionError.message : DescriptionError → String
  | json e => "invalid query description: " ++ e.message
  | path e => e.message
  | missingAggregatePath f => "aggregate `" ++ f.name ++ "` needs a path"
  | countWithMutation => "a count cannot be combined with updates or deletion"

/-! Reading. Filters, columns and orderings come in several shapes; an element is read as a whole and
then has to be of one of them. -/

namespace Description

def text? : Document → Option String
  | .text s => some s
  | _ => none

def choice? (variants : List (String × α)) : Document → Option α
  | .text s => (variants.find? (·.1 = s)).map (·.2)
  | .object [(s, .null)] _ => (variants.find? (·.1 = s)).map (·.2)
  | _ => none

/-- The member `name`, which has to be there once. -/
def single? (ms : List (String × Document)) (name : String) : Option Document :=
  match ms.filter (·.1 = name) with
  | [m] => some m.2
  | _ => none

def op? : Document → Option CompareOp := choice? (variantsOf CompareOp.name CompareOp.all)

def kind? : Document → Option Alignment := choice? (variantsOf Alignment.name Alignment.all)

def value? (d : Document) : Option Value := d.value?.toOption

def pathsFilter? (ms : List (String × Document)) : Option FilterSpec := do
  let path ← text? (← single? ms "path")
  let op ← op? (← single? ms "op")
  let other ← text? (← single? ms "other")
  return .paths path op other

def valueFilter? (ms : List (String × Document)) : Option FilterSpec := do
  let path ← text? (← single? ms "path")
  let op ← op? (← single? ms "op")
  let v ← value? (← single? ms "value")
  return .value path op v

def containsFilter? (ms : List (String × Document)) : Option FilterSpec := do
  let path ← text? (← single? ms "contains")
  let v ← value? (← single? ms "value")
  return .contains path v

def alignedFilter? (ms : List (String × Document)) : Option FilterSpec := do
  let kind ← kind? (← single? ms "aligned")
  let other ← text? (← single? ms "with")
  return .aligned kind other

/-- The shapes in the order in which they are tried. -/
def filter? : Document → Option FilterSpec
  | .object ms _ =>
    (pathsFilter? ms).or ((valueFilter? ms).or ((containsFilter? ms).or (alignedFilter? ms)))
  | _ => none

def column? : Document → Option ColumnSpec
  | .text s => some ⟨s, none⟩
  | .object ms _ => do
    let path ← text? (← single? ms "path")
    let name ← text? (← single? ms "as")
    return ⟨path, some name⟩
  | _ => none

/-- A flag that may be absent, but not come twice. -/
def flag? (ms : List (String × Document)) (name : String) : Option Bool :=
  match ms.filter (·.1 = name) with
  | [] => some false
  | [(_, .bool b)] => some b
  | _ => none

def order? : Document → Option OrderSpec
  | .text s => some ⟨s, false⟩
  | .object ms _ => do
    let path ← text? (← single? ms "path")
    let descending ← flag? ms "descending"
    return ⟨path, descending⟩
  | _ => none

/-- An element that is whole and of one of the shapes. -/
def shaped (name : String) (shape? : Document → Option α) (d : Document) : Read α := do
  let _ ← ofBreak d.value?
  match shape? d with
  | some a => .ok a
  | none => mismatch (.noShape name)

/-- A record while it is read: the fields that were there so far. -/
structure PartialAggregate where
  function? : Option AggregateFunction
  path? : Option (Option String)
  name? : Option (Option String)

def aggregateFields : List (RecordField PartialAggregate) :=
  [⟨"function", true, (·.function?.isSome), fun s d => do
      let f ← choice (variantsOf AggregateFunction.name AggregateFunction.all) d
      .ok { s with function? := some f }⟩,
    ⟨"path", false, (·.path?.isSome), fun s d => do
      .ok { s with path? := some (← nullable string d) }⟩,
    ⟨"as", false, (·.name?.isSome), fun s d => do
      .ok { s with name? := some (← nullable string d) }⟩]

def aggregate (d : Document) : Read AggregateSpec := do
  let s ← record "struct AggregateSpec" aggregateFields ⟨none, none, none⟩ d
  match s.function? with
  | some function => .ok ⟨function, s.path?.join, s.name?.join⟩
  | none => mismatch (.missingField "function")

structure PartialDescription where
  corpus? : Option (Option String)
  hierarchy? : Option (List String)
  find? : Option String
  discourses? : Option (List String)
  filters? : Option (List FilterSpec)
  columns? : Option (List ColumnSpec)
  orderBy? : Option (List OrderSpec)
  groupBy? : Option (List String)
  aggregates? : Option (List AggregateSpec)
  setType? : Option Bindings
  setToken? : Option Bindings
  delete? : Option Bool
  count? : Option Bool

def bindings (d : Document) : Read Bindings := do .ok (.ofList (← values d))

def fields : List (RecordField PartialDescription) :=
  [⟨"corpus", false, (·.corpus?.isSome), fun s d => do
      .ok { s with corpus? := some (← nullable string d) }⟩,
    ⟨"hierarchy", true, (·.hierarchy?.isSome), fun s d => do
      .ok { s with hierarchy? := some (← sequence string d) }⟩,
    ⟨"find", true, (·.find?.isSome), fun s d => do
      .ok { s with find? := some (← string d) }⟩,
    ⟨"discourses", false, (·.discourses?.isSome), fun s d => do
      .ok { s with discourses? := some (← sequence string d) }⟩,
    ⟨"filters", false, (·.filters?.isSome), fun s d => do
      .ok { s with filters? := some (← sequence (shaped "FilterSpec" filter?) d) }⟩,
    ⟨"columns", false, (·.columns?.isSome), fun s d => do
      .ok { s with columns? := some (← sequence (shaped "ColumnSpec" column?) d) }⟩,
    ⟨"order_by", false, (·.orderBy?.isSome), fun s d => do
      .ok { s with orderBy? := some (← sequence (shaped "OrderSpec" order?) d) }⟩,
    ⟨"group_by", false, (·.groupBy?.isSome), fun s d => do
      .ok { s with groupBy? := some (← sequence string d) }⟩,
    ⟨"aggregate", false, (·.aggregates?.isSome), fun s d => do
      .ok { s with aggregates? := some (← sequence aggregate d) }⟩,
    ⟨"set_type", false, (·.setType?.isSome), fun s d => do
      .ok { s with setType? := some (← bindings d) }⟩,
    ⟨"set_token", false, (·.setToken?.isSome), fun s d => do
      .ok { s with setToken? := some (← bindings d) }⟩,
    ⟨"delete", false, (·.delete?.isSome), fun s d => do
      .ok { s with delete? := some (← boolean d) }⟩,
    ⟨"count", false, (·.count?.isSome), fun s d => do
      .ok { s with count? := some (← boolean d) }⟩]

def ofPartial (s : PartialDescription) : Read Description :=
  match s.hierarchy?, s.find? with
  | none, _ => mismatch (.missingField "hierarchy")
  | _, none => mismatch (.missingField "find")
  | some hierarchy, some find => .ok {
      corpus? := s.corpus?.join
      hierarchy, find
      discourses := s.discourses?.getD []
      filters := s.filters?.getD []
      columns := s.columns?.getD []
      orderBy := s.orderBy?.getD []
      groupBy := s.groupBy?.getD []
      aggregates := s.aggregates?.getD []
      setType := s.setType?.getD .empty
      setToken := s.setToken?.getD .empty
      delete := s.delete?.getD false
      count := s.count?.getD false }

def ofDocument (d : Document) : Read Description := do
  ofPartial (← record "struct QueryFile" fields
    ⟨none, none, none, none, none, none, none, none, none, none, none, none, none⟩ d)

/-- The description that a text is, with nothing but blanks after it. -/
def ofText (text : String) : Read Description := do
  let (d, trailing) := Document.read text
  let description ← ofDocument d
  match trailing with
  | none => .ok description
  | some b => .error (.text b)

end Description

/-! From descriptions to queries -/

/-- A query and the statement that is asked for. -/
structure Request where
  query : Query
  intent : Intent
deriving DecidableEq

namespace Description

def ofPath (source : String) : Except DescriptionError AttributePath :=
  (AttributePath.ofDotted source).mapError .path

def ofTier (source : String) : Except DescriptionError Tier :=
  (Tier.ofDotted source).mapError .path

/-- Updates and deletions are writes, and a write cannot be counted. -/
def intent (d : Description) (count : Bool) : Except DescriptionError Intent :=
  match d.delete || !d.setType.isEmpty || !d.setToken.isEmpty, count || d.count with
  | true, true => .error .countWithMutation
  | true, false => .ok .mutation
  | false, true => .ok .count
  | false, false => .ok .rows

def addFilter (q : Query) : FilterSpec → Except DescriptionError Query
  | .paths path op other => do
    let p ← ofPath path
    let o ← ofPath other
    .ok (q.filter (p.comparePath op o))
  | .value path op v => do
    let p ← ofPath path
    .ok (q.filter (p.compare op v))
  | .contains path v => do
    let p ← ofPath path
    .ok (q.filterContains p v)
  | .aligned kind other => do
    let o ← ofTier other
    .ok (q.filterAligned kind o)

def column (c : ColumnSpec) : Except DescriptionError AttributePath := do
  let p ← ofPath c.path
  .ok (match c.name? with
    | some name => p.withAlias name
    | none => p)

def addOrder (q : Query) (o : OrderSpec) : Except DescriptionError Query := do
  let p ← ofPath o.path
  .ok (q.orderBy p o.descending)

def aggregateOf (a : AggregateSpec) : Except DescriptionError Aggregate :=
  match a.path? with
  | some source => do
    let p ← ofPath source
    .ok ⟨a.function, some p, a.name?⟩
  | none =>
    if a.function = .count then .ok ⟨.count, none, a.name?⟩
    else .error (.missingAggregatePath a.function)

/-- The query that a description asks for; `count` asks for a count whatever the description says. -/
def request (d : Description) (count : Bool) : Except DescriptionError Request := do
  let intent ← d.intent count
  let find ← ofTier d.find
  let q := Query.ofFind (.ofList d.hierarchy) find
  let q := match d.corpus? with
    | some name => q.withCorpus name
    | none => q
  let q := if d.discourses.isEmpty then q else q.discourses d.discourses
  let q ← d.filters.foldlM addFilter q
  let columns ← d.columns.mapM column
  let q := q.withColumns columns
  let groups ← d.groupBy.mapM ofPath
  let q := groups.foldl Query.groupBy q
  let q ← d.orderBy.foldlM addOrder q
  let aggregates ← d.aggregates.mapM aggregateOf
  let q := if aggregates.isEmpty then q else q.withAggregates aggregates
  let q := if d.setType.isEmpty then q else q.withTypeUpdate d.setType.entries
  let q := if d.setToken.isEmpty then q else q.withTokenUpdate d.setToken.entries
  let q := if d.delete then q.withDelete else q
  .ok ⟨q, intent⟩

end Description

namespace Request

def ofText (text : String) (count : Bool) : Except DescriptionError Request := do
  let d ← (Description.ofText text).mapError .json
  d.request count

def statement (r : Request) : Except StatementError Statement := r.query.compile r.intent

end Request

end TierQuery
