import TierQuery.Description
import TierQuery.Proofs.DottedPaths
import TierQuery.Proofs.Operations
import TierQuery.Proofs.Projection

/-! Descriptions hold every query that dotted paths can write. Each part of a query goes into its own
member, and reading a member back builds up that part and leaves the others alone. -/

namespace TierQuery

/-! Writing -/

def Tier.written (a : Tier) : String := a.qualified a.qualifiers

namespace AttributePath

def written (p : AttributePath) : String := p.tier.written ++ "." ++ p.property.name

/-- A path that can be written, whatever its alias. -/
@[mk_iff]
structure Dottable (p : AttributePath) : Prop where
  tier : p.tier.Dottable
  named : p.property.name ≠ ""
  undotted : '.' ∉ p.property.name.toList

instance (p : AttributePath) : Decidable p.Dottable := decidable_of_iff' _ p.dottable_iff

/-- A path that is all in its dotted form. -/
def Plain (p : AttributePath) : Prop := p.Dottable ∧ p.alias? = none

instance (p : AttributePath) : Decidable p.Plain :=
  inferInstanceAs (Decidable (p.Dottable ∧ p.alias? = none))

end AttributePath

/-- Nothing but paths without aliases, and the tier searched for where a filter does not name it. -/
def Criterion.Describable (find : Tier) : Criterion → Prop
  | .comparison p _ (.path o) => p.Plain ∧ o.Plain
  | .comparison p _ (.value _) => p.Plain
  | .contains c p _ => c = find ∧ p.Plain
  | .alignment _ a b => a = find ∧ b.Dottable

instance (find : Tier) : (c : Criterion) → Decidable (c.Describable find)
  | .comparison p _ (.path o) => inferInstanceAs (Decidable (p.Plain ∧ o.Plain))
  | .comparison p _ (.value _) => inferInstanceAs (Decidable p.Plain)
  | .contains c p _ => inferInstanceAs (Decidable (c = find ∧ p.Plain))
  | .alignment _ a b => inferInstanceAs (Decidable (a = find ∧ b.Dottable))

/-- Only a count goes without a path. -/
def Aggregate.Describable : Aggregate → Prop
  | ⟨_, some p, _⟩ => p.Plain
  | ⟨function, none, _⟩ => function = .count

instance : (a : Aggregate) → Decidable a.Describable
  | ⟨_, some p, _⟩ => inferInstanceAs (Decidable p.Plain)
  | ⟨function, none, _⟩ => inferInstanceAs (Decidable (function = .count))

/-- A query that a description can hold. -/
@[mk_iff]
structure Query.Describable (q : Query) : Prop where
  levels : q.hierarchy.levels.Nodup
  find : q.find.Dottable
  criteria : ∀ c ∈ q.criteria, c.Describable q.find
  columns : ∀ p ∈ q.columns, p.Dottable
  ordering : ∀ o ∈ q.ordering, o.path.Plain
  grouping : ∀ p ∈ q.grouping, p.Plain
  aggregates : ∀ a ∈ q.aggregates, a.Describable

instance (q : Query) : Decidable q.Describable := decidable_of_iff' _ q.describable_iff

def FilterSpec.ofCriterion : Criterion → FilterSpec
  | .comparison p op (.path o) => .paths p.written op o.written
  | .comparison p op (.value v) => .value p.written op v
  | .contains _ p v => .contains p.written v
  | .alignment kind _ other => .aligned kind other.written

def ColumnSpec.ofPath (p : AttributePath) : ColumnSpec := ⟨p.written, p.alias?⟩

def OrderSpec.ofField (o : OrderField) : OrderSpec := ⟨o.path.written, o.descending⟩

def AggregateSpec.ofAggregate (a : Aggregate) : AggregateSpec :=
  ⟨a.function, a.path?.map AttributePath.written, a.alias?⟩

/-- The description of a query, with every criterion as a filter. -/
def Description.ofQuery (q : Query) : Description where
  corpus? := q.corpus?
  hierarchy := q.hierarchy.levels
  find := q.find.written
  discourses := []
  filters := q.criteria.map .ofCriterion
  columns := q.columns.map .ofPath
  orderBy := q.ordering.map .ofField
  groupBy := q.grouping.map AttributePath.written
  aggregates := q.aggregates.map .ofAggregate
  setType := q.mutation.typeProperties
  setToken := q.mutation.tokenProperties
  delete := q.mutation.delete
  count := false

/-! Reading element by element -/

namespace Description

theorem ofTier_written {a : Tier} (h : a.Dottable) : ofTier a.written = .ok a := by
  rw [ofTier, Tier.written, Tier.ofDotted_qualified h fun q => Iff.rfl]
  rfl

theorem ofPath_written {p : AttributePath} (h : p.Dottable) :
    ofPath p.written = .ok { p with alias? := none } := by
  rw [ofPath, AttributePath.written, Tier.written,
    AttributePath.ofDotted_qualified h.tier (fun q => Iff.rfl) h.named h.undotted]
  rfl

theorem ofPath_plain {p : AttributePath} (h : p.Plain) : ofPath p.written = .ok p := by
  rw [ofPath_written h.1, ← h.2]

theorem column_ofPath {p : AttributePath} (h : p.Dottable) : column (.ofPath p) = .ok p := by
  obtain ⟨tier, property, _ | name⟩ := p
  all_goals
    simp only [column, ColumnSpec.ofPath, ofPath_written h]
    rfl

theorem addFilter_ofCriterion {q : Query} {c : Criterion} (h : c.Describable q.find) :
    addFilter q (.ofCriterion c) = .ok (q.filter c) := by
  rcases c with ⟨p, op, v | o⟩ | ⟨c, p, v⟩ | ⟨kind, a, b⟩
  · simp only [FilterSpec.ofCriterion, addFilter, ofPath_plain h]
    rfl
  · simp only [FilterSpec.ofCriterion, addFilter, ofPath_plain h.1, ofPath_plain h.2]
    rfl
  · obtain ⟨rfl, hp⟩ := h
    simp only [FilterSpec.ofCriterion, addFilter, ofPath_plain hp]
    rfl
  · obtain ⟨rfl, hb⟩ := h
    simp only [FilterSpec.ofCriterion, addFilter, ofTier_written hb]
    rfl

theorem addOrder_ofField {q : Query} {o : OrderField} (h : o.path.Plain) :
    addOrder q (.ofField o) = .ok (q.orderBy o.path o.descending) := by
  simp only [OrderSpec.ofField, addOrder, ofPath_plain h]
  rfl

theorem aggregateOf_ofAggregate {a : Aggregate} (h : a.Describable) :
    aggregateOf (.ofAggregate a) = .ok a := by
  obtain ⟨function, _ | p, name?⟩ := a
  · obtain rfl : function = .count := h
    rfl
  · have hp : p.Plain := h
    simp only [AggregateSpec.ofAggregate, aggregateOf, Option.map_some, ofPath_plain hp]
    rfl

end Description

/-! Reading list by list -/

section Traversal

variable {ε α β γ : Type}

/-- Elements that are read back one by one are read back as a list. -/
theorem mapM_map_eq_ok {write : α → γ} {read : γ → Except ε α} {xs : List α}
    (h : ∀ x ∈ xs, read (write x) = .ok x) : (xs.map write).mapM read = .ok xs :=
  mapM_eq_ok_iff.2 (List.forall₂_map_left_iff.2 (List.forall₂_same.2 h))

/-- Steps that can be taken from every state of a kind, and lead to one, are taken one by one. -/
theorem foldlM_map_eq_ok {write : α → γ} {step : β → γ → Except ε β} {next : β → α → β}
    {P : β → Prop} {xs : List α}
    (h : ∀ b, P b → ∀ x ∈ xs, step b (write x) = .ok (next b x) ∧ P (next b x)) {b : β}
    (hb : P b) : (xs.map write).foldlM step b = .ok (xs.foldl next b) := by
  induction xs generalizing b with
  | nil => rfl
  | cons x xs ih =>
    obtain ⟨hstep, hnext⟩ := h b hb x List.mem_cons_self
    rw [List.map_cons, List.foldlM_cons, hstep, List.foldl_cons]
    exact ih (fun b hb y hy => h b hb y (List.mem_cons_of_mem x hy)) hnext

end Traversal

namespace Query

/-- Criteria under different keys are all kept. -/
theorem foldl_filter {q : Query} {cs : List Criterion}
    (h : ((q.criteria ++ cs).map Criterion.key).Nodup) :
    cs.foldl filter q = { q with criteria := q.criteria ++ cs } := by
  induction cs generalizing q with
  | nil => simp
  | cons c cs ih =>
    have hnew : q.filter c = { q with criteria := q.criteria ++ [c] } := by
      have hkey : c.key ∉ q.criteria.map Criterion.key := by
        rw [List.map_append, List.nodup_append] at h
        exact fun hc => h.2.2 _ hc _ (by simp) rfl
      rw [filter, if_neg (by simpa using hkey)]
    rw [List.append_cons] at h
    rw [List.foldl_cons, hnew, ih h, List.append_assoc]
    rfl

theorem foldl_groupBy (q : Query) (ps : List AttributePath) :
    ps.foldl groupBy q = { q with grouping := q.grouping ++ ps } := by
  induction ps generalizing q with
  | nil => simp
  | cons p ps ih => rw [List.foldl_cons, ih, groupBy, List.append_assoc]; rfl

theorem foldl_orderBy (q : Query) (os : List OrderField) :
    os.foldl (fun q o => q.orderBy o.path o.descending) q
      = { q with ordering := q.ordering ++ os } := by
  induction os generalizing q with
  | nil => simp
  | cons o os ih => rw [List.foldl_cons, ih, orderBy, List.append_assoc]; rfl

end Query

theorem Bindings.entries_extend {b : Bindings} {es : List (String × Json.Value)}
    (h : ((b.entries ++ es).map Prod.fst).Nodup) : (b.extend es).entries = b.entries ++ es := by
  induction es generalizing b with
  | nil => simp [extend]
  | cons e es ih =>
    have hnew : (b.bind e.1 e.2).entries = b.entries ++ [e] := by
      refine bindEntry_of_notMem fun hm => ?_
      rw [List.map_append, List.nodup_append] at h
      exact h.2.2 _ hm _ (by simp) rfl
    have hstep : b.extend (e :: es) = (b.bind e.1 e.2).extend es := rfl
    rw [hstep, ih (by rwa [hnew, List.append_assoc]), hnew, List.append_assoc]
    rfl

theorem Bindings.eq_of_entries {b c : Bindings} (h : b.entries = c.entries) : b = c := by
  cases b
  cases c
  simpa using h

theorem Bindings.empty_extend (b : Bindings) : empty.extend b.entries = b :=
  Bindings.eq_of_entries (entries_extend b.distinctNames)

namespace Query

theorem withAggregates_of_nil {q : Query} (h : q.aggregates = []) (as : List Aggregate) :
    (if as.isEmpty then q else q.withAggregates as) = { q with aggregates := as } := by
  cases as with
  | nil => rw [List.isEmpty_nil, if_pos rfl, ← h]
  | cons a as => rfl

theorem withTypeUpdate_of_empty {q : Query} (h : q.mutation.typeProperties = .empty)
    (b : Bindings) : (if b.isEmpty then q else q.withTypeUpdate b.entries)
      = { q with mutation := { q.mutation with typeProperties := b } } := by
  split_ifs with hb
  · have hempty : b = .empty := Bindings.eq_of_entries (List.isEmpty_iff.1 hb)
    rw [hempty, ← h]
  · rw [withTypeUpdate, h, Bindings.empty_extend, withMutation]

theorem withTokenUpdate_of_empty {q : Query} (h : q.mutation.tokenProperties = .empty)
    (b : Bindings) : (if b.isEmpty then q else q.withTokenUpdate b.entries)
      = { q with mutation := { q.mutation with tokenProperties := b } } := by
  split_ifs with hb
  · have hempty : b = .empty := Bindings.eq_of_entries (List.isEmpty_iff.1 hb)
    rw [hempty, ← h]
  · rw [withTokenUpdate, h, Bindings.empty_extend, withMutation]

theorem withDelete_of_false {q : Query} (h : q.mutation.delete = false) (delete : Bool) :
    (if delete then q.withDelete else q)
      = { q with mutation := { q.mutation with delete := delete } } := by
  cases delete with
  | false => rw [if_neg Bool.false_ne_true, ← h]
  | true => rfl

end Query

/-! What edits keep -/

namespace Query

/-- The search of a query without anything that narrows it or asks for more. -/
def bare (q : Query) : Query := { ofFind q.hierarchy q.find with corpus? := q.corpus? }

/-- The columns that a search starts with. -/
def defaultColumns (q : Query) : List AttributePath :=
  [q.find.attribute .id, q.find.attribute .label]

theorem nodup_defaultColumns (q : Query) : q.defaultColumns.Nodup := by
  simp [defaultColumns, Tier.attribute, Property.id, Property.label]

/-- What holds of a query however it was built up. -/
structure Built (q : Query) : Prop where
  keys : (q.criteria.map Criterion.key).Nodup
  columns : ∃ ps, q.columns = distinct (q.defaultColumns ++ ps)

theorem built_ofFind (h : Hierarchy) (find : Tier) : (ofFind h find).Built := by
  refine ⟨List.nodup_nil, [], ?_⟩
  rw [List.append_nil, distinct_eq_self (nodup_defaultColumns _)]
  rfl

/-- The columns of a query added to those that it started with. -/
theorem Built.foldl_addColumn {q : Query} (h : q.Built) :
    q.columns.foldl addColumn q.defaultColumns = q.columns := by
  obtain ⟨ps, hps⟩ := h.columns
  rw [Query.foldl_addColumn (distinct_eq_self q.nodup_defaultColumns).symm, hps,
    distinct_append_distinct]

theorem nodup_keys_filter {q : Query} (h : (q.criteria.map Criterion.key).Nodup) (c : Criterion) :
    ((q.filter c).criteria.map Criterion.key).Nodup := by
  unfold filter
  split_ifs with hc
  · exact h
  · have hkey : c.key ∉ q.criteria.map Criterion.key := by simpa using hc
    rw [List.map_append, List.map_singleton]
    exact List.nodup_append.2 ⟨h, List.nodup_singleton _, by
      intro a ha b hb
      rw [List.mem_singleton.1 hb]
      exact fun e => hkey (e ▸ ha)⟩

theorem Built.edit {q : Query} (h : q.Built) (e : Edit) : (q.edit e).Built := by
  obtain ⟨ps, hps⟩ := h.columns
  obtain ⟨hcolumns, hfind⟩ := q.edit_columns e
  refine ⟨?_, ps ++ e.supplied q.find, ?_⟩
  · rw [q.criteria_edit e]
    match e.criterion? q.find with
    | none => exact h.keys
    | some c => exact nodup_keys_filter h.keys c
  · rw [hcolumns, Query.foldl_addColumn hps, List.append_assoc, defaultColumns, defaultColumns,
      hfind]

theorem Built.edits {q : Query} (h : q.Built) (es : List Edit) : (q.edits es).Built := by
  induction es generalizing q with
  | nil => exact h
  | cons e es ih => exact ih (h.edit e)

end Query

/-! Reading the whole -/

namespace Description

variable {q : Query}

theorem intent_ofQuery (q : Query) : (ofQuery q).intent false
    = .ok (if q.mutation.isEmpty then .rows else .mutation) := by
  have hwrites : (q.mutation.delete || !q.mutation.typeProperties.isEmpty ||
      !q.mutation.tokenProperties.isEmpty) = !q.mutation.isEmpty := by
    simp only [Mutation.isEmpty, Mutation.updates, Bool.not_and, Bool.not_not]
    rw [Bool.or_assoc, Bool.or_comm]
  simp only [intent, ofQuery, hwrites]
  cases q.mutation.isEmpty <;> rfl

theorem foldlM_addFilter (h : ∀ c ∈ q.criteria, c.Describable q.find) {base : Query}
    (hfind : base.find = q.find) : (q.criteria.map FilterSpec.ofCriterion).foldlM addFilter base
      = .ok (q.criteria.foldl Query.filter base) := by
  refine foldlM_map_eq_ok (P := (·.find = q.find)) (fun b hb c hc => ?_) hfind
  exact ⟨addFilter_ofCriterion (hb ▸ h c hc), (b.find_filter c).trans hb⟩

theorem foldlM_addOrder (h : ∀ o ∈ q.ordering, o.path.Plain) (base : Query) :
    (q.ordering.map OrderSpec.ofField).foldlM addOrder base
      = .ok (q.ordering.foldl (fun q o => q.orderBy o.path o.descending) base) :=
  foldlM_map_eq_ok (P := fun _ => True) (fun _ _ o ho => ⟨addOrder_ofField (h o ho), trivial⟩)
    trivial

/-- The search that the filters of a description narrow. -/
def start (d : Description) (find : Tier) : Query :=
  let q := Query.ofFind (.ofList d.hierarchy) find
  let q := match d.corpus? with
    | some name => q.withCorpus name
    | none => q
  if d.discourses.isEmpty then q else q.discourses d.discourses

/-- What is done with the tokens found. -/
def finish (d : Description) (aggregates : List Aggregate) (q : Query) : Query :=
  let q := if aggregates.isEmpty then q else q.withAggregates aggregates
  let q := if d.setType.isEmpty then q else q.withTypeUpdate d.setType.entries
  let q := if d.setToken.isEmpty then q else q.withTokenUpdate d.setToken.entries
  if d.delete then q.withDelete else q

theorem request_eq (d : Description) (count : Bool) : d.request count = (do
    let intent ← d.intent count
    let find ← ofTier d.find
    let q ← d.filters.foldlM addFilter (d.start find)
    let columns ← d.columns.mapM column
    let groups ← d.groupBy.mapM ofPath
    let q ← d.orderBy.foldlM addOrder (groups.foldl Query.groupBy (q.withColumns columns))
    let aggregates ← d.aggregates.mapM aggregateOf
    .ok ⟨d.finish aggregates q, intent⟩) := rfl

theorem start_ofQuery (h : q.hierarchy.levels.Nodup) : (ofQuery q).start q.find = q.bare := by
  have hlevels : Hierarchy.ofList q.hierarchy.levels = q.hierarchy := by
    rw [Hierarchy.ofList, distinct_eq_self h]
  simp only [start, ofQuery, hlevels, List.isEmpty_nil, if_true, Query.bare]
  cases q.corpus? <;> rfl

theorem finish_ofQuery {base : Query} (haggregates : base.aggregates = [])
    (hmutation : base.mutation = .none) : (ofQuery q).finish q.aggregates base
      = { base with aggregates := q.aggregates, mutation := q.mutation } := by
  simp only [finish, ofQuery, Query.withAggregates_of_nil haggregates]
  rw [Query.withTypeUpdate_of_empty, Query.withTokenUpdate_of_empty, Query.withDelete_of_false]
  all_goals simp only [hmutation, Mutation.none]

/-- The members of a description build up the query that it was written from. -/
theorem request_ofQuery (hb : q.Built) (h : q.Describable) :
    (ofQuery q).request false
      = .ok ⟨q, if q.mutation.isEmpty then .rows else .mutation⟩ := by
  have hfind : ofTier (ofQuery q).find = .ok q.find := ofTier_written h.find
  have hcolumns : (ofQuery q).columns.mapM column = .ok q.columns :=
    mapM_map_eq_ok fun p hp => column_ofPath (h.columns p hp)
  have hgroups : (ofQuery q).groupBy.mapM ofPath = .ok q.grouping :=
    mapM_map_eq_ok fun p hp => ofPath_plain (h.grouping p hp)
  have haggregates : (ofQuery q).aggregates.mapM aggregateOf = .ok q.aggregates :=
    mapM_map_eq_ok fun a ha => aggregateOf_ofAggregate (h.aggregates a ha)
  have hfilters (base : Query) (hbase : base.find = q.find) :
      (ofQuery q).filters.foldlM addFilter base = .ok (q.criteria.foldl Query.filter base) :=
    foldlM_addFilter h.criteria hbase
  have horder (base : Query) : (ofQuery q).orderBy.foldlM addOrder base = _ :=
    foldlM_addOrder h.ordering base
  have hcriteria (base : Query) (hbase : base.criteria = []) :
      q.criteria.foldl Query.filter base = { base with criteria := q.criteria } := by
    rw [Query.foldl_filter, hbase, List.nil_append]
    simpa [hbase] using hb.keys
  rw [request_eq, intent_ofQuery, hfind]
  simp only [bind, Except.bind, hcolumns, hgroups, haggregates, horder]
  rw [start_ofQuery h.levels, hfilters q.bare rfl, hcriteria q.bare rfl]
  have hkept : q.columns.foldl Query.addColumn q.bare.columns = q.columns := hb.foldl_addColumn
  simp only [Query.withColumns, hkept, Query.foldl_groupBy, Query.foldl_orderBy]
  rw [finish_ofQuery rfl rfl]
  rfl

end Description

/-- Every query that edits build up from a search, and that dotted paths can write, is what its
description asks for: no criterion, column, ordering, group, aggregate or update is lost or changed. -/
theorem descriptions_load_back_unchanged (h : Hierarchy) (find : Tier) (es : List Edit)
    (hq : ((Query.ofFind h find).edits es).Describable) :
    let q := (Query.ofFind h find).edits es
    (Description.ofQuery q).request false
      = .ok ⟨q, if q.mutation.isEmpty then .rows else .mutation⟩ :=
  Description.request_ofQuery ((Query.built_ofFind h find).edits es) hq

/-- A search with a criterion of every kind, grouped, ordered and written to. -/
def Edit.stressedWords : List Edit :=
  let phone := (Tier.ofLevel "phone").withTypeSubset "vowel"
  let syllable := (((Tier.ofLevel "word").hop .previous).hop (.up "syllable")).withTokenSubset "new"
  [.corpus "buckeye",
    .filterContains (phone.attribute .label) (.text "iy"),
    .filterAligned .notLeft syllable,
    .filter ((syllable.attribute .begin).comparePath .lt ((Tier.ofLevel "word").attribute .begin)),
    .filter (((Tier.ofLevel "word").attribute ⟨"stress"⟩).compare .isIn (.array [.text "1"])),
    .columns [(syllable.attribute .label).withAlias "syllable", (Tier.ofLevel "word").attribute .id],
    .timesAs "from" "to",
    .groupBy (((Tier.ofLevel "word").hop .speaker).attribute ⟨"name"⟩),
    .orderBy (((Tier.ofLevel "word").hop .speaker).attribute ⟨"name"⟩) true,
    .aggregates [⟨.count, none, some "words"⟩,
      ⟨.average, some ((Tier.ofLevel "word").attribute .duration), none⟩],
    .typeUpdate [("checked", .bool true), ("stress", .null), ("checked", .bool false)]]

theorem stressedWords_load_back_unchanged :
    let q := (Query.ofFind ⟨["phone", "syllable", "word"]⟩ (Tier.ofLevel "word")).edits
      Edit.stressedWords
    q.Describable ∧ (Description.ofQuery q).request false = .ok ⟨q, .mutation⟩ := by
  have hq : ((Query.ofFind ⟨["phone", "syllable", "word"]⟩ (Tier.ofLevel "word")).edits
      Edit.stressedWords).Describable := by decide
  exact ⟨hq, descriptions_load_back_unchanged _ _ _ hq⟩

end TierQuery
