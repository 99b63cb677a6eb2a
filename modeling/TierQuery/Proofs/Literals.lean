import TierQuery.Proofs.Likeness
import TierQuery.Proofs.Lowering

/-! Lowering looks at no literal. Where a criterion goes, which levels there are and whether a
statement can be made at all depend on the tiers and properties of a query and on the discourses that
it names, and on no other value. -/

namespace TierQuery

open Json (Value)

variable {α β : Type} {root : Tier} {R : Value → Value → Prop}

/-! Criteria -/

/-- Criteria that lowering treats in the same way. They differ in a literal, unless it is a discourse,
or in the label of a contained token, unless this is of the level searched for. -/
inductive Criterion.Like (root : Tier) (R : Value → Value → Prop) : Criterion → Criterion → Prop
  | value {path : AttributePath} (op : CompareOp) {v w : Value} :
    (path.property = .discourse → v = w) → R v w →
    Like root R (.comparison path op (.value v)) (.comparison path op (.value w))
  | path (path : AttributePath) (op : CompareOp) (other : AttributePath) :
    Like root R (.comparison path op (.path other)) (.comparison path op (.path other))
  | contains (container : Tier) {path : AttributePath} {d : Option String} {v w : Value} :
    (Discourse.onRoot root path.tier = true → d = path.tier.discourse) → R v w →
    Like root R (.contains container path v)
      (.contains container (path.withTier (path.tier.withDiscourse d)) w)
  | alignment (kind : Alignment) (a b : Tier) :
    Like root R (.alignment kind a b) (.alignment kind a b)

/-- A tier that is not of the searched-for level adds nothing to the labels of a criterion. -/
theorem filter_distinct_pair {P : Tier → Bool} {a b : Tier} (hb : P b = false) :
    (distinct [a, b]).filter P = [a].filter P := by
  by_cases h : b = a
  · simp [distinct, h]
  · simp [distinct, h, hb, List.filter_cons]

namespace Criterion

theorem discourseLiteral?_eq_none {path : AttributePath} {op : CompareOp} {operand : Operand}
    (h : path.property ≠ .discourse) : (comparison path op operand).discourseLiteral? = none := by
  by_contra hne
  obtain ⟨d, hd⟩ := Option.ne_none_iff_exists'.1 hne
  obtain ⟨path', hp, he⟩ := discourseLiteral?_eq_some hd
  rcases he with he | he <;> (cases he; exact h hp)

namespace Like

variable {c d : Criterion} (h : c.Like root R d)

include h

theorem boundTiers_eq : c.boundTiers = d.boundTiers := by
  cases h <;> rfl

theorem discourseLiteral?_eq : c.discourseLiteral? = d.discourseLiteral? := by
  cases h with
  | @value path op v w hvw hR =>
    by_cases hp : path.property = .discourse
    · rw [hvw hp]
    · rw [discourseLiteral?_eq_none hp, discourseLiteral?_eq_none hp]
  | path path op other => rfl
  | contains container hd hR => rfl
  | alignment kind a b => rfl

theorem labels_eq : Discourse.labels root c = Discourse.labels root d := by
  have hliteral := h.discourseLiteral?_eq
  cases h with
  | value op hvw hR => simp only [Discourse.labels, Discourse.rootLiteral?, hliteral, tiers]
  | path path op other => rfl
  | @contains container path e v w he hR =>
    cases hroot : Discourse.onRoot root path.tier with
    | true => rw [he hroot]; rfl
    | false =>
      have hroot' : Discourse.onRoot root (path.tier.withDiscourse e) = false := hroot
      simp only [Discourse.labels, Discourse.rootLiteral?, tiers, AttributePath.withTier,
        filter_distinct_pair hroot, filter_distinct_pair hroot']
  | alignment kind a b => rfl

theorem route_eq (f : Frame) (t : LevelTable) : c.route f t = d.route f t := by
  cases h <;> rfl

theorem pin? (r : Route) : Option.Rel R (Placed.pin? ⟨c, r⟩) (Placed.pin? ⟨d, r⟩) := by
  cases h with
  | value op hvw hR => cases r <;> cases op <;> first | exact .none | exact .some hR
  | path path op other => cases r <;> cases op <;> exact .none
  | contains container hd hR => cases r <;> exact .none
  | alignment kind a b => cases r <;> exact .none

end Like

end Criterion

/-! Frame and levels -/

/-- Of the criteria, a frame sees the discourses that they name. -/
theorem Frame.ofQuery_congr {h : Hierarchy} {find : Tier} {cs ds : List Criterion}
    (hcs : List.Forall₂ (fun c d => Discourse.labels find c = Discourse.labels find d) cs ds) :
    ofQuery h find cs = ofQuery h find ds := by
  have hlabels : cs.flatMap (Discourse.labels find) = ds.flatMap (Discourse.labels find) := by
    induction hcs with
    | nil => rfl
    | cons hcd _ ih => rw [List.flatMap_cons, List.flatMap_cons, hcd, ih]
  simp only [ofQuery, Discourse.collect, hlabels]

theorem References.bindingMentions_congr {cs ds : List Criterion}
    (hcs : List.Forall₂ (Criterion.Like root R) cs ds) :
    bindingMentions cs = bindingMentions ds := by
  have hmap (xs : List Criterion) : bindingMentions xs = (xs.map Criterion.boundTiers).zipIdx.flatMap
      fun (as, n) => as.map fun a => ⟨a, .criterion n, true⟩ := by
    rw [bindingMentions, List.zipIdx_map, List.flatMap_map]
    rfl
  have hbound : cs.map Criterion.boundTiers = ds.map Criterion.boundTiers := by
    induction hcs with
    | nil => rfl
    | cons hcd _ ih => rw [List.map_cons, List.map_cons, hcd.boundTiers_eq, ih]
  rw [hmap, hmap, hbound]

/-! Places -/

section Places

variable {S : Placed → Placed → Prop} {p q : Placement}

theorem takePin_rel (hpin : ∀ x y, S x y → Option.Rel R x.pin? y.pin?) (h : List.Forall₂ S p q) :
    Option.Rel R (takePin p).1 (takePin q).1 ∧ List.Forall₂ S (takePin p).2 (takePin q).2 := by
  induction h with
  | nil => exact ⟨.none, .nil⟩
  | @cons x y xs ys hxy hrest ih =>
    have hR := hpin x y hxy
    unfold takePin
    generalize x.pin? = v at hR
    generalize y.pin? = w at hR
    cases hR with
    | none => exact ⟨ih.1, .cons hxy ih.2⟩
    | some hR => exact ⟨.some hR, hrest⟩

/-- Where the pins are the same, the same one is taken. -/
theorem takePin_congr (hpin : ∀ x y, S x y → x.pin? = y.pin?) (h : List.Forall₂ S p q) :
    (takePin p).1 = (takePin q).1 ∧ List.Forall₂ S (takePin p).2 (takePin q).2 := by
  have hrel (v w : Option Value) : Option.Rel Eq v w ↔ v = w := by
    refine ⟨fun hvw => by cases hvw <;> simp_all, ?_⟩
    rintro rfl
    cases v with
    | none => exact .none
    | some v => exact .some rfl
  obtain ⟨hfirst, hrest⟩ := takePin_rel (fun x y hxy => (hrel _ _).2 (hpin x y hxy)) h
  exact ⟨(hrel _ _).1 hfirst, hrest⟩

theorem fixesDiscourse_congr (label : String)
    (h : List.Forall₂
      (fun x y => x.criterion.discourseLiteral? = y.criterion.discourseLiteral?) p q) :
    fixesDiscourse label p = fixesDiscourse label q := by
  induction h with
  | nil => rfl
  | cons hxy _ ih => simp only [fixesDiscourse, hxy, ih]

variable (hS : ∀ {x y}, S x y → x.route = y.route) (h : List.Forall₂ S p q)

include hS h

theorem Placement.rel_inline (n : LevelId) : List.Forall₂ S (p.inline n) (q.inline n) :=
  List.rel_filter (fun {x y} hxy => by simp only [hS hxy]) h

theorem Placement.rel_relationships {C : Criterion → Criterion → Prop}
    (hC : ∀ {x y}, S x y → C x.criterion y.criterion) :
    List.Forall₂ C p.relationships q.relationships := by
  unfold relationships
  rw [List.forall₂_map_left_iff, List.forall₂_map_right_iff]
  have := List.rel_filter (R := S) (p := (·.route = .relationship))
    (q := (·.route = .relationship)) (fun {x y} hxy => by simp only [hS hxy]) h
  exact this.imp fun _ _ hxy => hC hxy

theorem Placement.rel_filters {C : Criterion → Criterion → Prop}
    (hC : ∀ {x y}, S x y → C x.criterion y.criterion) :
    List.Forall₂ (fun x y : Criterion × LevelId => C x.1 y.1 ∧ x.2 = y.2) p.filters q.filters := by
  refine List.rel_filterMap (fun x y hxy => ?_) h
  rw [hS hxy]
  split
  · exact .some ⟨hC hxy, rfl⟩
  · exact .none

end Places

structure Placed.Like (root : Tier) (R : Value → Value → Prop) (x y : Placed) : Prop where
  criterion : x.criterion.Like root R y.criterion
  route : x.route = y.route

abbrev Placement.Like (root : Tier) (R : Value → Value → Prop) (p q : Placement) : Prop :=
  List.Forall₂ (Placed.Like root R) p q

theorem Placement.ofCriteria_like {cs ds : List Criterion}
    (hcs : List.Forall₂ (Criterion.Like root R) cs ds) (f : Frame) (t : LevelTable) :
    SameOutcome (Placement.Like root R) (ofCriteria f t cs) (ofCriteria f t ds) :=
  SameOutcome.mapM hcs fun c d hcd => by
    rw [hcd.route_eq]
    exact .bind_left _ fun r => .ok ⟨hcd, rfl⟩

theorem takePin_like {xs ys : List Placed} (h : Placement.Like root R xs ys) :
    Option.Rel R (takePin xs).1 (takePin ys).1 ∧
      Placement.Like root R (takePin xs).2 (takePin ys).2 := by
  refine takePin_rel (fun x y hxy => ?_) h
  obtain ⟨c, r⟩ := x
  obtain ⟨d, s⟩ := y
  obtain ⟨hcd, rfl⟩ := hxy
  exact hcd.pin? r

namespace Placement.Like

variable {p q : Placement} (h : Placement.Like root R p q)

include h

theorem fixesDiscourse (label : String) :
    TierQuery.fixesDiscourse label p = TierQuery.fixesDiscourse label q :=
  fixesDiscourse_congr label (h.imp fun _ _ hxy => hxy.criterion.discourseLiteral?_eq)

theorem inline (n : LevelId) : Placement.Like root R (p.inline n) (q.inline n) :=
  rel_inline (fun hxy => hxy.route) h n

theorem relationships :
    List.Forall₂ (Criterion.Like root R) p.relationships q.relationships :=
  rel_relationships (fun hxy => hxy.route) h fun hxy => hxy.criterion

theorem filters :
    List.Forall₂ (fun x y : Criterion × LevelId => x.1.Like root R y.1 ∧ x.2 = y.2)
      p.filters q.filters :=
  rel_filters (fun hxy => hxy.route) h fun hxy => hxy.criterion

end Placement.Like

/-! Plans -/

theorem Plan.assignments_like (var : String) {b c : Bindings} (h : b.Like R c) :
    List.Forall₂ (Assignment.Like (Literal.Like R)) (assignments var b) (assignments var c) := by
  refine List.rel_map (fun e d hed => ?_) h
  obtain ⟨hn, hv⟩ := hed
  exact ⟨rfl, hn, congrArg ("set_" ++ ·) hn, hv⟩

/-- The value of the condition that is added is a text. -/
theorem Plan.discourseCondition_like (hR : ∀ d, R (.text d) (.text d)) (a : Tier) (var : String)
    (conditions : List Placed) :
    SameOutcome (List.Forall₂ (Predicate.Like (Literal.Like R)))
      (discourseCondition a var conditions) (discourseCondition a var conditions) := by
  unfold discourseCondition
  split
  · exact .ok .nil
  · next label _ =>
    refine .bind_left _ fun fixed => ?_
    split
    · exact .ok .nil
    · exact .ok (.cons ⟨.property var .discourse, rfl, .param ⟨rfl, hR label⟩⟩ .nil)

structure Plan.Like (root : Tier) (R : Value → Value → Prop) (p q : Plan) : Prop where
  corpus : p.corpus? = q.corpus?
  frame : p.frame = q.frame
  table : p.table = q.table
  placement : Placement.Like root R p.placement q.placement

structure Query.Like (R : Value → Value → Prop) (q q' : Query) : Prop where
  hierarchy : q.hierarchy = q'.hierarchy
  corpus : q.corpus? = q'.corpus?
  find : q.find = q'.find
  criteria : List.Forall₂ (Criterion.Like q.find R) q.criteria q'.criteria
  columns : q.columns = q'.columns
  ordering : q.ordering = q'.ordering
  grouping : q.grouping = q'.grouping
  aggregates : q.aggregates = q'.aggregates
  typeProperties : q.mutation.typeProperties.Like R q'.mutation.typeProperties
  tokenProperties : q.mutation.tokenProperties.Like R q'.mutation.tokenProperties
  delete : q.mutation.delete = q'.mutation.delete

namespace Plan.Like

variable {p p' : Plan} (h : p.Like root R p')

include h

theorem var_eq (a : Tier) : p.var a = p'.var a := by
  rw [var, var, h.table, h.frame]

theorem tokenLabels_eq (a : Tier) : p.tokenLabels a = p'.tokenLabels a := by
  rw [tokenLabels, tokenLabels, h.corpus]

theorem typeLabels_eq (a : Tier) : p.typeLabels a = p'.typeLabels a := by
  rw [typeLabels, typeLabels, h.corpus]

theorem pathExpr {S : Literal → Literal → Prop} (path : AttributePath) :
    SameOutcome (Expr.Like S) (p.pathExpr path) (p'.pathExpr path) := by
  rw [Plan.pathExpr, Plan.pathExpr, h.var_eq]
  exact .bind_left _ fun v => .ok (.property v _)

theorem edge?_eq (l : Level) : p.edge? l = p'.edge? l := by
  rw [edge?, edge?, h.table, relation_eq h.frame]

/-- Both comparisons are on the variable `v`. -/
theorem predicate (v : String) {path path' : AttributePath} {op op' : CompareOp}
    {operand operand' : Operand}
    (hc : (Criterion.comparison path op operand).Like root R (.comparison path' op' operand')) :
    SameOutcome (Predicate.Like (Literal.Like R)) (p.predicate v path op operand)
      (p'.predicate v path' op' operand') := by
  cases hc with
  | value op hvw hR => exact .ok ⟨.property v _, rfl, .param ⟨rfl, hR⟩⟩
  | path path op other =>
    exact (h.pathExpr other).bind fun e e' he => .ok ⟨.property v _, rfl, he⟩

theorem predicates (v : String) {cs ds : List Criterion}
    (hcs : List.Forall₂ (Criterion.Like root R) cs ds) :
    SameOutcome (List.Forall₂ (Predicate.Like (Literal.Like R))) (p.predicates v cs)
      (p'.predicates v ds) := by
  induction hcs with
  | nil => exact .ok .nil
  | cons hcd _ ih =>
    have hcd' := hcd
    cases hcd with
    | value op _ _ | path _ op _ =>
      exact (h.predicate v hcd').bind fun x y hxy => ih.bind fun xs ys hxys => .ok (.cons hxy hxys)
    | contains _ _ _ | alignment _ _ _ => exact ih

theorem node (hR : ∀ d, R (.text d) (.text d)) (n : LevelId) (l : Level) {xs ys : List Placed}
    (hxs : Placement.Like root R xs ys) :
    SameOutcome (NodePattern.Like (Literal.Like R)) (p.node n l xs) (p'.node n l ys) := by
  obtain ⟨hpin, hrest⟩ := takePin_like hxs
  have hcs : List.Forall₂ (Criterion.Like root R) ((takePin xs).2.map (·.criterion))
      ((takePin ys).2.map (·.criterion)) :=
    List.rel_map (fun _ _ hxy => hxy.criterion) hrest
  refine (h.predicates l.var hcs).bind fun own own' hown => ?_
  rw [show discourseCondition l.tier l.var xs = discourseCondition l.tier l.var ys by
    simp only [discourseCondition, hxs.fixesDiscourse]]
  refine (discourseCondition_like hR l.tier l.var ys).bind fun added added' hadded =>
    .ok ⟨rfl, rfl, h.tokenLabels_eq _, ?_, ?_, List.rel_append hown hadded⟩
  · exact Literal.like_map hpin "id"
  · simp only [h.typeLabels_eq]

theorem requiredNode (hR : ∀ d, R (.text d) (.text d)) (l : LevelId × Level) :
    SameOutcome (NodePattern.Like (Literal.Like R)) (p.requiredNode l) (p'.requiredNode l) :=
  h.node hR l.1 l.2 (h.placement.inline l.1)

theorem optionalMatch (hR : ∀ d, R (.text d) (.text d)) (l : LevelId × Level) :
    SameOutcome (Option.Rel (OptionalMatch.Like (Literal.Like R))) (p.optionalMatch l)
      (p'.optionalMatch l) := by
  refine (h.node hR l.1 l.2 .nil).bind fun n n' hn => ?_
  rw [h.edge?_eq]
  cases p'.edge? l.2 with
  | none => exact .ok .none
  | some e => exact .ok (.some ⟨rfl, hn⟩)

theorem constraint {c d : Criterion} (hcd : c.Like root R d) :
    SameOutcome (Constraint.Like (Literal.Like R)) (p.constraint c) (p'.constraint d) := by
  have hcd' := hcd
  cases hcd with
  | value op _ _ | path _ op _ =>
    simp only [Plan.constraint, h.var_eq]
    exact .bind_left _ fun x => (h.predicate x hcd').bind fun _ _ hxy => .ok (.compare hxy)
  | alignment kind a b =>
    simp only [Plan.constraint, h.var_eq]
    exact .bind_left _ fun x => .bind_left _ fun y =>
      .ok (.compare ⟨.property x _, rfl, .property y _⟩)
  | @contains container path e v w he hR =>
    simp only [Plan.constraint, h.table, h.frame, h.tokenLabels_eq, h.typeLabels_eq]
    exact .bind_left _ fun l => .ok (.contains ⟨rfl, hR⟩)

theorem filter {x y : Criterion × LevelId} (hxy : x.1.Like root R y.1 ∧ x.2 = y.2) :
    SameOutcome (List.Forall₂ (Predicate.Like (Literal.Like R))) (p.filter x) (p'.filter y) := by
  rw [Plan.filter, Plan.filter, h.table, hxy.2]
  split
  · exact h.predicates _ (.cons hxy.1 .nil)
  · exact .ok .nil

/-- What is returned holds no literal. -/
theorem column (path : AttributePath) :
    SameOutcome (ReturnItem.Like (Literal.Like R)) (p.column path) (p'.column path) :=
  (h.pathExpr path).bind fun _ _ he => .ok ⟨.value he, rfl⟩

theorem aggregate (a : Aggregate) :
    SameOutcome (ReturnItem.Like (Literal.Like R)) (p.aggregate a) (p'.aggregate a) := by
  have harg : SameOutcome (Option.Rel (Expr.Like (Literal.Like R))) (a.path?.mapM p.pathExpr)
      (a.path?.mapM p'.pathExpr) := by
    cases a.path? with
    | none => exact .ok .none
    | some path => exact (h.pathExpr path).bind fun _ _ he => .ok (.some he)
  exact harg.bind fun _ _ he => .ok ⟨.aggregate _ he, rfl⟩

variable {q q' : Query} (hq : q.Like R q')

include hq

theorem rowsTail : SameOutcome (Tail.Like (Literal.Like R)) (p.rowsTail q) (p'.rowsTail q') := by
  simp only [Plan.rowsTail, orderItems, hq.aggregates, hq.columns, hq.ordering, hq.grouping]
  split
  · exact (SameOutcome.mapM_same h.column _).bind fun items items' hitems => .ok (.select _ hitems)
  · refine (SameOutcome.mapM_same h.column _).bind fun groups groups' hgroups => ?_
    exact (SameOutcome.mapM_same h.aggregate _).bind fun as as' has =>
      .ok (.select _ (List.rel_append hgroups has))

theorem mutationTail :
    (p.mutationTail q.mutation).Like (Literal.Like R) (p'.mutationTail q'.mutation) := by
  simp only [Plan.mutationTail, h.table, h.typeLabels_eq, hq.delete, hq.typeProperties.isEmpty_eq]
  split
  · exact .delete _
  · exact .set _ (List.rel_append (assignments_like _ hq.typeProperties)
      (assignments_like _ hq.tokenProperties))

theorem tail (i : Intent) :
    SameOutcome (Tail.Like (Literal.Like R)) (p.tail q i) (p'.tail q' i) := by
  cases i with
  | rows => exact h.rowsTail hq
  | count => exact .ok (.select _ (.cons ⟨.aggregate _ .none, rfl⟩ .nil))
  | mutation => exact .ok (h.mutationTail hq)

theorem body (hR : ∀ d, R (.text d) (.text d)) (i : Intent) :
    SameOutcome (Body.Like (Literal.Like R)) (p.body q i) (p'.body q' i) := by
  have hedges : p.edge? = p'.edge? := funext h.edge?_eq
  simp only [Plan.body, h.table, hedges]
  refine (SameOutcome.mapM_same (h.requiredNode hR) _).bind fun ns ns' hns => ?_
  refine (SameOutcome.mapM h.placement.relationships fun _ _ => h.constraint).bind
    fun ks ks' hks => ?_
  refine (SameOutcome.mapM h.placement.filters fun _ _ => h.filter).bind fun fs fs' hfs => ?_
  refine (SameOutcome.mapM_same (h.optionalMatch hR) _).bind fun os os' hos => ?_
  refine (h.tail hq i).bind fun t t' ht => .ok ⟨hns, rfl, hks, List.rel_flatten hfs, ?_, ht⟩
  exact List.rel_filterMap (fun _ _ ho => ho) hos

end Plan.Like

namespace Query.Like

variable {q q' : Query} (h : q.Like R q')

include h

theorem mentions_eq (i : Intent) : (q.references i).mentions = (q'.references i).mentions := by
  rw [References.mentions_eq, References.mentions_eq, q.criteria_references, q'.criteria_references,
    References.bindingMentions_congr h.criteria]
  cases i with
  | rows =>
    simp only [references, h.aggregates, h.columns, h.ordering, h.grouping]
    split <;> rfl
  | count => rfl
  | mutation => rfl

theorem frame_eq : Frame.ofQuery q.hierarchy q.find q.criteria
    = Frame.ofQuery q'.hierarchy q'.find q'.criteria := by
  rw [← h.hierarchy, ← h.find, Frame.ofQuery_congr (h.criteria.imp fun _ _ hcd => hcd.labels_eq)]

theorem plan (i : Intent) : SameOutcome (Plan.Like q.find R) (q.plan i) (q'.plan i) := by
  simp only [Query.plan, LevelTable.resolve, h.frame_eq, h.mentions_eq, h.corpus]
  exact .bind_left _ fun f => .bind_left _ fun t =>
    (Placement.ofCriteria_like h.criteria f t).bind fun pl pl' hpl => .ok ⟨rfl, rfl, rfl, hpl⟩

theorem validate_eq (i : Intent) : q.validate i = q'.validate i := by
  have hupdates : q.mutation.updates = q'.mutation.updates := by
    rw [Mutation.updates, Mutation.updates, h.typeProperties.isEmpty_eq, h.tokenProperties.isEmpty_eq]
  have hempty : q.mutation.isEmpty = q'.mutation.isEmpty := by
    rw [Mutation.isEmpty, Mutation.isEmpty, hupdates, h.delete]
  cases i with
  | rows =>
    simp only [validate, checkRows, checkAggregates, checkOrder, h.aggregates, h.grouping, h.columns,
      h.ordering]
  | count => simp only [validate, h.grouping]
  | mutation =>
    simp only [validate, checkMutation, hempty, hupdates, h.delete, h.typeProperties.names_eq,
      h.tokenProperties.names_eq]

/-- Statements of alike queries have the same body, over alike tables. -/
theorem compile (hR : ∀ d, R (.text d) (.text d)) (i : Intent) :
    SameOutcome (fun s s' => s.body = s'.body ∧ s.params.Like R s'.params) (q.compile i)
      (q'.compile i) := by
  have hdraft : SameOutcome (Body.Like (Literal.Like R)) (q.draft i) (q'.draft i) :=
    (h.plan i).bind fun p p' hp => hp.body h hR i
  unfold Query.compile
  rw [h.validate_eq]
  split
  · exact .error _
  · rcases hdraft.outcomes with ⟨e, he, he'⟩ | ⟨b, b', hb, hb', hlike⟩
    · rw [he, he']
      exact .error _
    · rw [hb, hb']
      exact .ok (Statement.ofBody_alike hlike)

end Query.Like

end TierQuery
