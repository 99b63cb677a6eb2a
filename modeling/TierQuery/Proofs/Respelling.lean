import TierQuery.Proofs.CanonicalForms
import TierQuery.Proofs.MatchSection
import TierQuery.Proofs.Success

/-! No statement depends on how the criteria spell their tiers, from the level of the tier or from the
searched-for level. Other spellings of the same canonical forms give the same levels and the same
places, with every variable where it was. -/

namespace TierQuery

open Json (Value)

/-! Spellings -/

/-- The criteria differ in the tiers that they bind at most, and these are related. -/
inductive Criterion.Rel (R : Tier → Tier → Prop) : Criterion → Criterion → Prop
  | value {path : AttributePath} {a : Tier} (op : CompareOp) (v : Value) : R path.tier a →
    Rel R (.comparison path op (.value v)) (.comparison (path.withTier a) op (.value v))
  | path {path other : AttributePath} {a b : Tier} (op : CompareOp) : R path.tier a →
    R other.tier b →
    Rel R (.comparison path op (.path other))
      (.comparison (path.withTier a) op (.path (other.withTier b)))
  | contains {container a : Tier} (path : AttributePath) (v : Value) : R container a →
    Rel R (.contains container path v) (.contains a path v)
  | alignment (kind : Alignment) {first second a b : Tier} : R first a → R second b →
    Rel R (.alignment kind first second) (.alignment kind a b)

/-- The queries differ in how their criteria spell the tiers that they bind. -/
structure Query.Respelled (q q' : Query) : Prop where
  criteria : List.Forall₂ (Criterion.Rel (Tier.Respelled q.find.origin)) q.criteria q'.criteria
  rest : q' = { q with criteria := q'.criteria }

/-! Criteria -/

namespace Criterion.Rel

variable {R S : Tier → Tier → Prop} {c d : Criterion}

theorem imp (h : c.Rel R d) (hRS : ∀ a ∈ c.boundTiers, ∀ b ∈ d.boundTiers, R a b → S a b) :
    c.Rel S d := by
  cases h with
  | value op v ha =>
    exact .value op v (hRS _ List.mem_cons_self _ List.mem_cons_self ha)
  | path op ha hb =>
    refine .path op (hRS _ ?_ _ ?_ ha) (hRS _ ?_ _ ?_ hb) <;>
      simp [boundTiers, tiers, AttributePath.withTier]
  | contains path v ha =>
    exact .contains path v (hRS _ List.mem_cons_self _ List.mem_cons_self ha)
  | alignment kind ha hb =>
    refine .alignment kind (hRS _ ?_ _ ?_ ha) (hRS _ ?_ _ ?_ hb) <;> simp [boundTiers, tiers]

theorem flip (h : c.Rel R d) : d.Rel (Function.swap R) c := by
  cases h with
  | value op v ha => exact .value op v ha
  | path op ha hb => exact .path op ha hb
  | contains path v ha => exact .contains path v ha
  | alignment kind ha hb => exact .alignment kind ha hb

theorem mem_right (h : c.Rel R d) {b : Tier} (hb : b ∈ d.boundTiers) :
    ∃ a ∈ c.boundTiers, R a b := by
  cases h with
  | value op v ha =>
    obtain rfl := List.mem_singleton.1 hb
    exact ⟨_, List.mem_cons_self, ha⟩
  | path op ha ho =>
    simp only [boundTiers, tiers, mem_distinct, List.mem_cons, List.not_mem_nil, or_false] at hb ⊢
    rcases hb with rfl | rfl
    · exact ⟨_, Or.inl rfl, ha⟩
    · exact ⟨_, Or.inr rfl, ho⟩
  | contains path v ha =>
    obtain rfl := List.mem_singleton.1 hb
    exact ⟨_, List.mem_cons_self, ha⟩
  | alignment kind ha ho =>
    simp only [boundTiers, tiers, mem_distinct, List.mem_cons, List.not_mem_nil, or_false] at hb ⊢
    rcases hb with rfl | rfl
    · exact ⟨_, Or.inl rfl, ha⟩
    · exact ⟨_, Or.inr rfl, ho⟩

theorem discourseLiteral?_eq (h : c.Rel R d) : c.discourseLiteral? = d.discourseLiteral? := by
  cases h with
  | value op v ha =>
    cases op <;> cases v <;> try rfl
    next vs =>
      cases vs with
      | nil => rfl
      | cons v vs => cases vs <;> rfl
  | path op ha hb => cases op <;> rfl
  | contains path v ha => rfl
  | alignment kind ha hb => rfl

theorem pin?_eq (h : c.Rel R d) (r : Route) : Placed.pin? ⟨c, r⟩ = Placed.pin? ⟨d, r⟩ := by
  cases h with
  | value op v ha => cases r <;> cases op <;> rfl
  | path op ha hb => cases r <;> cases op <;> rfl
  | contains path v ha => cases r <;> rfl
  | alignment kind ha hb => cases r <;> rfl

section Labels

variable {root : Tier} (h : c.Rel (Tier.Respelled root.origin) d)

include h

theorem tiers_onRoot :
    c.tiers.filter (Discourse.onRoot root) = d.tiers.filter (Discourse.onRoot root) := by
  have hpair {a b a' b' : Tier} (ha : a.Respelled root.origin a')
      (hb : b.Respelled root.origin b') :
      (distinct [a, b]).filter (Discourse.onRoot root)
        = (distinct [a', b']).filter (Discourse.onRoot root) := by
    rw [filter_distinct, filter_distinct, ← List.singleton_append, List.filter_append,
      ha.filter_onRoot, hb.filter_onRoot, ← List.filter_append, List.singleton_append]
  cases h with
  | value op v ha => exact ha.filter_onRoot
  | path op ha hb => exact hpair ha hb
  | contains path v ha => exact hpair ha (.same path.tier)
  | alignment kind ha hb => exact hpair ha hb

theorem rootLiteral?_eq : Discourse.rootLiteral? root c = Discourse.rootLiteral? root d := by
  have hsame := h.discourseLiteral?_eq
  cases h with
  | value op v ha | path op ha hb =>
    rw [Discourse.rootLiteral?, Discourse.rootLiteral?, ha.onRoot_eq, hsame]
    rfl
  | contains path v ha => rfl
  | alignment kind ha hb => rfl

/-- Only mentions of the searched-for level name discourses. -/
theorem labels_eq : Discourse.labels root c = Discourse.labels root d := by
  rw [Discourse.labels, Discourse.labels, h.tiers_onRoot, h.rootLiteral?_eq]

end Labels

end Criterion.Rel

/-! Levels of two spellings -/

/-- The tables agree but for what refers to a level. -/
theorem LevelTable.bare_levelsOf_congr {f : Frame} {placed placed' : List (Mention × Tier)}
    (ht : tiersOf f placed = tiersOf f placed')
    (hr : ∀ a, a ∈ requiredOf f placed ↔ a ∈ requiredOf f placed') :
    (levelsOf f placed).map Level.bare = (levelsOf f placed').map Level.bare := by
  rw [levelsOf_eq_map, levelsOf_eq_map, List.map_map, List.map_map, ht]
  refine List.map_congr_left fun x _ => ?_
  simp [Level.bare, levelOf, hr]

namespace Frame

variable {f : Frame}

/-- The tiers that one passes on the way to where a spelling leads, and that tier. -/
def way (f : Frame) (a : Tier) : List Tier :=
  match f.canonical a with
  | .ok t => t.chain
  | .error _ => []

theorem way_respelled {a b : Tier} (h : a.Respelled f.root.origin b) : f.way a = f.way b := by
  unfold way
  cases ha : f.canonical a with
  | ok t => rw [h.canonical_iff.1 ha]
  | error e =>
    cases hb : f.canonical b with
    | ok t => rw [h.canonical_iff.2 hb] at ha; cases ha
    | error e' => rfl

theorem flatMap_way {xs : List (Mention × Tier)} (hp : ∀ x ∈ xs, f.canonical x.1.tier = .ok x.2) :
    xs.flatMap (fun x => x.2.chain) = (xs.map (·.1.tier)).flatMap f.way := by
  rw [List.flatMap_map]
  refine List.flatMap_congr fun x hx => ?_
  rw [way, hp x hx]

end Frame

theorem Criterion.Rel.distinct_way {f : Frame} {c d : Criterion}
    (h : c.Rel (Tier.Respelled f.root.origin) d) :
    distinct (c.boundTiers.flatMap f.way) = distinct (d.boundTiers.flatMap f.way) := by
  cases h with
  | value op v ha => exact congrArg (fun as => distinct (as ++ [])) (Frame.way_respelled ha)
  | path op ha hb | alignment kind ha hb =>
    simp only [boundTiers, tiers, distinct_flatMap_pair, AttributePath.withTier,
      Frame.way_respelled ha, Frame.way_respelled hb]
  | contains path v ha => exact congrArg (fun as => distinct (as ++ [])) (Frame.way_respelled ha)

namespace Analysis

variable {q : Query} {i : Intent} {p : Plan} {placed : List (Mention × Tier)}

theorem tiersOf_eq (h : Analysis q i p placed) : LevelTable.tiersOf p.frame placed =
    distinct (p.frame.root.chain ++ (q.mentioned i).flatMap p.frame.way) := by
  rw [LevelTable.tiersOf, Frame.flatMap_way h.canonical, h.mentioned_eq]

theorem requiredOf_eq (h : Analysis q i p placed) : LevelTable.requiredOf p.frame placed =
    p.frame.root.chain ++ (q.criteria.flatMap Criterion.boundTiers).flatMap p.frame.way := by
  have hbound : (References.bindingMentions q.criteria).filter (·.binding)
      = References.bindingMentions q.criteria :=
    List.filter_eq_self.2 fun m hm => References.binding_of_mem hm
  have hlater : (q.references i).laterMentions.filter (·.binding) = [] :=
    List.filter_eq_nil_iff.2 fun m hm => by simp [References.not_binding_of_mem hm]
  have hbinding : (placed.filter (·.1.binding)).map Prod.fst
      = References.bindingMentions q.criteria := by
    calc (placed.filter (·.1.binding)).map Prod.fst
        = (placed.map Prod.fst).filter (·.binding) := List.filter_map.symm
      _ = References.bindingMentions q.criteria := by
        rw [h.mentions, References.mentions_eq, q.criteria_references, List.filter_append, hbound,
          hlater, List.append_nil]
  rw [LevelTable.requiredOf, Frame.flatMap_way fun x hx => h.canonical x (List.mem_filter.1 hx).1,
    ← References.map_tier_bindingMentions, ← hbinding, List.map_map]
  rfl

end Analysis

/-! Plans of two spellings -/

namespace Plan

/-- The spellings mean the same level of the two plans. -/
def SameLevel (p p' : Plan) (a b : Tier) : Prop :=
  ∃ n l k, p.table.lookup p.frame a = .ok (n, l) ∧ p'.table.lookup p'.frame b = .ok (n, k) ∧
    l.bare = k.bare

/-- The place is the same, of criteria about the same levels. -/
structure SamePlace (p p' : Plan) (x y : Placed) : Prop where
  criterion : x.criterion.Rel (p.SameLevel p') y.criterion
  route : x.route = y.route

/-- The plans have the same levels, and the criteria of the one have their places in the other. -/
structure SameUpToSpelling (p p' : Plan) : Prop where
  corpus : p.corpus? = p'.corpus?
  frame : p.frame = p'.frame
  levels : p.table.levels.map Level.bare = p'.table.levels.map Level.bare
  placement : List.Forall₂ (p.SamePlace p') p.placement p'.placement

variable {p p' : Plan} {a b : Tier}

theorem SameLevel.var_eq (h : p.SameLevel p' a b) : p.var a = p'.var b := by
  obtain ⟨n, l, k, hl, hk, hb⟩ := h
  rw [var, var, hl, hk]
  exact congrArg (fun l => Except.ok l.var) hb

theorem SameLevel.pathExpr_eq {path : AttributePath} (h : p.SameLevel p' path.tier b) :
    p.pathExpr path = p'.pathExpr (path.withTier b) := by
  rw [pathExpr, pathExpr, h.var_eq]
  rfl

theorem predicates_respelled (v : String) {cs ds : List Criterion}
    (h : List.Forall₂ (Criterion.Rel (p.SameLevel p')) cs ds) :
    p.predicates v cs = p'.predicates v ds := by
  induction h with
  | nil => rfl
  | cons hcd _ ih =>
    cases hcd with
    | value op x ha => rw [predicates, predicates, ih]; rfl
    | path op ha hb => rw [predicates, predicates, predicate, predicate, ih, hb.pathExpr_eq]; rfl
    | contains path x ha => exact ih
    | alignment kind ha hb => exact ih

/-- What rows return are levels of both plans. -/
theorem rowsTail_respelled {q q' : Query} (hq : q' = { q with criteria := q'.criteria })
    (hread : ∀ path ∈ q.returned ++ q.aggregates.filterMap (·.path?),
      p.SameLevel p' path.tier path.tier) : p.rowsTail q = p'.rowsTail q' := by
  have hcolumns : q.returned.mapM p.column = q.returned.mapM p'.column :=
    mapM_congr fun path hp => by
      rw [column, column, (hread path (List.mem_append_left _ hp)).pathExpr_eq]
      rfl
  have haggregates : q.aggregates.mapM p.aggregate = q.aggregates.mapM p'.aggregate :=
    mapM_congr fun a ha => by
      rw [aggregate, aggregate]
      cases hpath : a.path? with
      | none => rfl
      | some path =>
        have hp := List.mem_append_right q.returned (List.mem_filterMap.2 ⟨a, ha, hpath⟩)
        rw [Option.mapM_some, Option.mapM_some, (hread path hp).pathExpr_eq]
        rfl
  have horder : orderItems q' = orderItems q := by rw [hq]; rfl
  rw [rowsTail, rowsTail, horder, hq]
  by_cases ha : q.aggregates = []
  · have hselect : q.columns.mapM p.column = q.columns.mapM p'.column := by
      simpa [Query.returned, ha] using hcolumns
    simp only [ha, List.isEmpty_nil, if_true, hselect]
  · have hselect : q.grouping.mapM p.column = q.grouping.mapM p'.column := by
      simpa [Query.returned, ha] using hcolumns
    simp only [List.isEmpty_iff, ha, if_false, hselect, haggregates]

end Plan

theorem Criterion.Rel.route_eq {p p' : Plan} {c d : Criterion} (h : c.Rel (p.SameLevel p') d)
    (hf : p.frame = p'.frame) : c.route p.frame p.table = d.route p'.frame p'.table := by
  cases h with
  | value op x ha =>
    obtain ⟨n, l, k, hl, hk, -⟩ := ha
    simp only [route, AttributePath.withTier, hl, hk]
    rfl
  | path op ha hb =>
    obtain ⟨n, l, k, hl, hk, -⟩ := ha
    obtain ⟨m, l', k', hl', hk', -⟩ := hb
    simp only [route, AttributePath.withTier, hl, hk, hl', hk']
    rfl
  | contains path x ha =>
    obtain ⟨n, l, k, hl, hk, hb⟩ := ha
    have hname : l.tier.name = k.tier.name := congrArg (fun l => l.tier.name) hb
    rw [route, route, ← hf, hl, hf, hk]
    simp only [bind, Except.bind, hname]
  | alignment kind ha hb => rfl

namespace Plan.SameUpToSpelling

open LevelTable

variable {p p' : Plan} (h : p.SameUpToSpelling p')

include h

theorem tokenLabels_eq : p.tokenLabels = p'.tokenLabels := by
  funext a
  rw [tokenLabels, tokenLabels, h.corpus]

theorem typeLabels_eq : p.typeLabels = p'.typeLabels := by
  funext a
  rw [typeLabels, typeLabels, h.corpus]

theorem node_eq (l : LevelId × Level) {xs ys : List Placed}
    (hxs : List.Forall₂ (p.SamePlace p') xs ys) : p.node l.1 l.2 xs = p'.node l.1 l.2 ys := by
  obtain ⟨hpin, hrest⟩ := takePin_congr (fun x y hxy => by
    obtain ⟨c, r⟩ := x
    obtain ⟨d, s⟩ := y
    obtain ⟨hcd, rfl⟩ := hxy
    exact hcd.pin?_eq r) hxs
  have hpred : p.predicates l.2.var ((takePin xs).2.map (·.criterion))
      = p'.predicates l.2.var ((takePin ys).2.map (·.criterion)) :=
    predicates_respelled _ (List.rel_map (fun _ _ hxy => hxy.criterion) hrest)
  have hadded : discourseCondition l.2.tier l.2.var xs = discourseCondition l.2.tier l.2.var ys := by
    have hfixed (label : String) : fixesDiscourse label xs = fixesDiscourse label ys :=
      fixesDiscourse_congr label (hxs.imp fun _ _ hxy => hxy.criterion.discourseLiteral?_eq)
    simp only [discourseCondition, hfixed]
  simp only [node, hpred, hadded, h.tokenLabels_eq, h.typeLabels_eq, hpin]

theorem edge?_eq : p.edge? = p'.edge? := by
  funext l
  rw [edge?_bare, edge?_bare, h.levels, relation_eq h.frame]

theorem requiredNode_eq : p.requiredNode = p'.requiredNode := by
  funext l
  exact h.node_eq l (Placement.rel_inline (fun hxy => hxy.route) h.placement l.1)

theorem optionalMatch_eq : p.optionalMatch = p'.optionalMatch := by
  funext l
  rw [optionalMatch, optionalMatch, h.node_eq l .nil, h.edge?_eq]

theorem constraint_eq {c d : Criterion} (hcd : c.Rel (p.SameLevel p') d) :
    p.constraint c = p'.constraint d := by
  cases hcd with
  | value op x ha =>
    rw [constraint, constraint, ha.var_eq]
    rfl
  | path op ha hb =>
    simp only [constraint, predicate, ha.var_eq, hb.pathExpr_eq]
    rfl
  | contains path x ha =>
    obtain ⟨n, l, k, hl, hk, hb⟩ := ha
    have hvar : l.var = k.var := congrArg (fun l => l.var) hb
    have htier : l.tier = k.tier := congrArg (fun l => l.tier) hb
    rw [constraint, constraint, hl, hk]
    simp only [bind, Except.bind, hvar, htier, h.frame, h.tokenLabels_eq, h.typeLabels_eq]
  | alignment kind ha hb => rw [constraint, constraint, ha.var_eq, hb.var_eq]

theorem filter_eq {x y : Criterion × LevelId} (hxy : x.1.Rel (p.SameLevel p') y.1 ∧ x.2 = y.2) :
    p.filter x = p'.filter y := by
  have hbare (p : Plan) (x : Criterion × LevelId) :
      p.filter x = (p.table.levels.map Level.bare)[x.2]?.elim (.ok [])
        fun l => p.predicates l.var [x.1] := by
    rw [filter, List.getElem?_map]
    cases p.table.levels[x.2]? <;> rfl
  have hpred (v : String) : p.predicates v [x.1] = p'.predicates v [y.1] :=
    predicates_respelled v (.cons hxy.1 .nil)
  rw [hbare, hbare, h.levels, hxy.2]
  simp only [hpred]

theorem required_eq : p.table.required.map bareEntry = p'.table.required.map bareEntry := by
  rw [bareEntry_required, bareEntry_required, h.levels]

theorem optional_eq : p.table.optional.map bareEntry = p'.table.optional.map bareEntry := by
  have hbare (t : LevelTable) := t.bareEntry_filter (!·)
  exact (hbare _).trans (h.levels ▸ (hbare _).symm)

theorem root_eq : p.table.root.bare = p'.table.root.bare := by
  have hhead (t : LevelTable) : (t.levels.map Level.bare).head? = some t.root.bare := by
    rw [List.head?_map, List.head?_eq_some_head t.nonempty]
    rfl
  exact Option.some.inj ((hhead _).symm.trans (h.levels ▸ hhead _))

theorem mutationTail_eq (m : Mutation) : p.mutationTail m = p'.mutationTail m := by
  have hvar : p.table.root.var = p'.table.root.var := congrArg (fun l => l.var) h.root_eq
  have htypeVar : p.table.root.typeVar = p'.table.root.typeVar :=
    congrArg (fun l => l.typeVar) h.root_eq
  have htier : p.table.root.tier = p'.table.root.tier := congrArg (fun l => l.tier) h.root_eq
  rw [mutationTail, mutationTail, hvar, htypeVar, htier, h.typeLabels_eq]

theorem tail_eq {q q' : Query} {i : Intent} (hq : q' = { q with criteria := q'.criteria })
    (hread : i = .rows → ∀ path ∈ q.returned ++ q.aggregates.filterMap (·.path?),
      p.SameLevel p' path.tier path.tier) : p.tail q i = p'.tail q' i := by
  cases i with
  | rows => exact rowsTail_respelled hq (hread rfl)
  | count => rfl
  | mutation =>
    rw [tail, tail, h.mutationTail_eq, hq]

/-- A body is put together from what is the same of both plans. -/
theorem body_eq {q q' : Query} {i : Intent} (hq : q' = { q with criteria := q'.criteria })
    (hread : i = .rows → ∀ path ∈ q.returned ++ q.aggregates.filterMap (·.path?),
      p.SameLevel p' path.tier path.tier) : p.body q i = p'.body q' i := by
  have hnodes : p.table.required.mapM p.requiredNode
      = p'.table.required.mapM p'.requiredNode := by
    rw [h.requiredNode_eq]
    exact mapM_eq_of_bareEntry h.required_eq fun _ => rfl
  have hedges : p.table.required.filterMap (fun l => p.edge? l.2)
      = p'.table.required.filterMap fun l => p'.edge? l.2 := by
    rw [h.edge?_eq]
    exact filterMap_eq_of_bareEntry h.required_eq fun _ => rfl
  have hconstraints : p.placement.relationships.mapM p.constraint
      = p'.placement.relationships.mapM p'.constraint :=
    mapM_eq_of_forall₂ ((Placement.rel_relationships (fun hxy => hxy.route) h.placement
      fun hxy => hxy.criterion).imp fun _ _ => h.constraint_eq)
  have hfilters : p.placement.filters.mapM p.filter = p'.placement.filters.mapM p'.filter :=
    mapM_eq_of_forall₂ ((Placement.rel_filters (fun hxy => hxy.route) h.placement
      fun hxy => hxy.criterion).imp fun _ _ => h.filter_eq)
  have hoptional : p.table.optional.mapM p.optionalMatch
      = p'.table.optional.mapM p'.optionalMatch := by
    rw [h.optionalMatch_eq]
    exact mapM_eq_of_bareEntry h.optional_eq fun _ => rfl
  rw [body, body]
  simp only [hnodes, hedges, hconstraints, hfilters, hoptional, h.tail_eq hq hread]

end Plan.SameUpToSpelling

/-! Queries in two spellings -/

/-- A containment stays routable. -/
theorem Criterion.Rel.routable {f : Frame} {c d : Criterion}
    (h : c.Rel (Tier.Respelled f.root.origin) d) (hc : c.Routable f) : d.Routable f := by
  cases h with
  | contains path x ha =>
    obtain ⟨hp, hh, t, ht, habove⟩ := hc
    exact ⟨hp, hh, t, ha.canonical_iff.1 ht, habove⟩
  | value op x ha => trivial
  | path op ha hb => trivial
  | alignment kind ha hb => trivial

namespace Query.Respelled

variable {q q' : Query} {i : Intent}

theorem symm (h : q.Respelled q') : q'.Respelled q where
  criteria := by
    rw [h.rest]
    exact h.criteria.flip.imp fun _ _ hcd => hcd.flip.imp fun _ _ _ _ hab => hab.symm
  rest := by rw [h.rest]

theorem frame (h : q.Respelled q') :
    Frame.ofQuery q'.hierarchy q'.find q'.criteria = Frame.ofQuery q.hierarchy q.find q.criteria := by
  rw [h.rest]
  exact (Frame.ofQuery_congr (h.criteria.imp fun _ _ hcd => hcd.labels_eq)).symm

theorem mentioned (h : q.Respelled q') : ∃ later,
    q.mentioned i = q.criteria.flatMap Criterion.boundTiers ++ later ∧
      q'.mentioned i = q'.criteria.flatMap Criterion.boundTiers ++ later := by
  rw [h.rest]
  exact ⟨_, q.mentioned_criteria i q.criteria, q.mentioned_criteria i q'.criteria⟩

/-- In the frame of the query the criteria are respelled from its searched-for level. -/
theorem criteria_in (h : q.Respelled q') {f : Frame}
    (hf : Frame.ofQuery q.hierarchy q.find q.criteria = .ok f) :
    List.Forall₂ (Criterion.Rel (Tier.Respelled f.root.origin)) q.criteria q'.criteria := by
  rw [(Frame.ofQuery_eq_ok hf).2]
  exact h.criteria

theorem exists_plan (h : q.Respelled q') (hp : ∃ p, q.plan i = .ok p) : ∃ p, q'.plan i = .ok p := by
  obtain ⟨f, hf, hcanonical, hroutable⟩ := exists_plan_iff.1 hp
  have hcriteria := h.criteria_in hf
  refine exists_plan_iff.2 ⟨f, h.frame.trans hf, fun b hb => ?_, fun d hd => ?_⟩
  · obtain ⟨later, hq, hq'⟩ := h.mentioned (i := i)
    rw [hq', List.mem_append, List.mem_flatMap] at hb
    rcases hb with ⟨d, hd, hb⟩ | hb
    · obtain ⟨c, hc, hcd⟩ := forall₂_mem_right hcriteria hd
      obtain ⟨a, ha, hab⟩ := hcd.mem_right hb
      obtain ⟨t, ht⟩ := hcanonical a (hq ▸ List.mem_append_left _ (List.mem_flatMap.2 ⟨c, hc, ha⟩))
      exact ⟨t, hab.canonical_iff.1 ht⟩
    · exact hcanonical b (hq ▸ List.mem_append_right _ hb)
  · obtain ⟨c, hc, hcd⟩ := forall₂_mem_right hcriteria hd
    exact hcd.routable (hroutable c hc)

variable {p p' : Plan} {placed placed' : List (Mention × Tier)}

theorem levels (h : q.Respelled q') (ha : Analysis q i p placed) (ha' : Analysis q' i p' placed')
    (hf : p.frame = p'.frame) :
    p.table.levels.map Level.bare = p'.table.levels.map Level.bare := by
  have hbound : distinct ((q.criteria.flatMap Criterion.boundTiers).flatMap p.frame.way)
      = distinct ((q'.criteria.flatMap Criterion.boundTiers).flatMap p.frame.way) := by
    rw [List.flatMap_assoc, List.flatMap_assoc]
    exact distinct_flatMap_congr ((h.criteria_in ha.frame).imp fun _ _ hcd => hcd.distinct_way)
  -- where two spellings become one, a criterion mentions one tier less, which was there before
  obtain ⟨later, hq, hq'⟩ := h.mentioned (i := i)
  rw [ha.levels_eq, ha'.levels_eq, ← hf]
  refine LevelTable.bare_levelsOf_congr ?_ fun t => ?_
  · have htiers' := ha'.tiersOf_eq
    rw [← hf] at htiers'
    rw [ha.tiersOf_eq, htiers', hq, hq', List.flatMap_append, List.flatMap_append]
    exact distinct_append_congr rfl (distinct_append_congr hbound rfl)
  · have hrequired' := ha'.requiredOf_eq
    rw [← hf] at hrequired'
    rw [ha.requiredOf_eq, hrequired', ← mem_distinct, distinct_append_congr rfl hbound, mem_distinct]

/-- Spellings with one canonical form mean one level. -/
theorem sameLevel (h : q.Respelled q') (ha : Analysis q i p placed)
    (ha' : Analysis q' i p' placed') (hf : p.frame = p'.frame) {a b : Tier} {n m : LevelId}
    {l k : Level} (hl : p.Resolves a n l) (hk : p'.Resolves b m k)
    (hab : ∀ t, p.frame.canonical a = .ok t ↔ p.frame.canonical b = .ok t) :
    p.SameLevel p' a b := by
  have htier : k.tier = l.tier := by
    have hkt := hk.canonical
    rw [← hf, (hab l.tier).1 hl.canonical] at hkt
    exact (Except.ok.inj hkt).symm
  have hlevels : (p.table.levels[m]?).map Level.bare = some k.bare := by
    rw [← List.getElem?_map, h.levels ha ha' hf, List.getElem?_map, hk.level]
    rfl
  obtain ⟨l', hl', hbare⟩ := Option.map_eq_some_iff.1 hlevels
  have htier' : l'.tier = k.tier := congrArg (fun l => l.tier) hbare
  obtain ⟨rfl, rfl⟩ := ha.level_unique hl.level hl' (htier'.trans htier).symm
  exact ⟨n, l, k, hl.lookup, hk.lookup, hbare⟩

theorem sameUpToSpelling (h : q.Respelled q') (ha : Analysis q i p placed)
    (ha' : Analysis q' i p' placed') : p.SameUpToSpelling p' := by
  have hf : p.frame = p'.frame := Except.ok.inj (ha.frame.symm.trans (h.frame ▸ ha'.frame))
  have hcriteria : List.Forall₂
      (fun x y => x.criterion.Rel (Tier.Respelled p.frame.root.origin) y.criterion)
      p.placement p'.placement := by
    have hrel := h.criteria_in ha.frame
    rwa [← ha.criteria_eq, ← ha'.criteria_eq, List.forall₂_map_left_iff,
      List.forall₂_map_right_iff] at hrel
  refine ⟨?_, hf, h.levels ha ha' hf, ?_⟩
  · rw [ha.corpus, ha'.corpus, h.rest]
  · refine (forall₂_with_mem (forall₂_with_mem hcriteria).flip).flip.imp fun x y hxy => ?_
    obtain ⟨hy, hx, hrel⟩ := hxy
    obtain ⟨hc, hroute, -⟩ := ha.site_of_mem hx
    obtain ⟨hd, hroute', -⟩ := ha'.site_of_mem hy
    have hlevels : x.criterion.Rel (p.SameLevel p') y.criterion :=
      hrel.imp fun a hac b hbd hab => by
        obtain ⟨n, l, hl, -⟩ := ha.resolves_bound hc hac
        obtain ⟨m, k, hk, -⟩ := ha'.resolves_bound hd hbd
        exact h.sameLevel ha ha' hf hl hk fun t => hab.canonical_iff
    rw [hlevels.route_eq hf, hroute'] at hroute
    exact ⟨hlevels, (Except.ok.inj hroute).symm⟩

/-- The other spelling gives the same statement. -/
theorem compile (h : q.Respelled q') {s : Statement} (hs : q.compile i = .ok s) :
    q'.compile i = .ok s := by
  obtain ⟨hv, p, b, hp, hb, rfl⟩ := compile_eq_ok_iff.1 hs
  obtain ⟨p', hp'⟩ := h.exists_plan ⟨p, hp⟩
  obtain ⟨placed, ha⟩ := plan_eq_ok_iff.1 hp
  obtain ⟨placed', ha'⟩ := plan_eq_ok_iff.1 hp'
  have hsame := h.sameUpToSpelling ha ha'
  have hbody : p.body q i = p'.body q' i := hsame.body_eq h.rest fun hi path hpath => by
    subst hi
    obtain ⟨n, l, hl⟩ := ha.resolves_returned hpath
    have hpath' : path ∈ q'.returned ++ q'.aggregates.filterMap (·.path?) := by
      rw [h.rest]
      exact hpath
    obtain ⟨m, k, hk⟩ := ha'.resolves_returned hpath'
    exact h.sameLevel ha ha' hsame.frame hl hk fun t => Iff.rfl
  exact compile_eq_ok_iff.2 ⟨(validate_congr h.rest i).trans hv, p', b, hp', hbody ▸ hb, rfl⟩

end Query.Respelled

/-- The spelling of a tier does not matter. In the frame of a hop-less type, canonical forms are well
formed and their own canonical forms; a tier of another level has the same one when it is spelled
from the searched-for level; and a table of levels finds every spelling, and every canonical form, at
the level of its canonical form. Queries whose criteria spell the tiers that they bind from one level
or the other have the same statements. -/
theorem spelling_of_tiers_does_not_matter :
    (∀ (h : Hierarchy) (find : Tier) (cs : List Criterion) (f : Frame), find.hops = [] →
      Frame.ofQuery h find cs = .ok f →
      (∀ a c, f.canonical a = .ok c → f.canonical c = .ok c ∧ f.WellFormed c) ∧
      (∀ a c, a.origin ≠ f.root.origin →
        (f.canonical a = .ok c ↔ f.canonical (a.rebased f.root.origin) = .ok c)) ∧
      ∀ r t, LevelTable.resolve f r = .ok t →
        (∀ m ∈ r.mentions, ∃ n l, t.find? m.tier = some n ∧ t.levels[n]? = some l ∧
          f.canonical m.tier = .ok l.tier) ∧
        ∀ n l, t.levels[n]? = some l → f.canonical l.tier = .ok l.tier ∧ t.find? l.tier = some n) ∧
    ∀ (q q' : Query) (i : Intent) (s : Statement), q.Respelled q' →
      (q.compile i = .ok s ↔ q'.compile i = .ok s) := by
  refine ⟨fun h find cs f hhops hf => ?_, fun q q' i s hq => ⟨hq.compile, hq.symm.compile⟩⟩
  have hr : f.root.hops = [] := by
    rw [(Frame.ofQuery_eq_ok hf).2]
    exact hhops
  refine ⟨fun a c hc => ?_, fun a c => Frame.canonical_rebased, fun r t ht => ?_⟩
  · have hgrounded := Frame.grounded_of_canonical hr hc
    have hlabel (d : String) (hd : f.scope = some d) : c.discourse = some d := by
      rw [Frame.discourse_canonical hc, hd, Option.some_or]
    exact ⟨hgrounded.canonical_self hlabel, hgrounded.wellFormed hlabel⟩
  · obtain ⟨placed, ⟨hm, hp⟩, rfl⟩ := LevelTable.resolve_eq_ok_iff.1 ht
    refine ⟨fun m hmem => ?_, fun n l hl => ?_⟩
    · rw [← hm] at hmem
      obtain ⟨x, hx, rfl⟩ := List.mem_map.1 hmem
      obtain ⟨n, hn, ht⟩ := LevelTable.find?_spelling hp hx
      obtain ⟨l, hl, hlt⟩ := LevelTable.getElem?_tiersOf_iff.1 ht
      exact ⟨n, l, hn, hl, hlt ▸ hp x hx⟩
    · have htier : (LevelTable.tiersOf f placed)[n]? = some l.tier :=
        LevelTable.getElem?_tiersOf_iff.2 ⟨l, hl, rfl⟩
      have hself := LevelTable.canonical_of_mem hf hr hp (List.mem_of_getElem? htier)
      exact ⟨hself, LevelTable.find?_canonical hp hself htier⟩

/-- The phones before a pause, with the label of their word read from the phone. -/
def Query.phonesBeforePauseFromPhone : Query :=
  let phone := Tier.ofLevel "phone"
  let word := Tier.ofLevel "word"
  { Query.phonesBeforePause with criteria := [
      (phone.attribute .discourse).compare .eq (.text "d1"),
      (word.attribute .id).compare .eq (.text "w1"),
      ((phone.hop (.up "word")).attribute .label).compare .eq (.text "cat"),
      ((phone.hop .following).attribute .begin).comparePath .gt (phone.attribute .end)] }

/-- The frame of both. -/
def Frame.phonesOfD1 : Frame where
  hierarchy := .ofList ["phone", "word", "utterance"]
  root := (Tier.ofLevel "phone").withDiscourse (some "d1")
  scope := some "d1"

theorem phonesBeforePause_in_two_spellings :
    ∃ c t n l s, Frame.phonesOfD1.canonical (.ofLevel "word") = .ok c ∧
      Frame.phonesOfD1.canonical ((Tier.ofLevel "phone").hop (.up "word")) = .ok c ∧
      Frame.phonesOfD1.canonical c = .ok c ∧ Frame.phonesOfD1.WellFormed c ∧
      LevelTable.resolve Frame.phonesOfD1 (Query.phonesBeforePause.references .rows) = .ok t ∧
      t.find? (.ofLevel "word") = some n ∧ t.levels[n]? = some l ∧ l.tier = c ∧
      t.find? c = some n ∧ Query.phonesBeforePause.compile .rows = .ok s ∧
      Query.phonesBeforePauseFromPhone.compile .rows = .ok s := by
  obtain ⟨hcanonical, hrebased, htable⟩ := spelling_of_tiers_does_not_matter.1
    Query.phonesBeforePause.hierarchy Query.phonesBeforePause.find Query.phonesBeforePause.criteria
    Frame.phonesOfD1 rfl (by decide +kernel)
  obtain ⟨c, hc⟩ := exists_ok_of_isOk (x := Frame.phonesOfD1.canonical (.ofLevel "word"))
    (by decide +kernel)
  obtain ⟨hself, hformed⟩ := hcanonical (.ofLevel "word") c hc
  obtain ⟨t, ht⟩ := exists_ok_of_isOk
    (x := LevelTable.resolve Frame.phonesOfD1 (Query.phonesBeforePause.references .rows))
    (by decide +kernel)
  obtain ⟨hfind, hlevels⟩ := htable _ t ht
  obtain ⟨n, l, hn, hl, hlc⟩ := hfind ⟨.ofLevel "word", .criterion 1, true⟩ (by decide +kernel)
  obtain rfl : c = l.tier := Except.ok.inj (hc.symm.trans hlc)
  obtain ⟨s, hs⟩ := exists_ok_of_isOk (x := Query.phonesBeforePause.compile .rows) (by decide +kernel)
  have hcriteria : Query.phonesBeforePause.criteria = [
      ((Tier.ofLevel "phone").attribute .discourse).compare .eq (.text "d1"),
      ((Tier.ofLevel "word").attribute .id).compare .eq (.text "w1"),
      ((Tier.ofLevel "word").attribute .label).compare .eq (.text "cat"),
      (((Tier.ofLevel "phone").hop .following).attribute .begin).comparePath .gt
        ((Tier.ofLevel "phone").attribute .end)] := by decide +kernel
  have hrespelled : Query.phonesBeforePause.Respelled Query.phonesBeforePauseFromPhone := by
    refine ⟨?_, rfl⟩
    rw [hcriteria]
    exact .cons (.value .eq _ (.same _)) (.cons (.value .eq _ (.same _))
      (.cons (.value .eq _ (.rebased (by decide))) (.cons (.path .gt (.same _) (.same _)) .nil)))
  exact ⟨l.tier, t, n, l, s, hc, (hrebased (.ofLevel "word") _ (by decide)).1 hc, hself, hformed, ht,
    hn, hl, rfl, (hlevels n l hl).2, hs,
    (spelling_of_tiers_does_not_matter.2 _ _ .rows s hrespelled).1 hs⟩

end TierQuery
