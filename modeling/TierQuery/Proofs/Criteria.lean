import TierQuery.Proofs.Lowering

/-! No criterion is lost. Each stands in exactly one of the sections of a statement, in the order of
the query, and nothing stands there but the criteria and the discourse of a node. -/

namespace TierQuery

open Json (Value)

/-- The sections of a body say what the criteria `cs` say. Every criterion has one site, and the
nodes of the pattern are those of different tiers. -/
structure Plan.Expresses (p : Plan) (cs : List Criterion) (b : Body Value) : Prop where
  constraints :
    List.Forall₂ p.Says (cs.filter (·.site p.frame = .constraints)) b.constraints
  filters :
    List.Forall₂ (fun c x => p.Says c (.compare x)) (cs.filter (·.site p.frame = .filters)) b.filters
  nodes :
    List.Forall₂ (fun l n => p.NodeSays l (cs.filter (·.site p.frame = .node l.2.tier)) n)
      p.table.required b.nodes
  tiers : (p.table.required.map (·.2.tier)).Nodup
  located : ∀ c ∈ cs, ∀ a, c.site p.frame = .node a → a ∈ p.table.required.map (·.2.tier)
  /-- No criterion stands on an optional node. -/
  optional : ∀ o ∈ b.optional, ∃ l ∈ p.table.optional, p.NodeSays l [] o.node

namespace Analysis

variable {q : Query} {i : Intent} {p : Plan} {placed : List (Mention × Tier)}

/-- A filter is one comparison on the variable of its level. -/
theorem says_filter (h : Analysis q i p placed) {x : Criterion × LevelId}
    (hx : x ∈ p.placement.filters) :
    ∃ y, p.filter x = .ok [y] ∧ p.Says x.1 (.compare y.values) := by
  obtain ⟨c, n⟩ := x
  obtain ⟨y, hy, hcy, hroute⟩ : ∃ y ∈ p.placement, y.criterion = c ∧ y.route = .property n := by
    obtain ⟨y, hy, he⟩ := List.mem_filterMap.1 hx
    refine ⟨y, hy, ?_⟩
    split at he
    · next m hm =>
      cases he
      exact ⟨rfl, hm⟩
    · cases he
  obtain ⟨path, op, operand, m, l, hc, hl, hreq, hprop, -⟩ :=
    h.resolves_placed hy (by simp [hroute])
  obtain rfl : n = m := by
    rw [hroute, Property.route] at hprop
    split at hprop
    · cases hprop
    · split at hprop <;> cases hprop
      rfl
  have hmem : y.criterion ∈ q.criteria := (h.site_of_mem hy).1
  rw [hc] at hmem hcy
  subst hcy
  obtain ⟨z, hz, hs⟩ := h.says_predicate hmem (hl.denotes hreq)
  refine ⟨z, ?_, hs⟩
  simp only [Plan.filter, hl.level, Plan.predicates, hz]
  rfl

theorem says_filters (h : Analysis q i p placed) {fs : List (List (Predicate Literal))}
    (hfs : p.placement.filters.mapM p.filter = .ok fs) :
    List.Forall₂ (fun c x => p.Says c (.compare x)) (q.criteria.filter (·.site p.frame = .filters))
      (fs.flatten.map Predicate.values) := by
  have hall := fun x hx => h.says_filter (x := x) hx
  rw [← h.filters_eq, List.forall₂_map_left_iff, List.forall₂_map_right_iff]
  generalize p.placement.filters = xs at hall hfs
  induction xs generalizing fs with
  | nil =>
    cases hfs
    exact .nil
  | cons x xs ih =>
    obtain ⟨y, hy, hs⟩ := hall x List.mem_cons_self
    obtain ⟨ys, gs, hys, hgs, rfl⟩ := List.forall₂_cons_left_iff.1 (mapM_eq_ok_iff.1 hfs)
    obtain rfl : [y] = ys := by simpa using hy.symm.trans hys
    exact .cons hs (ih (fun z hz => hall z (List.mem_cons_of_mem _ hz)) (mapM_eq_ok_iff.2 hgs))

theorem mem_relationships (h : Analysis q i p placed) {c : Criterion}
    (hc : c ∈ p.placement.relationships) :
    c ∈ q.criteria ∧ c.route p.frame p.table = .ok .relationship := by
  obtain ⟨x, hx, rfl⟩ := List.mem_map.1 hc
  obtain ⟨hx, hr⟩ := List.mem_filter.1 hx
  obtain ⟨hc, hroute, -⟩ := h.site_of_mem hx
  rw [of_decide_eq_true hr] at hroute
  exact ⟨hc, hroute⟩

theorem says_constraints (h : Analysis q i p placed) {ks : List (Constraint Literal)}
    (hks : p.placement.relationships.mapM p.constraint = .ok ks) :
    List.Forall₂ p.Says (q.criteria.filter (·.site p.frame = .constraints))
      (ks.map Constraint.values) := by
  obtain ⟨ks', hks', hs⟩ := exists_mapM_eq_ok (g := p.constraint)
    (R := fun c k => p.Says c k.values) fun c (hc : c ∈ p.placement.relationships) =>
      h.says_constraint (h.mem_relationships hc).1 (h.mem_relationships hc).2
  obtain rfl : ks = ks' := by simpa using hks.symm.trans hks'
  rw [← h.relationships_eq, List.forall₂_map_right_iff]
  exact hs

/-- An optional node says nothing but its discourse. -/
theorem optional_says {l : LevelId × Level} {o? : Option (OptionalMatch Literal)}
    (ho : p.optionalMatch l = .ok o?) :
    ∃ n, o? = (p.edge? l.2).map (fun e => ⟨e, n⟩) ∧ p.NodeSays l [] n.values := by
  obtain ⟨n, hn, ho⟩ := bind_eq_ok_iff.1 ho
  cases ho
  refine ⟨n, rfl, ?_⟩
  obtain ⟨own, hown, hn⟩ := bind_eq_ok_iff.1 hn
  cases hown
  obtain ⟨added, hadded, hn⟩ := bind_eq_ok_iff.1 hn
  cases hn
  refine ⟨rfl, rfl, rfl, rfl, ⟨[], .unpinned (by simp) .nil, ?_⟩, by simp⟩
  rw [NodePattern.values_inline]
  exact (Plan.discourseCondition_eq_ok hadded).1

theorem nodup_levels (h : Analysis q i p placed) : (p.table.levels.map (·.tier)).Nodup := by
  rw [h.levels_eq, LevelTable.map_tier_levelsOf]
  exact LevelTable.nodup_tiersOf

theorem level_of_tier (h : Analysis q i p placed) {l k : Level} (hl : l ∈ p.table.levels)
    (hk : k ∈ p.table.levels) (ht : l.tier = k.tier) : l = k :=
  List.inj_on_of_nodup_map h.nodup_levels hl hk ht

theorem level_of_var (h : Analysis q i p placed) {l k : Level} (hl : l ∈ p.table.levels)
    (hk : k ∈ p.table.levels) (hv : l.var = k.var) : l = k :=
  LevelTable.eq_of_var_eq (h.levels_eq ▸ hl) (h.levels_eq ▸ hk) hv

theorem var_ne_typeVar (h : Analysis q i p placed) {l k : Level} (hl : l ∈ p.table.levels)
    (hk : k ∈ p.table.levels) : l.var ≠ k.typeVar :=
  LevelTable.var_ne_typeVar (h.levels_eq ▸ hl) (h.levels_eq ▸ hk)

theorem nodup_required (h : Analysis q i p placed) : (p.table.required.map (·.2.tier)).Nodup := by
  have hsub : (p.table.indexed.map (·.2.tier)).Nodup := by
    have hlevels := h.nodup_levels
    rwa [← p.table.map_snd_indexed, List.map_map] at hlevels
  refine ((LevelTable.stableSort_perm _ _).map _).nodup_iff.2 ?_
  exact hsub.sublist (List.filter_sublist.map _)

theorem located (h : Analysis q i p placed) {c : Criterion} (hc : c ∈ q.criteria) {a : Tier}
    (ha : c.site p.frame = .node a) : a ∈ p.table.required.map (·.2.tier) := by
  obtain ⟨x, hx, rfl⟩ := List.mem_map.1 (h.criteria_eq ▸ hc)
  rcases h.site_cases hx with ⟨-, hs⟩ | ⟨n, -, hs⟩ | ⟨n, l, hr, hl, hs⟩
  · simp [hs] at ha
  · simp [hs] at ha
  · obtain rfl : l.tier = a := by simpa [hs] using ha
    have hinline : x ∈ p.placement.inline n := List.mem_filter.2 ⟨hx, by simpa using hr⟩
    exact List.mem_map.2 ⟨(n, l), LevelTable.mem_required.2
      ⟨hl, (h.comparison_of_inline hl hinline).1⟩, rfl⟩

/-- Every body that lowering makes of the plan expresses the criteria. -/
theorem expresses (h : Analysis q i p placed) {b : Body Literal} (hb : p.body q i = .ok b) :
    p.Expresses q.criteria b.values := by
  obtain ⟨⟨hn, -, hk, fs, hfs, hf⟩, ⟨os, hos, ho⟩, -⟩ := Plan.body_eq_ok_iff.1 hb
  refine ⟨?_, ?_, ?_, h.nodup_required, fun c hc a ha => h.located hc ha, fun o hmem => ?_⟩
  · rw [Body.values_constraints]
    exact h.says_constraints hk
  · rw [Body.values_filters, hf]
    exact h.says_filters hfs
  · rw [Body.values_nodes, List.forall₂_map_right_iff]
    exact (forall₂_with_mem (mapM_eq_ok_iff.1 hn)).imp fun l n hln => h.node_says hln.1 hln.2
  · rw [Body.values_optional, ho] at hmem
    obtain ⟨o', ho', rfl⟩ := List.mem_map.1 hmem
    obtain ⟨o?, ho?, he⟩ := List.mem_filterMap.1 ho'
    obtain ⟨l, hl, hlo⟩ := forall₂_mem_right (mapM_eq_ok_iff.1 hos) ho?
    obtain ⟨n, rfl, hs⟩ := optional_says hlo
    obtain ⟨e, -, rfl⟩ := Option.map_eq_some_iff.1 he
    exact ⟨l, hl, hs⟩

end Analysis

/-- Whatever is done with the matches, every criterion is expressed exactly once and in its place,
with the values of the parameters put back in. -/
theorem every_criterion_is_expressed_once {q : Query} {i : Intent} {s : Statement}
    (hs : q.compile i = .ok s) :
    ∃ p b, q.plan i = .ok p ∧ s.resolved = some b ∧ p.Expresses q.criteria b := by
  obtain ⟨-, p, b, hp, hb, rfl⟩ := Query.compile_eq_ok_iff.1 hs
  obtain ⟨placed, h⟩ := Query.plan_eq_ok_iff.1 hp
  exact ⟨p, b.values, hp, Statement.resolved_ofBody b, h.expresses hb⟩

theorem phonesBeforePause_is_expressed_once :
    ∃ s p b, Query.phonesBeforePause.compile .rows = .ok s ∧
      Query.phonesBeforePause.plan .rows = .ok p ∧ s.resolved = some b ∧
      p.Expresses Query.phonesBeforePause.criteria b := by
  obtain ⟨s, hs⟩ := exists_ok_of_isOk (x := Query.phonesBeforePause.compile .rows) (by decide +kernel)
  obtain ⟨p, b, hp, hr, he⟩ := every_criterion_is_expressed_once hs
  exact ⟨s, p, b, hs, hp, hr, he⟩

end TierQuery
