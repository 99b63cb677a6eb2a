import TierQuery.Proofs.Meaning
import TierQuery.Proofs.Order
import TierQuery.Proofs.Scoping

/-! The nodes of a statement are a tree of tiers. Each tier that the query spans has one node, under
however many spellings it is mentioned, and each node but that of the searched-for tier hangs by one
edge on the node of the tier before its last hop. -/

namespace TierQuery

open Json (Value)

variable {π : Type}

/-- The tiers that a query mentions for an intent, as it writes them and in its order. -/
def Query.mentioned (q : Query) : Intent → List Tier
  | .rows => q.criteria.flatMap Criterion.boundTiers ++
    ((if q.aggregates.isEmpty then q.columns else q.grouping) ++ q.ordering.map (·.path)
      ++ q.aggregates.filterMap (·.path?)).map (·.tier)
  | .count | .mutation => q.criteria.flatMap Criterion.boundTiers

/-- Whatever the criteria are, the same is mentioned behind their tiers. -/
theorem Query.mentioned_criteria (q : Query) (i : Intent) (cs : List Criterion) :
    ({ q with criteria := cs } : Query).mentioned i
      = cs.flatMap Criterion.boundTiers ++ ({ q with criteria := [] } : Query).mentioned i := by
  cases i <;> simp [mentioned]

/-- The searched-for tier, the canonical forms of the tiers mentioned, and what is passed on the way
to them. -/
inductive Frame.Spanned (f : Frame) (mentioned : List Tier) : Tier → Prop
  | root : Spanned f mentioned f.root
  | mentioned {a t : Tier} : a ∈ mentioned → f.canonical a = .ok t → Spanned f mentioned t
  | back {t u : Tier} :
    Spanned f mentioned t → t.parent? = some u → u.hops ≠ [] → Spanned f mentioned u

/-- What a node says of its tier: its variable, its labels and those of its type, if it has one. -/
structure NodeShape where
  var : String
  labels : List String
  typeLabels? : Option (List String)

def NodePattern.shape (x : NodePattern π) : NodeShape :=
  ⟨x.var, x.labels, x.typeNode?.map (·.labels)⟩

/-- Every edge, also those of optional nodes. -/
def Body.allEdges (b : Body π) : List Edge := b.edges ++ b.optional.map (·.edge)

namespace Plan

/-- The node of a tier, given the variables of the tiers. -/
def shape (p : Plan) (var : Tier → String) (t : Tier) : NodeShape :=
  ⟨var t, p.tokenLabels t, if t.typeSubsets.isEmpty then none else some (p.typeLabels t)⟩

/-- The edge to the node of a tier: its last hop, from the node of the tier before. -/
def edgeTo (p : Plan) (var : Tier → String) (t : Tier) : Option Edge :=
  t.hops.getLast?.map fun hop =>
    ⟨var (p.frame.above t), var t, p.relation (p.frame.above t) hop⟩

/-- The tiers of the nodes to be matched and of the optional nodes are the tiers that the query
spans, each once and in order, and their variables differ. -/
structure Spans (p : Plan) (q : Query) (i : Intent) (var : Tier → String)
    (required optional : List Tier) : Prop where
  once : (required ++ optional).Nodup
  vars : ((required ++ optional).map var).Nodup
  spanned : ∀ t, t ∈ required ++ optional ↔ p.frame.Spanned (q.mentioned i) t
  needed : ∀ t, t ∈ required ↔ p.frame.Reached q.criteria t
  /-- Every spelling of a tier means its one node. -/
  spellings : ∀ a ∈ q.mentioned i, ∃ t, p.frame.canonical a = .ok t ∧ p.var a = .ok (var t)
  ordered : required.Pairwise (p.frame.Before (q.mentioned i))
  parentsFirst : ∀ before t after, optional = before ++ t :: after →
    p.frame.above t ∈ required ++ before

/-- The nodes of the body are those of the tiers, joined as a tree. -/
structure Draws (p : Plan) (var : Tier → String) (required optional : List Tier) (b : Body π) :
    Prop where
  nodes : b.nodes.map NodePattern.shape = required.map (p.shape var)
  edges : b.edges = required.filterMap (p.edgeTo var)
  optionalNodes : b.optional.map (fun o => (o.node.shape, some o.edge))
    = optional.map fun t => (p.shape var t, p.edgeTo var t)
  root : ∀ e ∈ b.allEdges, e.child ≠ var p.frame.root
  /-- Any other node is the child of one edge, from the node of the tier before its last hop. -/
  child : ∀ t ∈ required ++ optional, t ≠ p.frame.root →
    p.frame.above t ∈ required ++ optional ∧ ∃ hop, t.hops.getLast? = some hop ∧
      b.allEdges.filter (·.child = var t)
        = [⟨var (p.frame.above t), var t, p.relation (p.frame.above t) hop⟩]
  count : b.edges.length + b.optional.length + 1 = b.nodeCount

end Plan

/-! Mentions -/

theorem References.map_tier_pathMentions (reference : Nat → Reference)
    (paths : List AttributePath) :
    (pathMentions reference paths).map (·.tier) = paths.map (·.tier) := by
  have h := congrArg (List.map AttributePath.tier) (List.zipIdx_map_fst 0 paths)
  rw [List.map_map] at h
  rw [pathMentions, List.map_map]
  exact h

theorem References.map_tier_bindingMentions (cs : List Criterion) :
    (bindingMentions cs).map (·.tier) = cs.flatMap Criterion.boundTiers := by
  have h := congrArg (List.flatMap Criterion.boundTiers) (List.zipIdx_map_fst 0 cs)
  rw [List.flatMap_map] at h
  simp only [bindingMentions, List.map_flatMap, List.map_map]
  refine Eq.trans ?_ h
  congr 1
  funext x
  exact List.map_id _

theorem Query.mentioned_eq (q : Query) (i : Intent) :
    q.mentioned i = (q.references i).mentions.map (·.tier) := by
  rw [References.mentions_eq, List.map_append, References.map_tier_bindingMentions,
    q.criteria_references]
  simp only [References.laterMentions, List.map_append, References.map_tier_pathMentions]
  cases i with
  | rows =>
    by_cases h : q.aggregates = []
    · simp [mentioned, references, h]
    · simp [mentioned, references, h]
  | count => simp [mentioned, references]
  | mutation => simp [mentioned, references]

namespace Analysis

variable {q : Query} {i : Intent} {p : Plan} {placed : List (Mention × Tier)}

theorem mentioned_eq (h : Analysis q i p placed) : q.mentioned i = placed.map (·.1.tier) := by
  rw [q.mentioned_eq, ← h.mentions, List.map_map]
  rfl

theorem spanned_iff (h : Analysis q i p placed) (hr : p.frame.root.hops = []) {t : Tier} :
    p.frame.Spanned (q.mentioned i) t ↔ t ∈ LevelTable.tiersOf p.frame placed := by
  rw [h.mentioned_eq]
  refine ⟨?_, ?_⟩
  · intro ht
    induction ht with
    | root => exact LevelTable.root_mem_tiersOf
    | mentioned ha ht =>
      obtain ⟨x, hx, rfl⟩ := List.mem_map.1 ha
      obtain rfl := Except.ok.inj (ht.symm.trans (h.canonical x hx))
      exact LevelTable.mem_tiersOf.2 (Or.inr ⟨x, hx, x.2.self_mem_chain⟩)
    | back _ hp hh ih => exact LevelTable.parent_mem_tiersOf ih hp hh
  · intro ht
    rcases LevelTable.mem_tiersOf.1 ht with ht | ⟨x, hx, ht⟩
    · rw [Tier.chain_eq_singleton hr, List.mem_singleton] at ht
      exact ht ▸ .root
    · have hm : x.1.tier ∈ placed.map (·.1.tier) := List.mem_map_of_mem hx
      exact Tier.chain_induction (fun _ _ => .back) (.mentioned hm (h.canonical x hx)) ht

end Analysis

theorem Frame.Spanned.above {f : Frame} {mentioned : List Tier} {t : Tier}
    (h : f.Spanned mentioned t) : f.Spanned mentioned (f.above t) := by
  unfold Frame.above
  split
  · exact .root
  · next hd =>
    refine h.back (Tier.parent?_eq_some_iff.2 ⟨Tier.hops_ne_nil_iff.2 (by omega), rfl⟩) ?_
    exact Tier.hops_ne_nil_iff.2 (by rw [Tier.depth_cut]; omega)

/-! Tiers of a table -/

namespace LevelTable

def requiredTiers (t : LevelTable) : List Tier := t.required.map (·.2.tier)

def optionalTiers (t : LevelTable) : List Tier := t.optional.map (·.2.tier)

theorem tiers_perm (t : LevelTable) :
    (t.requiredTiers ++ t.optionalTiers).Perm (t.levels.map (·.tier)) := by
  have h := t.required_append_optional_perm.map (·.2.tier)
  rw [← t.map_snd_indexed, List.map_map]
  rwa [List.map_append] at h

end LevelTable

/-- The variable of the level with the tier. -/
def Plan.varOf (p : Plan) (t : Tier) : String :=
  ((p.table.levels.find? (·.tier == t)).map (·.var)).getD ""

namespace Analysis

variable {q : Query} {i : Intent} {p : Plan} {placed : List (Mention × Tier)}

theorem varOf_tier (h : Analysis q i p placed) {l : Level} (hl : l ∈ p.table.levels) :
    p.varOf l.tier = l.var := by
  have hsome : (p.table.levels.find? (·.tier == l.tier)).isSome :=
    List.find?_isSome.2 ⟨l, hl, by simp⟩
  obtain ⟨k, hk⟩ := Option.isSome_iff_exists.1 hsome
  have ht : k.tier = l.tier := by simpa using List.find?_some hk
  obtain rfl := h.level_of_tier (List.mem_of_find?_eq_some hk) hl ht
  simp [Plan.varOf, hk]

theorem requiredTiers_iff (h : Analysis q i p placed) (hr : p.frame.root.hops = []) {t : Tier} :
    t ∈ p.table.requiredTiers ↔ p.frame.Reached q.criteria t := by
  rw [h.reached_iff_names hr]
  refine ⟨?_, ?_⟩
  · intro ht
    obtain ⟨⟨n, l⟩, hl, rfl⟩ := List.mem_map.1 ht
    obtain ⟨hl, hreq⟩ := LevelTable.mem_required.1 hl
    exact ⟨l.var, l, List.mem_of_getElem? hl, hreq, rfl, rfl⟩
  · rintro ⟨v, l, hl, hreq, rfl, -⟩
    obtain ⟨n, hn⟩ := List.mem_iff_getElem?.1 hl
    exact List.mem_map.2 ⟨(n, l), LevelTable.mem_required.2 ⟨hn, hreq⟩, rfl⟩

/-- An optional level comes after the one it is reached from. -/
theorem above_mem (h : Analysis q i p placed) (hr : p.frame.root.hops = []) {t : Tier}
    {before after : List Tier} (ht : p.table.optionalTiers = before ++ t :: after) :
    p.frame.above t ∈ p.table.requiredTiers ++ before := by
  obtain ⟨xs, ys, hxs, rfl, hys⟩ := List.map_eq_append_iff.1 ht
  obtain ⟨x, zs, rfl, rfl, -⟩ := List.map_eq_cons_iff.1 hys
  have hx : x ∈ p.table.optional := hxs ▸ by simp
  obtain ⟨n, k, -, hlt, hk, hkt, -⟩ :=
    h.edge?_eq hr (LevelTable.mem_optional.1 hx).1 (h.optional_hops hr hx)
  rw [← hkt]
  cases hreq : k.required with
  | true =>
    have hmem : (n, k) ∈ p.table.required := LevelTable.mem_required.2 ⟨hk, hreq⟩
    exact List.mem_append_left _ (List.mem_map_of_mem (f := (·.2.tier)) hmem)
  | false =>
    have hmem : (n, k) ∈ xs ++ x :: zs := hxs ▸ LevelTable.mem_optional.2 ⟨hk, hreq⟩
    have hsorted := hxs ▸ p.table.pairwise_optional
    obtain ⟨-, hsorted, -⟩ := List.pairwise_append.1 hsorted
    -- whatever comes after `x` has a greater index
    have hxs : (n, k) ∈ xs := by
      refine (List.mem_append.1 hmem).resolve_right fun hm => ?_
      rcases List.mem_cons.1 hm with rfl | hm
      · exact Nat.lt_irrefl _ hlt
      · exact Nat.lt_asymm hlt ((List.pairwise_cons.1 hsorted).1 _ hm)
    exact List.mem_append_right _ (List.mem_map_of_mem (f := (·.2.tier)) hxs)

theorem spans (h : Analysis q i p placed) (hr : p.frame.root.hops = []) :
    p.Spans q i p.varOf p.table.requiredTiers p.table.optionalTiers where
  once := p.table.tiers_perm.nodup_iff.2 h.nodup_levels
  vars := by
    refine (p.table.tiers_perm.map p.varOf).nodup_iff.2 ?_
    have hvars : (p.table.levels.map (·.tier)).map p.varOf = p.table.levels.map (·.var) := by
      rw [List.map_map]
      exact List.map_congr_left fun l hl => h.varOf_tier hl
    rw [hvars, h.levels_eq]
    exact LevelTable.nodup_vars
  spanned t := by
    rw [h.spanned_iff hr, p.table.tiers_perm.mem_iff, h.levels_eq, LevelTable.map_tier_levelsOf]
  needed t := h.requiredTiers_iff hr
  spellings a ha := by
    rw [q.mentioned_eq] at ha
    obtain ⟨m, hm, rfl⟩ := List.mem_map.1 ha
    obtain ⟨n, l, hl, -⟩ := h.resolves_mention hm
    refine ⟨l.tier, hl.canonical, ?_⟩
    rw [h.varOf_tier (List.mem_of_getElem? hl.level), hl.var]
  ordered := h.mentioned_eq ▸ LevelTable.pairwise_required h.levels_eq hr h.canonical
  parentsFirst _ _ _ ht := h.above_mem hr ht

end Analysis

/-! Nodes and edges -/

theorem Plan.NodeSays.shape {p : Plan} {l : LevelId × Level} {cs : List Criterion}
    {x : NodePattern Value} (h : p.NodeSays l cs x) {var : Tier → String}
    (hv : var l.2.tier = l.2.var) : x.shape = p.shape var l.2.tier := by
  rw [NodePattern.shape, Plan.shape, h.var, h.labels, h.typeNode, hv]
  split <;> rfl

namespace Analysis

variable {q : Query} {i : Intent} {p : Plan} {placed : List (Mention × Tier)} {b : Body Literal}

theorem edge?_eq_edgeTo (h : Analysis q i p placed) (hr : p.frame.root.hops = []) {n : LevelId}
    {l : Level} (hl : p.table.levels[n]? = some l) : p.edge? l = p.edgeTo p.varOf l.tier := by
  by_cases hh : l.tier.hops = []
  · rw [edge?_eq_none hh, Plan.edgeTo, hh]
    rfl
  · obtain ⟨m, k, hop, -, hk, hkt, -, hhop, he⟩ := h.edge?_eq hr hl hh
    rw [he, Plan.edgeTo, hhop, ← hkt, h.varOf_tier (List.mem_of_getElem? hk),
      h.varOf_tier (List.mem_of_getElem? hl)]
    rfl

theorem shape_nodes (h : Analysis q i p placed) (hb : p.body q i = .ok b) :
    b.nodes.map NodePattern.shape = p.table.requiredTiers.map (p.shape p.varOf) := by
  have hn := (h.expresses hb).nodes
  rw [Body.values_nodes, List.forall₂_map_right_iff] at hn
  rw [LevelTable.requiredTiers, List.map_map]
  refine map_eq_of_forall₂ ((forall₂_with_mem hn).imp fun l x hx => ?_)
  have hl := List.mem_of_getElem? (LevelTable.mem_required.1 hx.1).1
  exact hx.2.shape (h.varOf_tier hl)

theorem edges_eq (h : Analysis q i p placed) (hr : p.frame.root.hops = [])
    (hb : p.body q i = .ok b) :
    b.edges = p.table.requiredTiers.filterMap (p.edgeTo p.varOf) := by
  rw [(Plan.body_eq_ok_iff.1 hb).1.edges, LevelTable.requiredTiers, List.filterMap_map]
  exact List.filterMap_congr fun l hl => h.edge?_eq_edgeTo hr (LevelTable.mem_required.1 hl).1

theorem optional_eq (h : Analysis q i p placed) (hr : p.frame.root.hops = [])
    (hb : p.body q i = .ok b) :
    b.optional.map (fun o => (o.node.shape, some o.edge))
      = p.table.optionalTiers.map fun t => (p.shape p.varOf t, p.edgeTo p.varOf t) := by
  obtain ⟨-, ⟨os, hos, ho⟩, -⟩ := Plan.body_eq_ok_iff.1 hb
  have hall := forall₂_with_mem (mapM_eq_ok_iff.1 hos)
  rw [ho, LevelTable.optionalTiers, List.map_map]
  refine map_eq_of_forall₂ (forall₂_filterMap_id (hall.imp fun l o? hx => ?_))
  obtain ⟨hl, hx⟩ := hx
  have hlevel := (LevelTable.mem_optional.1 hl).1
  obtain ⟨m, k, hop, -, -, -, -, -, he⟩ := h.edge?_eq hr hlevel (h.optional_hops hr hl)
  obtain ⟨n, rfl, hs⟩ := optional_says hx
  rw [he]
  refine ⟨_, rfl, Prod.ext ?_ ?_⟩
  · exact hs.shape (h.varOf_tier (List.mem_of_getElem? hlevel))
  · exact he.symm.trans (h.edge?_eq_edgeTo hr hlevel)

end Analysis

/-! Numbering keeps nodes and edges -/

theorem NodePattern.yields_shape (x : NodePattern Literal) :
    Yields (x.replace Literal.number) fun y => y.shape = x.shape :=
  (Yields.trivial _).bind fun _ _ => (Yields.trivial _).bind fun _ _ => .pure rfl

theorem OptionalMatch.yields_shape (o : OptionalMatch Literal) :
    Yields (o.replace Literal.number) fun o' =>
      (o'.node.shape, some o'.edge) = (o.node.shape, some o.edge) :=
  o.node.yields_shape.bind fun _ hx => .pure (by rw [hx])

theorem Statement.tree_ofBody (b : Body Literal) :
    (Statement.ofBody b).body.nodes.map NodePattern.shape = b.nodes.map NodePattern.shape ∧
    (Statement.ofBody b).body.edges = b.edges ∧
    (Statement.ofBody b).body.optional.map (fun o => (o.node.shape, some o.edge))
      = b.optional.map fun o => (o.node.shape, some o.edge) := by
  have h : Yields (b.replace Literal.number) fun b' =>
      b'.nodes.map NodePattern.shape = b.nodes.map NodePattern.shape ∧ b'.edges = b.edges ∧
      b'.optional.map (fun o => (o.node.shape, some o.edge))
        = b.optional.map fun o => (o.node.shape, some o.edge) := by
    refine (Yields.mapM NodePattern.yields_shape b.nodes).bind fun ns hns =>
      (Yields.trivial _).bind fun _ _ => (Yields.trivial _).bind fun _ _ =>
        (Yields.mapM OptionalMatch.yields_shape b.optional).bind fun os hos =>
          (Yields.trivial _).bind fun _ _ => .pure ⟨hns, rfl, hos⟩
  exact h .empty

/-! The tree -/

namespace Plan

variable {p : Plan} {var : Tier → String} {ts : List Tier}

theorem edgeTo_child {t : Tier} {e : Edge} (h : p.edgeTo var t = some e) : e.child = var t := by
  obtain ⟨hop, -, rfl⟩ := Option.map_eq_some_iff.1 h
  rfl

theorem edgeTo_eq_none_iff {t : Tier} : p.edgeTo var t = none ↔ t.hops = [] := by
  rw [edgeTo, Option.map_eq_none_iff, List.getLast?_eq_none_iff]

/-- When variables differ, the edges to a variable are those of its tier. -/
theorem filter_child (hv : (ts.map var).Nodup) {t : Tier} (ht : t ∈ ts) :
    (ts.filterMap (p.edgeTo var)).filter (·.child = var t) = (p.edgeTo var t).toList := by
  obtain ⟨xs, ys, rfl⟩ := List.append_of_mem ht
  have hnone (us : List Tier) (hus : ∀ u ∈ us, var u ≠ var t) :
      (us.filterMap (p.edgeTo var)).filter (·.child = var t) = [] := by
    refine List.filter_eq_nil_iff.2 fun e he => ?_
    obtain ⟨u, hu, hue⟩ := List.mem_filterMap.1 he
    simpa [edgeTo_child hue] using hus u hu
  rw [List.map_append, List.map_cons, List.nodup_middle, List.nodup_cons] at hv
  have hxs := hnone xs fun u hu e => hv.1 (by simpa using Or.inl ⟨u, hu, e⟩)
  have hys := hnone ys fun u hu e => hv.1 (by simpa using Or.inr ⟨u, hu, e⟩)
  rw [List.filterMap_append, List.filter_append, hxs, List.nil_append, List.filterMap_cons]
  cases he : p.edgeTo var t with
  | none => simpa using hys
  | some e => simp [edgeTo_child he, hys]

/-- Of different tiers among which only the root has no hops, all but one have an edge. -/
theorem length_filterMap_edgeTo (hts : ts.Nodup) (hroot : p.frame.root ∈ ts)
    (hh : ∀ t ∈ ts, t.hops = [] ↔ t = p.frame.root) :
    (ts.filterMap (p.edgeTo var)).length + 1 = ts.length := by
  have hsome : ts.countP (fun t => (p.edgeTo var t).isSome)
      = ts.countP fun t => ¬(t == p.frame.root) = true := by
    refine List.countP_congr fun t ht => ?_
    rw [Option.isSome_iff_ne_none, Ne, edgeTo_eq_none_iff, hh t ht]
    simp
  rw [List.length_filterMap_eq_countP, hsome,
    List.length_eq_countP_add_countP (· == p.frame.root), ← List.count_eq_one_of_mem hts hroot]
  exact Nat.add_comm _ _

/-- All edges are those to the nodes of the tiers. -/
theorem allEdges_eq {required optional : List Tier} {b : Body π}
    (he : b.edges = required.filterMap (p.edgeTo var))
    (ho : b.optional.map (fun o => (o.node.shape, some o.edge))
      = optional.map fun t => (p.shape var t, p.edgeTo var t)) :
    b.allEdges = (required ++ optional).filterMap (p.edgeTo var) := by
  have hedges := congrArg (List.filterMap Prod.snd) ho
  rw [List.filterMap_map, List.filterMap_map] at hedges
  rw [Body.allEdges, List.filterMap_append, ← he, ← List.filterMap_eq_map]
  exact congrArg _ hedges

/-- A body whose nodes and edges are those of the tiers spanned is a tree. -/
theorem Spans.draws {q : Query} {i : Intent} {required optional : List Tier} {b : Body π}
    (hs : p.Spans q i var required optional)
    (hh : ∀ t ∈ required ++ optional, t.hops = [] ↔ t = p.frame.root)
    (hn : b.nodes.map NodePattern.shape = required.map (p.shape var))
    (he : b.edges = required.filterMap (p.edgeTo var))
    (ho : b.optional.map (fun o => (o.node.shape, some o.edge))
      = optional.map fun t => (p.shape var t, p.edgeTo var t)) :
    p.Draws var required optional b := by
  have hall := allEdges_eq he ho
  have hroot : p.frame.root ∈ required := (hs.needed _).2 .root
  refine ⟨hn, he, ho, ?_, ?_, ?_⟩
  · have hmem := List.mem_append_left optional hroot
    have hnone := filter_child (p := p) hs.vars hmem
    rw [edgeTo_eq_none_iff.2 ((hh _ hmem).2 rfl), Option.toList_none, ← hall] at hnone
    intro e hmem
    simpa using List.filter_eq_nil_iff.1 hnone e hmem
  · intro t ht hne
    refine ⟨(hs.spanned _).2 ((hs.spanned t).1 ht).above, ?_⟩
    cases hhop : t.hops.getLast? with
    | none => exact absurd ((hh t ht).1 (List.getLast?_eq_none_iff.1 hhop)) hne
    | some hop =>
      refine ⟨hop, rfl, ?_⟩
      rw [hall, filter_child hs.vars ht, edgeTo, hhop]
      rfl
  · have hlen : (required.filterMap (p.edgeTo var)).length + 1 = required.length := by
      apply length_filterMap_edgeTo (List.nodup_append.1 hs.once).1 hroot
      intro t ht
      exact hh t (List.mem_append_left _ ht)
    have hnodes := congrArg List.length hn
    rw [List.length_map, List.length_map] at hnodes
    rw [he, Body.nodeCount, hnodes, ← hlen]
    omega

end Plan

/-- However often and under however many spellings a query mentions its tiers, the nodes of its
statement are those of the tiers it spans, one each, joined as a tree. -/
theorem nodes_are_a_tree_of_tiers {q : Query} {i : Intent} {s : Statement} (hq : q.find.hops = [])
    (hs : q.compile i = .ok s) :
    ∃ (p : Plan) (var : Tier → String) (required optional : List Tier), q.plan i = .ok p ∧
      Frame.ofQuery q.hierarchy q.find q.criteria = .ok p.frame ∧
      p.Spans q i var required optional ∧ p.Draws var required optional s.body := by
  obtain ⟨-, p, b, hp, hb, rfl⟩ := Query.compile_eq_ok_iff.1 hs
  obtain ⟨placed, h⟩ := Query.plan_eq_ok_iff.1 hp
  have hr := h.root_hops hq
  have hspans := h.spans hr
  obtain ⟨hn, he, ho⟩ := Statement.tree_ofBody b
  refine ⟨p, p.varOf, p.table.requiredTiers, p.table.optionalTiers, hp, h.frame, hspans, ?_⟩
  refine hspans.draws (fun t ht => ⟨fun hh => ?_, fun e => e ▸ hr⟩) (hn.trans (h.shape_nodes hb))
    (he.trans (h.edges_eq hr hb)) (ho.trans (h.optional_eq hr hb))
  rw [hspans.spanned, h.spanned_iff hr] at ht
  exact (LevelTable.grounded_of_mem hr h.canonical ht).root hh

/-- The same phones with the end of their word, which a criterion mentions under another name, and
with the label of the utterance after theirs. -/
def Query.phonesInContext : Query :=
  Query.phonesBeforePause.withColumns
    [((Tier.ofLevel "phone").hop (.up "word")).attribute .end,
      ((Tier.ofLevel "utterance").hop .following).attribute .label]

theorem phonesInContext_are_a_tree :
    ∃ s, Query.phonesInContext.compile .rows = .ok s ∧
      (s.body.nodes.length, s.body.optional.length) = (3, 2) ∧
      ∃ (p : Plan) (var : Tier → String) (required optional : List Tier),
        p.Spans Query.phonesInContext .rows var required optional ∧
        p.Draws var required optional s.body := by
  obtain ⟨s, hs, hn⟩ := exists_ok_of_toOption_map
    (x := Query.phonesInContext.compile .rows)
    (g := fun s => (s.body.nodes.length, s.body.optional.length)) (b := (3, 2)) (by decide +kernel)
  obtain ⟨p, var, required, optional, -, -, hspans, hdraws⟩ := nodes_are_a_tree_of_tiers rfl hs
  exact ⟨s, hs, hn, p, var, required, optional, hspans, hdraws⟩

end TierQuery
