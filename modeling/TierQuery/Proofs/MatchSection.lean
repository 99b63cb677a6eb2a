import TierQuery.Proofs.Analysis
import TierQuery.Proofs.Parameters
import TierQuery.Statement.Text

/-! What all statements of a query have in common. What is returned only adds levels behind those of
the criteria, so that nodes, edges, constraints and filters are the same whatever is done with the
matches, down to the names of their parameters. -/

namespace TierQuery

/-- The level without the list of what refers to it. -/
def Level.bare (l : Level) : Level := { l with references := [] }

namespace LevelTable

variable {f : Frame} {placed later : List (Mention × Tier)}

/-- An entry of the table without its references. -/
def bareEntry (e : LevelId × Level) : LevelId × Level := (e.1, e.2.bare)

theorem tiersOf_append (f : Frame) (placed later : List (Mention × Tier)) :
    ∃ extra, tiersOf f (placed ++ later) = tiersOf f placed ++ extra ∧
      ∀ a ∈ extra, a ∉ tiersOf f placed := by
  have h := distinct_append (f.root.chain ++ placed.flatMap fun m => m.2.chain)
    (later.flatMap fun m => m.2.chain)
  rw [List.append_assoc, ← List.flatMap_append] at h
  refine ⟨_, h, fun a ha => ?_⟩
  rw [tiersOf, mem_distinct]
  simpa using (List.mem_filter.1 ha).2

theorem requiredOf_append (hl : ∀ x ∈ later, x.1.binding = false) :
    requiredOf f (placed ++ later) = requiredOf f placed := by
  have : later.filter (·.1.binding) = [] := by simpa using hl
  simp [requiredOf, this]

theorem tiersOf_subset_requiredOf (hb : ∀ x ∈ placed, x.1.binding = true) {a : Tier}
    (h : a ∈ tiersOf f placed) : a ∈ requiredOf f placed := by
  rcases mem_tiersOf.1 h with h | ⟨x, hx, h⟩
  · exact mem_requiredOf.2 (Or.inl h)
  · exact mem_requiredOf.2 (Or.inr ⟨x, hx, hb x hx, h⟩)

theorem levelsOf_eq_map : levelsOf f placed =
    ((tiersOf f placed).zip (freshNames ((tiersOf f placed).map Tier.stem))).map
      fun x => levelOf f placed (tiersOf f placed) x.1 x.2 := by
  rw [List.zip, List.map_zipWith]
  rfl

theorem index?_append {as extra : List Tier} {a : Tier} (h : a ∈ as) :
    index? (as ++ extra) a = index? as a := by
  have : (as.findIdx? (· == a)).isSome := by simpa using h
  obtain ⟨n, hn⟩ := Option.isSome_iff_exists.1 this
  simp [index?, List.findIdx?_append, hn]

/-- A level of the criteria does not see what is mentioned later. -/
theorem bare_levelOf_append (hl : ∀ x ∈ later, x.1.binding = false) {extra : List Tier} {a : Tier}
    (ha : a ∈ tiersOf f placed) (name : String) :
    (levelOf f (placed ++ later) (tiersOf f placed ++ extra) a name).bare
      = (levelOf f placed (tiersOf f placed) a name).bare := by
  have hparent : parentId? (tiersOf f placed ++ extra) a = parentId? (tiersOf f placed) a := by
    unfold parentId?
    cases hp : a.parent? with
    | none => rfl
    | some p =>
      by_cases hh : p.hops = []
      · simp [hh]
      · obtain ⟨n, hn⟩ := List.mem_iff_getElem?.1 ha
        have := List.mem_of_mem_take (parentsFirst_tiersOf n a p hn hp hh)
        simp [hh, index?_append this]
  simp [Level.bare, levelOf, requiredOf_append hl, hparent]

/-- The table of more mentions starts with the levels of the criteria. All further levels may be
missing. -/
theorem bare_levelsOf_append (f : Frame) (placed : List (Mention × Tier))
    (hl : ∀ x ∈ later, x.1.binding = false) :
    ∃ extra, (levelsOf f (placed ++ later)).map Level.bare
        = (levelsOf f placed).map Level.bare ++ extra ∧ ∀ l ∈ extra, l.required = false := by
  obtain ⟨more, htiers, hmore⟩ := tiersOf_append f placed later
  obtain ⟨names, hnames⟩ :=
    freshNames_prefix_append ((tiersOf f placed).map Tier.stem) (more.map Tier.stem)
  rw [← List.map_append, ← htiers] at hnames
  refine ⟨((more.zip names).map fun x =>
    levelOf f (placed ++ later) (tiersOf f (placed ++ later)) x.1 x.2).map Level.bare, ?_, ?_⟩
  · rw [levelsOf_eq_map, ← hnames, htiers, List.zip_append (length_freshNames_tiersOf f placed).symm,
      List.map_append, List.map_append, levelsOf_eq_map]
    congr 1
    rw [List.map_map, List.map_map]
    refine List.map_congr_left fun x hx => ?_
    exact bare_levelOf_append hl (List.of_mem_zip hx).1 x.2
  · intro l hlm
    obtain ⟨k, hk, rfl⟩ := List.mem_map.1 hlm
    obtain ⟨x, hx, rfl⟩ := List.mem_map.1 hk
    have hx1 := (List.of_mem_zip hx).1
    simp only [Level.bare, levelOf, requiredOf_append hl, List.contains_eq_mem,
      decide_eq_false_iff_not]
    exact fun h => hmore x.1 hx1 (requiredOf_subset h)

theorem insertBefore_map {α : Type} {r : α → α → Bool} {g : α → α}
    (h : ∀ x y, r (g x) (g y) = r x y) (x : α) (ys : List α) :
    insertBefore (!r · (g x)) (g x) (ys.map g) = (insertBefore (!r · x) x ys).map g := by
  induction ys with
  | nil => rfl
  | cons y ys ih =>
    simp only [List.map_cons, insertBefore, h]
    split
    · rfl
    · rw [ih, List.map_cons]

/-- Sorting looks at the keys only. -/
theorem stableSort_map {α : Type} {r : α → α → Bool} {g : α → α}
    (h : ∀ x y, r (g x) (g y) = r x y) (xs : List α) :
    stableSort r (xs.map g) = (stableSort r xs).map g := by
  induction xs with
  | nil => rfl
  | cons x xs ih =>
    rw [List.map_cons, stableSort, stableSort, ih, insertBefore_map h]

theorem bareEntry_filter (t : LevelTable) (P : Bool → Bool) :
    (t.indexed.filter fun e => P e.2.required).map bareEntry =
      ((t.levels.map Level.bare).zipIdx.map fun x => (x.2, x.1)).filter fun e => P e.2.required := by
  have hb : t.indexed.map bareEntry
      = (t.levels.map Level.bare).zipIdx.map fun x => (x.2, x.1) := by
    simp [indexed, List.zipIdx_map, bareEntry, Function.comp_def]
  rw [← hb, List.filter_map]
  rfl

theorem bareEntry_required (t : LevelTable) : t.required.map bareEntry =
    stableSort precedes (((t.levels.map Level.bare).zipIdx.map fun x => (x.2, x.1)).filter
      (·.2.required)) := by
  rw [required, ← stableSort_map (g := bareEntry) fun _ _ => rfl]
  exact congrArg _ (t.bareEntry_filter id)

section Entries

variable {ε β : Type} {xs ys : List (LevelId × Level)} (h : xs.map bareEntry = ys.map bareEntry)

include h

/-- What does not look at references is the same of both lists. -/
theorem mapM_eq_of_bareEntry {g : LevelId × Level → Except ε β} (hg : ∀ l, g (bareEntry l) = g l) :
    xs.mapM g = ys.mapM g := by
  have hbare (zs : List (LevelId × Level)) : zs.mapM g = (zs.map bareEntry).mapM g := by
    rw [List.mapM_map]
    exact mapM_congr fun l _ => (hg l).symm
  rw [hbare, h, ← hbare]

theorem filterMap_eq_of_bareEntry {g : LevelId × Level → Option β} (hg : ∀ l, g (bareEntry l) = g l) :
    xs.filterMap g = ys.filterMap g := by
  have hbare (zs : List (LevelId × Level)) : zs.filterMap g = (zs.map bareEntry).filterMap g := by
    rw [List.filterMap_map]
    exact List.filterMap_congr fun l _ => (hg l).symm
  rw [hbare, h, ← hbare]

end Entries

/-- What is mentioned later adds nothing to the pattern. -/
theorem required_append (hl : ∀ x ∈ later, x.1.binding = false) :
    (ofPlaced f (placed ++ later)).required.map bareEntry
      = (ofPlaced f placed).required.map bareEntry := by
  obtain ⟨extra, he, hr⟩ := bare_levelsOf_append f placed hl
  rw [bareEntry_required, bareEntry_required]
  change stableSort precedes ((((levelsOf f (placed ++ later)).map Level.bare).zipIdx.map _).filter
    _) = _
  rw [he, List.zipIdx_append, List.map_append, List.filter_append]
  have hnone : (((extra.zipIdx (0 + ((levelsOf f placed).map Level.bare).length)).map
      fun x => (x.2, x.1)).filter (·.2.required)) = [] := by
    rw [List.filter_eq_nil_iff]
    intro e hm
    obtain ⟨x, hx, rfl⟩ := List.mem_map.1 hm
    simp [hr x.1 (List.fst_mem_of_mem_zipIdx hx)]
  rw [hnone, List.append_nil]
  rfl

/-- A spelling in a criterion means the same level in both tables. -/
theorem lookup_append {x : Mention × Tier}
    (hp : ∀ y ∈ placed ++ later, f.canonical y.1.tier = .ok y.2) (hx : x ∈ placed)
    (hl : ∀ y ∈ later, y.1.binding = false) :
    ∃ n l k, lookup f (ofPlaced f (placed ++ later)) x.1.tier = .ok (n, l) ∧
      lookup f (ofPlaced f placed) x.1.tier = .ok (n, k) ∧ l.bare = k.bare := by
  obtain ⟨n, l, hn, hnl, hlt, -⟩ := lookup_spelling hp (List.mem_append_left later hx)
  obtain ⟨m, k, hm, hmk, hkt, -⟩ :=
    lookup_spelling (fun y hy => hp y (List.mem_append_left later hy)) hx
  obtain ⟨extra, he, -⟩ := bare_levelsOf_append f placed hl
  have hb : ((levelsOf f (placed ++ later)).map Level.bare)[m]? = some k.bare := by
    rw [he, List.getElem?_append_left]
    · simp [hmk]
    · simpa using (List.getElem?_eq_some_iff.1 hmk).1
  obtain ⟨l', hl', hlk⟩ : ∃ l', (levelsOf f (placed ++ later))[m]? = some l' ∧ l'.bare = k.bare := by
    simpa using hb
  have hl't : l'.bare.tier = k.bare.tier := congrArg Level.tier hlk
  -- both indices hold the same tier, which stands in the table once
  have hnm : n = m := by
    have h1 := getElem?_tiersOf_iff.2 ⟨l, hnl, hlt⟩
    have h2 := getElem?_tiersOf_iff.2 ⟨l', hl', hl't.trans hkt⟩
    exact (List.getElem?_inj (List.getElem?_eq_some_iff.1 h1).1 nodup_tiersOf).1 (h1.trans h2.symm)
  subst hnm
  obtain rfl : l = l' := by simpa using hnl.symm.trans hl'
  exact ⟨n, l, k, hn, hm, hlk⟩

theorem parent_lt_length {l : Level} {m : LevelId} (hl : l ∈ levelsOf f placed)
    (hm : l.parent? = some m) : m < (levelsOf f placed).length := by
  obtain ⟨n, hn⟩ := List.mem_iff_getElem?.1 hl
  obtain ⟨a, name, -, -, rfl⟩ := getElem?_levelsOf.1 hn
  have hlen : (levelsOf f placed).length = (tiersOf f placed).length := by
    rw [← map_tier_levelsOf, List.length_map]
  rw [hlen]
  simp only [levelOf, parentId?] at hm
  split at hm
  · cases hm
  · split at hm
    · cases hm
      exact List.length_pos_iff.2 (tiersOf_ne_nil f placed)
    · exact (List.findIdx?_eq_some_iff_getElem.1 hm).1

/-- Both tables look the tiers up as the same levels. -/
def AgreeOn (f : Frame) (t t' : LevelTable) (as : List Tier) : Prop :=
  ∀ a ∈ as, ∃ n l k, t.lookup f a = .ok (n, l) ∧ t'.lookup f a = .ok (n, k) ∧ l.bare = k.bare

end LevelTable

open LevelTable

theorem Criterion.route_congr {f : Frame} {t t' : LevelTable} {c : Criterion}
    (h : AgreeOn f t t' c.boundTiers) : c.route f t = c.route f t' := by
  cases c with
  | alignment kind a b => rfl
  | contains container path v =>
    obtain ⟨n, l, k, hl, hk, hb⟩ := h container (by simp [boundTiers])
    have hname : l.bare.tier.name = k.bare.tier.name := by rw [hb]
    simp only [route, hl, hk]
    simp only [bind, Except.bind]
    rw [show l.tier.name = k.tier.name from hname]
  | comparison path op operand =>
    cases operand with
    | value v =>
      obtain ⟨n, l, k, hl, hk, -⟩ := h path.tier (by simp [boundTiers, tiers])
      simp only [route, hl, hk]
      rfl
    | path other =>
      obtain ⟨n, l, k, hl, hk, -⟩ := h path.tier (by simp [boundTiers, tiers])
      obtain ⟨n', l', k', hl', hk', -⟩ := h other.tier (by simp [boundTiers, tiers])
      simp only [route, hl, hk, hl', hk']
      rfl

namespace Plan

/-- An edge does not see what refers to the levels that it joins. -/
theorem edge?_bare (p : Plan) (l : Level) :
    p.edge? l = (do
      let parent ← (p.table.levels.map Level.bare)[← l.parent?]?
      let hop ← l.tier.hops.getLast?
      return ⟨parent.var, l.var, p.relation parent.tier hop⟩) := by
  unfold edge?
  cases l.parent? with
  | none => rfl
  | some m =>
    simp only [Option.bind_eq_bind, Option.bind_some, List.getElem?_map]
    cases p.table.levels[m]? <;> rfl

/-- The plan `p` has everything that the criteria put into `p₀`, and more levels behind it. -/
structure Extends (p p₀ : Plan) (criteria : List Criterion) : Prop where
  corpus : p.corpus? = p₀.corpus?
  frame : p.frame = p₀.frame
  placement : p.placement = p₀.placement
  placed : ∀ x ∈ p.placement,
    x.criterion ∈ criteria ∧ x.criterion.route p.frame p.table = .ok x.route
  required : p.table.required.map bareEntry = p₀.table.required.map bareEntry
  levels : p₀.table.levels.map Level.bare <+: p.table.levels.map Level.bare
  parents : ∀ l ∈ p₀.table.levels, ∀ m, l.parent? = some m → m < p₀.table.levels.length
  agree : ∀ c ∈ criteria, AgreeOn p.frame p.table p₀.table c.boundTiers

namespace Extends

variable {p p₀ : Plan} {criteria : List Criterion}

theorem var_eq (h : p.Extends p₀ criteria) {c : Criterion} (hc : c ∈ criteria) {a : Tier}
    (ha : a ∈ c.boundTiers) : p.var a = p₀.var a := by
  obtain ⟨n, l, k, hl, hk, hb⟩ := h.agree c hc a ha
  have hvar : l.bare.var = k.bare.var := by rw [hb]
  rw [var, var, ← h.frame, hl, hk]
  exact congrArg Except.ok hvar

theorem predicate_eq (h : p.Extends p₀ criteria) {path : AttributePath} {op : CompareOp}
    {operand : Operand} (hc : .comparison path op operand ∈ criteria) (var : String) :
    p.predicate var path op operand = p₀.predicate var path op operand := by
  cases operand with
  | value v => rfl
  | path other =>
    rw [predicate, predicate, pathExpr, pathExpr,
      h.var_eq hc (a := other.tier) (by simp [Criterion.boundTiers, Criterion.tiers])]

theorem predicates_eq (h : p.Extends p₀ criteria) (var : String) {cs : List Criterion}
    (hcs : ∀ c ∈ cs, c ∈ criteria) : p.predicates var cs = p₀.predicates var cs := by
  induction cs with
  | nil => rfl
  | cons c cs ih =>
    have hrest := ih fun d hd => hcs d (List.mem_cons_of_mem _ hd)
    cases c with
    | comparison path op operand =>
      rw [predicates, predicates, h.predicate_eq (hcs _ List.mem_cons_self), hrest]
    | contains container path v => exact hrest
    | alignment kind a b => exact hrest

theorem mem_takePin {x : Placed} {xs : List Placed} (h : x ∈ (takePin xs).2) : x ∈ xs := by
  induction xs with
  | nil => simp [takePin] at h
  | cons y ys ih =>
    unfold takePin at h
    split at h
    · exact List.mem_cons_of_mem _ h
    · rcases List.mem_cons.1 h with rfl | h
      · exact List.mem_cons_self
      · exact List.mem_cons_of_mem _ (ih h)

theorem requiredNode_eq (h : p.Extends p₀ criteria) (l : LevelId × Level) :
    p.requiredNode l = p₀.requiredNode l := by
  have hrest : p.predicates l.2.var ((takePin (p.placement.inline l.1)).2.map (·.criterion))
      = p₀.predicates l.2.var ((takePin (p.placement.inline l.1)).2.map (·.criterion)) := by
    refine h.predicates_eq l.2.var fun c hc => ?_
    obtain ⟨x, hx, rfl⟩ := List.mem_map.1 hc
    exact (h.placed x (List.mem_filter.1 (mem_takePin hx)).1).1
  simp only [requiredNode, node, ← h.placement, hrest, tokenLabels, typeLabels, h.corpus]

/-- The nodes of the pattern are the same. -/
theorem nodes_eq (h : p.Extends p₀ criteria) :
    p.table.required.mapM p.requiredNode = p₀.table.required.mapM p₀.requiredNode := by
  rw [mapM_eq_of_bareEntry h.required (g := p.requiredNode) fun _ => rfl]
  exact mapM_congr fun l _ => h.requiredNode_eq l

theorem edge?_eq (h : p.Extends p₀ criteria) {l : Level} (hl : l ∈ p₀.table.levels) :
    p.edge? l = p₀.edge? l := by
  rw [edge?_bare, edge?_bare]
  cases hp : l.parent? with
  | none => rfl
  | some m =>
    have hm := h.parents l hl m hp
    obtain ⟨extra, he⟩ := h.levels
    have hget : (p.table.levels.map Level.bare)[m]? = (p₀.table.levels.map Level.bare)[m]? := by
      rw [← he, List.getElem?_append_left (by simpa using hm)]
    simp only [Option.bind_eq_bind, Option.bind_some, hget, relation_eq h.frame]

theorem edges_eq (h : p.Extends p₀ criteria) :
    p.table.required.filterMap (fun l => p.edge? l.2)
      = p₀.table.required.filterMap (fun l => p₀.edge? l.2) := by
  rw [filterMap_eq_of_bareEntry h.required (g := fun l => p.edge? l.2) fun _ => rfl]
  refine List.filterMap_congr fun l hl => h.edge?_eq ?_
  exact List.mem_of_getElem? (mem_required.1 hl).1

theorem constraint_eq (h : p.Extends p₀ criteria) {c : Criterion} (hc : c ∈ criteria) :
    p.constraint c = p₀.constraint c := by
  have hvar {a : Tier} (ha : a ∈ c.boundTiers) := h.var_eq hc ha
  cases c with
  | comparison path op operand =>
    have hpath : path.tier ∈ (Criterion.comparison path op operand).boundTiers := by
      cases operand <;> simp [Criterion.boundTiers, Criterion.tiers]
    simp only [constraint, hvar hpath, h.predicate_eq hc]
  | alignment kind a b =>
    rw [constraint, constraint, hvar (a := a) (by simp [Criterion.boundTiers, Criterion.tiers]),
      hvar (a := b) (by simp [Criterion.boundTiers, Criterion.tiers])]
  | contains container path v =>
    obtain ⟨n, l, k, hl, hk, hb⟩ := h.agree _ hc container (by simp [Criterion.boundTiers])
    have hlv : l.var = k.var := by simpa [Level.bare] using congrArg Level.var hb
    have hlt : l.tier = k.tier := by simpa [Level.bare] using congrArg Level.tier hb
    rw [constraint, constraint, ← h.frame, hl, hk]
    simp only [bind, Except.bind, hlv, hlt, tokenLabels, typeLabels, h.corpus]

theorem filter_eq (h : p.Extends p₀ criteria) {x : Criterion × LevelId}
    (hx : x ∈ p.placement.filters) : p.filter x = p₀.filter x := by
  obtain ⟨y, hy, hyx⟩ := List.mem_filterMap.1 hx
  obtain ⟨hc, hroute⟩ := h.placed y hy
  obtain ⟨c, r⟩ := y
  cases r with
  | property n =>
    obtain rfl : (c, n) = x := by simpa using hyx
    obtain ⟨path, op, operand, m, l, rfl, hl, hr, -⟩ := Criterion.route_eq_ok hroute (by simp)
    obtain ⟨m', l', k, hl', hk, hb⟩ := h.agree _ hc path.tier (by
      cases operand <;> simp [Criterion.boundTiers, Criterion.tiers])
    obtain ⟨rfl, rfl⟩ : m = m' ∧ l = l' := by simpa using hl.symm.trans hl'
    obtain rfl : n = m := by
      simp only [Property.route] at hr
      split at hr
      · cases hr
      · split at hr <;> cases hr
        rfl
    have hvar : l.var = k.var := by simpa [Level.bare] using congrArg Level.var hb
    rw [filter, filter, getElem?_of_lookup hl, getElem?_of_lookup (h.frame ▸ hk)]
    simp only [hvar]
    exact h.predicates_eq k.var fun d hd => List.mem_singleton.1 hd ▸ hc
  | identity n => simp at hyx
  | anchor n => simp at hyx
  | relationship => simp at hyx

theorem matches_iff (h : p.Extends p₀ criteria) {b : Body Literal} :
    p.Matches b ↔ p₀.Matches b := by
  have hrel : p.placement.relationships.mapM p.constraint
      = p₀.placement.relationships.mapM p₀.constraint := by
    rw [← h.placement]
    refine mapM_congr fun c hc => h.constraint_eq ?_
    obtain ⟨x, hx, rfl⟩ := List.mem_map.1 hc
    exact (h.placed x (List.mem_filter.1 hx).1).1
  have hfilters : p.placement.filters.mapM p.filter = p₀.placement.filters.mapM p₀.filter := by
    rw [← h.placement]
    exact mapM_congr fun x hx => h.filter_eq hx
  refine ⟨?_, ?_⟩
  · rintro ⟨hn, he, hc, hf⟩
    exact ⟨h.nodes_eq ▸ hn, h.edges_eq ▸ he, hrel ▸ hc, hfilters ▸ hf⟩
  · rintro ⟨hn, he, hc, hf⟩
    exact ⟨h.nodes_eq ▸ hn, h.edges_eq ▸ he, hrel ▸ hc, hfilters ▸ hf⟩

end Extends

/-- A plan has one pattern. -/
theorem Matches.unique {p : Plan} {b b' : Body Literal} (h : p.Matches b) (h' : p.Matches b') :
    b.nodes = b'.nodes ∧ b.edges = b'.edges ∧ b.constraints = b'.constraints ∧
      b.filters = b'.filters := by
  obtain ⟨hn, he, hc, fs, hf, hfs⟩ := h
  obtain ⟨hn', he', hc', fs', hf', hfs'⟩ := h'
  refine ⟨?_, he.trans he'.symm, ?_, ?_⟩
  · simpa using hn.symm.trans hn'
  · simpa using hc.symm.trans hc'
  · obtain rfl : fs = fs' := by simpa using hf.symm.trans hf'
    exact hfs.trans hfs'.symm

end Plan

/-- Every plan of a query extends the plan of its count. -/
theorem Query.exists_count_plan {q : Query} {i : Intent} {p : Plan} (h : q.plan i = .ok p) :
    ∃ p₀, q.plan .count = .ok p₀ ∧ p.Extends p₀ q.criteria ∧ p₀.table.optional = [] := by
  obtain ⟨placed, ha⟩ := plan_eq_ok_iff.1 h
  have hm := ha.mentions
  rw [References.mentions_eq, q.criteria_references] at hm
  obtain ⟨bound, later, rfl, hbound, hlater⟩ := List.map_eq_append_iff.1 hm
  have hbind : ∀ x ∈ bound, x.1.binding = true := fun x hx =>
    References.binding_of_mem (hbound ▸ List.mem_map_of_mem hx)
  have hfree : ∀ x ∈ later, x.1.binding = false := fun x hx =>
    References.not_binding_of_mem (hlater ▸ List.mem_map_of_mem hx)
  have hagree : ∀ c ∈ q.criteria, AgreeOn p.frame p.table (ofPlaced p.frame bound) c.boundTiers := by
    intro c hc a hac
    obtain ⟨m, hm, rfl⟩ := References.exists_mem_bindingMentions.2 ⟨c, hc, hac⟩
    obtain ⟨x, hx, rfl⟩ := List.mem_map.1 (hbound ▸ hm)
    rw [ha.table]
    exact lookup_append ha.canonical hx hfree
  obtain ⟨hcs, hroutes⟩ := Placement.ofCriteria_eq_ok_iff.1 ha.placement
  have hmem : ∀ x ∈ p.placement, x.criterion ∈ q.criteria := fun x hx =>
    hcs ▸ List.mem_map_of_mem hx
  refine ⟨⟨p.corpus?, p.frame, ofPlaced p.frame bound, p.placement⟩,
    plan_eq_ok_iff.2 ⟨bound, ha.corpus, ha.frame, ?_, ?_, rfl, ?_⟩, ?_, ?_⟩
  · rw [hbound]
    simp [References.mentions_eq, references, References.laterMentions, References.pathMentions]
  · exact fun x hx => ha.canonical x (List.mem_append_left _ hx)
  · refine Placement.ofCriteria_eq_ok_iff.2 ⟨hcs, fun x hx => ?_⟩
    rw [← Criterion.route_congr (hagree _ (hmem x hx))]
    exact hroutes x hx
  · refine ⟨rfl, rfl, rfl, fun x hx => ⟨hmem x hx, hroutes x hx⟩, ?_, ?_, ?_, hagree⟩
    · rw [ha.table]
      exact required_append hfree
    · obtain ⟨extra, he, -⟩ := bare_levelsOf_append p.frame bound hfree
      rw [ha.table]
      exact ⟨extra, he.symm⟩
    · exact fun l hl m hp => parent_lt_length hl hp
  · refine List.filter_eq_nil_iff.2 ?_
    rintro ⟨n, l⟩ hl
    have hl' := mem_indexed.1 hl
    have htier : l.tier ∈ tiersOf p.frame bound :=
      map_tier_levelsOf ▸ List.mem_map_of_mem (List.mem_of_getElem? hl')
    have hreq := (required_iff hl').2 (tiersOf_subset_requiredOf hbind htier)
    simp [hreq]

theorem joinWith_append (sep : String) (xs ys : List String) :
    ∃ rest, joinWith sep (xs ++ ys) = joinWith sep xs ++ rest := by
  match xs with
  | [] => exact ⟨joinWith sep ys, by simp [joinWith]⟩
  | [x] =>
    cases ys with
    | nil => exact ⟨"", by simp [joinWith]⟩
    | cons y ys => exact ⟨sep ++ joinWith sep (y :: ys), by simp [joinWith, String.append_assoc]⟩
  | x :: y :: xs =>
    obtain ⟨rest, hr⟩ := joinWith_append sep (y :: xs) ys
    refine ⟨rest, ?_⟩
    rw [List.cons_append] at hr
    simp [joinWith, hr, String.append_assoc]

theorem Statement.text_eq (s : Statement) : ∃ rest, s.text = s.matchSection ++ rest := by
  simp only [text, Body.lines, List.append_assoc]
  exact joinWith_append _ _ _

theorem Query.plan_count_congr {q q' : Query} (hh : q'.hierarchy = q.hierarchy)
    (hc : q'.corpus? = q.corpus?) (hf : q'.find = q.find) (hcs : q'.criteria = q.criteria) :
    q'.plan .count = q.plan .count := by
  simp only [plan, references, hh, hc, hf, hcs]

/-- The statements of bodies with the same pattern share it, and the parameters in it. -/
theorem Statement.ofBody_shared {b b' : Body Literal} (hn : b.nodes = b'.nodes)
    (he : b.edges = b'.edges) (hc : b.constraints = b'.constraints) (hf : b.filters = b'.filters) :
    (ofBody b).body.nodes = (ofBody b').body.nodes ∧
    (ofBody b).body.edges = (ofBody b').body.edges ∧
    (ofBody b).body.constraints = (ofBody b').body.constraints ∧
    (ofBody b).body.filters = (ofBody b').body.filters ∧
    ∃ shared, shared.map Prod.fst = (ofBody b).body.matchParams ∧
      shared <+: (ofBody b).params.entries ∧ shared <+: (ofBody b').params.entries := by
  obtain ⟨t, later, ht, hp, hm, -⟩ := params_ofBody b
  obtain ⟨t', later', ht', hp', -, -⟩ := params_ofBody b'
  rw [← hn, ← hc, ← hf, ht] at ht'
  obtain ⟨hsec, rfl⟩ := Prod.mk.inj ht'
  obtain ⟨hns, hrest⟩ := Prod.mk.inj hsec
  obtain ⟨hcs, hfs⟩ := Prod.mk.inj hrest
  exact ⟨hns, he, hcs, hfs, t.entries, hm, ⟨later, hp.symm⟩, ⟨later', hp'.symm⟩⟩

/-- A count has no parameters behind the match section. -/
theorem Statement.laterParams_count {b : Body Literal} (ho : b.optional = [])
    (ht : b.tail = Plan.countTail) : (ofBody b).body.laterParams = [] := by
  obtain ⟨ns, cs, fs, t, os, tl, t', -, hl, he⟩ := ofBody_eq b
  rw [ho, ht] at hl
  cases hl
  rw [he]
  rfl

theorem Query.shared_params_count {q : Query} {p : Plan} {b : Body Literal}
    {shared : List (String × Json.Value)} (hp : q.plan .count = .ok p) (hb : p.body q .count = .ok b)
    (hm : shared.map Prod.fst = (Statement.ofBody b).body.matchParams)
    (hs : shared <+: (Statement.ofBody b).params.entries) :
    (Statement.ofBody b).params.entries = shared := by
  obtain ⟨p₀, hp₀, -, ho⟩ := exists_count_plan hp
  obtain rfl : p = p₀ := by simpa using hp.symm.trans hp₀
  obtain ⟨-, ⟨os, hos, hopt⟩, ht⟩ := Plan.body_eq_ok_iff.1 hb
  rw [ho] at hos
  cases hos
  have hcount : b.tail = Plan.countTail := by simpa [Plan.tail] using ht.symm
  obtain ⟨t, later, -, he, ht, hlater⟩ := Statement.params_ofBody b
  rw [Statement.laterParams_count hopt hcount] at hlater
  have hlen := congrArg List.length (ht.trans hm.symm)
  obtain rfl : later = [] := by simpa using hlater
  rw [he, List.append_nil] at hs ⊢
  exact (hs.eq_of_length (by simpa using hlen.symm)).symm

/-- Once rows can be compiled, the rest of the way is open to counts and writes. -/
theorem Query.exists_body_of_rows {q : Query} {s : Statement} (hs : q.statement = .ok s)
    (i : Intent) (hi : i ≠ .rows) : ∃ b, q.draft i = .ok b := by
  obtain ⟨-, p, b, hp, hb, -⟩ := compile_eq_ok_iff.1 hs
  obtain ⟨p₀, hp₀, hext, ho⟩ := exists_count_plan hp
  have hm : p₀.Matches b := hext.matches_iff.1 (Plan.body_eq_ok_iff.1 hb).1
  obtain ⟨t, ht⟩ : ∃ t, p₀.tail q i = .ok t := by
    cases i with
    | rows => exact absurd rfl hi
    | count => exact ⟨_, rfl⟩
    | mutation => exact ⟨_, rfl⟩
  have hplan : q.plan i = .ok p₀ := by
    cases i with
    | rows => exact absurd rfl hi
    | count => exact hp₀
    | mutation => exact hp₀
  refine ⟨{ b with optional := [], tail := t }, bind_eq_ok_iff.2 ⟨p₀, hplan, ?_⟩⟩
  refine Plan.body_eq_ok_iff.2 ⟨⟨hm.nodes, hm.edges, hm.constraints, hm.filters⟩, ⟨[], ?_, rfl⟩, ht⟩
  rw [ho]
  rfl

/-- Two statements for the same criteria have the same match section, whatever they return or
write, and its parameters open both tables. Where rows can be returned, matches can be counted
unless they are grouped, and only what is written can stand against writing. -/
theorem reads_counts_and_writes_share_match_section :
    (∀ (q q' : Query) (i j : Intent) (s s' : Statement), q'.hierarchy = q.hierarchy →
      q'.corpus? = q.corpus? → q'.find = q.find → q'.criteria = q.criteria →
      q.compile i = .ok s → q'.compile j = .ok s' →
        s.body.nodes = s'.body.nodes ∧ s.body.edges = s'.body.edges ∧
        s.body.constraints = s'.body.constraints ∧ s.body.filters = s'.body.filters ∧
        s.matchSection = s'.matchSection ∧
        (∃ rest, s.text = s.matchSection ++ rest) ∧ (∃ rest, s'.text = s'.matchSection ++ rest) ∧
        ∃ shared, shared.map Prod.fst = s.body.matchParams ∧
          shared <+: s.params.entries ∧ shared <+: s'.params.entries ∧
          (i = .count → s.params.entries = shared) ∧ (j = .count → s'.params.entries = shared)) ∧
    (∀ (q : Query) (s : Statement), q.statement = .ok s →
      (q.grouping = [] ↔ ∃ s', q.countStatement = .ok s') ∧
      ∀ e, q.mutationStatement = .error e → ∃ fault, e = .build fault) := by
  refine ⟨?_, ?_⟩
  · intro q q' i j s s' hh hc hf hcs hs hs'
    obtain ⟨-, p, b, hp, hb, rfl⟩ := Query.compile_eq_ok_iff.1 hs
    obtain ⟨-, p', b', hp', hb', rfl⟩ := Query.compile_eq_ok_iff.1 hs'
    obtain ⟨p₀, hp₀, hext, -⟩ := Query.exists_count_plan hp
    obtain ⟨p₁, hp₁, hext', -⟩ := Query.exists_count_plan hp'
    rw [Query.plan_count_congr hh hc hf hcs, hp₀] at hp₁
    obtain rfl : p₀ = p₁ := by simpa using hp₁
    have hm := hext.matches_iff.1 (Plan.body_eq_ok_iff.1 hb).1
    have hm' := hext'.matches_iff.1 (Plan.body_eq_ok_iff.1 hb').1
    obtain ⟨hn, he, hk, hfs⟩ := hm.unique hm'
    obtain ⟨hn, he, hk, hfs, shared, hsm, hs1, hs2⟩ := Statement.ofBody_shared hn he hk hfs
    have hsm' : shared.map Prod.fst = (Statement.ofBody b').body.matchParams := by
      rw [hsm, Body.matchParams, Body.matchParams, hn, hk, hfs]
    refine ⟨hn, he, hk, hfs, ?_, Statement.text_eq _, Statement.text_eq _, shared, hsm, hs1, hs2,
      ?_, ?_⟩
    · rw [Statement.matchSection, Statement.matchSection, Body.matchLines, Body.matchLines, hn, he,
        hk, hfs]
    · rintro rfl
      exact Query.shared_params_count hp hb hsm hs1
    · rintro rfl
      exact Query.shared_params_count hp' hb' hsm' hs2
  · intro q s hs
    refine ⟨?_, ?_⟩
    · refine ⟨fun hg => ?_, ?_⟩
      · obtain ⟨b, hb⟩ := Query.exists_body_of_rows hs .count (by simp)
        refine ⟨.ofBody b, ?_⟩
        simp [Query.countStatement, Query.compile, Query.validate, hg, hb]
      · rintro ⟨s', hs'⟩
        by_contra hg
        simp [Query.countStatement, Query.compile, Query.validate, hg] at hs'
    · intro e he
      obtain ⟨b, hb⟩ := Query.exists_body_of_rows hs .mutation (by simp)
      simp only [Query.mutationStatement, Query.compile, hb] at he
      split at he
      · next fault _ =>
        cases he
        exact ⟨fault, rfl⟩
      · cases he

theorem beforePause_reads_what_it_relabels :
    ∃ s s', Query.phonesBeforePause.compile .rows = .ok s ∧
      Query.relabelBeforePause.compile .mutation = .ok s' ∧ s.matchSection = s'.matchSection := by
  obtain ⟨s, hs⟩ := exists_ok_of_isOk (x := Query.phonesBeforePause.compile .rows) (by decide +kernel)
  obtain ⟨s', hs'⟩ :=
    exists_ok_of_isOk (x := Query.relabelBeforePause.compile .mutation) (by decide +kernel)
  have hsame : Query.relabelBeforePause = { Query.phonesBeforePause with
      mutation := Query.relabelBeforePause.mutation } := rfl
  obtain ⟨-, -, -, -, hm, -⟩ := reads_counts_and_writes_share_match_section.1
    Query.phonesBeforePause Query.relabelBeforePause .rows .mutation s s' (by rw [hsame])
    (by rw [hsame]) (by rw [hsame]) (by rw [hsame]) hs hs'
  exact ⟨s, s', hs, hs', hm⟩

end TierQuery
