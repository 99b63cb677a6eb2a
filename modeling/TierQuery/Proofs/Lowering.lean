import TierQuery.Proofs.Analysis
import TierQuery.Proofs.Canonical
import TierQuery.Proofs.Parameters

/-! What lowering makes of a criterion. The tiers that it mentions decide alone where it is expressed,
and what is written there says the same of the variables as the criterion says of the tiers. -/

namespace TierQuery

open Json (Value)

/-- Where a statement expresses a criterion: on the node of a tier, among the filters after the
pattern, or among the constraints between nodes. -/
inductive Site
  | node (a : Tier)
  | filters
  | constraints
deriving DecidableEq

namespace Criterion

/-- The one tier whose tokens a comparison reads. -/
def soleTier? (f : Frame) : Criterion → Option Tier
  | comparison path _ (.value _) => (f.canonical path.tier).toOption
  | comparison path _ (.path other) => do
    let a ← (f.canonical path.tier).toOption
    let b ← (f.canonical other.tier).toOption
    if a = b then some a else none
  | contains _ _ _ | alignment _ _ _ => none

def site (f : Frame) : Criterion → Site
  | comparison path op operand =>
    match (comparison path op operand).soleTier? f with
    | some a => if path.property.isArbitrary then .filters else .node a
    | none => .constraints
  | contains _ _ _ | alignment _ _ _ => .constraints

/-- The value that the criterion pins an `id` to. -/
def pin? : Criterion → Option Value
  | comparison path .eq (.value v) => if path.property.isId then some v else none
  | _ => none

theorem site_eq_node {f : Frame} {c : Criterion} {a : Tier} (h : c.site f = .node a) :
    ∃ path op operand, c = .comparison path op operand ∧ f.canonical path.tier = .ok a := by
  have hok {x : Tier} (hx : (f.canonical x).toOption = some a) : f.canonical x = .ok a := by
    cases hc : f.canonical x with
    | error e => simp [hc, Except.toOption] at hx
    | ok b => simpa [hc, Except.toOption] using hx
  cases c with
  | alignment kind b d => cases h
  | contains container path v => cases h
  | comparison path op operand =>
    refine ⟨path, op, operand, rfl, ?_⟩
    have hsole : (comparison path op operand).soleTier? f = some a := by
      simp only [site] at h
      split at h
      · next b hb =>
        split at h
        · cases h
        · obtain rfl : b = a := by simpa using h
          exact hb
      · cases h
    cases operand with
    | value v => exact hok hsole
    | path other =>
      obtain ⟨b, hb, hsole⟩ := Option.bind_eq_some_iff.1 hsole
      obtain ⟨d, -, hsole⟩ := Option.bind_eq_some_iff.1 hsole
      split at hsole
      · cases hsole
        exact hok hb
      · cases hsole

theorem pin?_eq_some {c : Criterion} {v : Value} (h : c.pin? = some v) :
    ∃ path, c = .comparison path .eq (.value v) ∧ path.property = .id := by
  unfold pin? at h
  split at h
  · next path w =>
    split at h
    · next hid =>
      cases h
      exact ⟨path, rfl, by simpa [Property.isId] using hid⟩
    · cases h
  · cases h

theorem discourseLiteral?_eq_some {c : Criterion} {d : String}
    (h : c.discourseLiteral? = some d) :
    ∃ path, path.property = .discourse ∧ (c = .comparison path .eq (.value (.text d)) ∨
      c = .comparison path .isIn (.value (.array [.text d]))) := by
  unfold discourseLiteral? at h
  split at h
  · next path s =>
    split at h
    · next hp =>
      cases h
      exact ⟨path, hp, Or.inl rfl⟩
    · cases h
  · next path v =>
    split at h
    · next hp =>
      refine ⟨path, hp, Or.inr ?_⟩
      cases v <;> simp [Value.text?] at h
      rw [h]
    · cases h
  · cases h

end Criterion

namespace Plan

/-- The tier `a`, as a criterion writes it, is matched under the variable `v`. -/
def Denotes (p : Plan) (a : Tier) (v : String) : Prop :=
  ∃ l ∈ p.table.levels, l.required = true ∧ p.frame.canonical a = .ok l.tier ∧ l.var = v

/-- The condition says of the variables what the criterion says of its tiers. -/
inductive Says (p : Plan) : Criterion → Constraint Value → Prop
  | value {path : AttributePath} {op : CompareOp} {x : Value} {v : String} :
    p.Denotes path.tier v →
    Says p (.comparison path op (.value x)) (.compare ⟨.property v path.property, op, .param x⟩)
  | path {path other : AttributePath} {op : CompareOp} {v w : String} :
    p.Denotes path.tier v → p.Denotes other.tier w →
    Says p (.comparison path op (.path other))
      (.compare ⟨.property v path.property, op, .property w other.property⟩)
  | alignment {kind : Alignment} {a b : Tier} {v w : String} :
    p.Denotes a v → p.Denotes b w →
    Says p (.alignment kind a b)
      (.compare ⟨.property v kind.anchor, if kind.isNegated then .ne else .eq,
        .property w kind.anchor⟩)
  | contains {container c : Tier} {path : AttributePath} {x : Value} {v : String} {n : Nat} :
    p.Denotes container v → p.frame.canonical container = .ok c → path.property ≠ .duration →
    p.frame.hierarchy.distance? path.tier.origin c.name = some n →
    Says p (.contains container path x)
      (.contains ⟨v, n, p.tokenLabels path.tier,
        if path.tier.typeSubsets.isEmpty then [] else p.typeLabels path.tier, path.property, x⟩)

/-- The pin and the conditions `own` of a node express the criteria `cs`, each of them once: the first
criterion that pins the `id`, if there is one, is the pin, and the conditions are the others in their
order. -/
inductive Carries (p : Plan) : List Criterion → Option Value → List (Predicate Value) → Prop
  | unpinned {cs : List Criterion} {own : List (Predicate Value)} :
    (∀ c ∈ cs, c.pin? = none) → List.Forall₂ (fun c x => p.Says c (.compare x)) cs own →
    Carries p cs none own
  | pinned {before after : List Criterion} {c : Criterion} {x : Value}
    {own : List (Predicate Value)} :
    (∀ d ∈ before, d.pin? = none) → c.pin? = some x →
    List.Forall₂ (fun c x => p.Says c (.compare x)) (before ++ after) own →
    Carries p (before ++ c :: after) (some x) own

/-- The condition that lowering adds to a node, when its criteria do not fix its discourse. -/
def addedDiscourse (l : Level) (cs : List Criterion) : List (Predicate Value) :=
  match l.tier.discourse with
  | none => []
  | some d =>
    if cs.any (·.discourseLiteral?.isSome) || l.tier.isSpeaker then []
    else [⟨.property l.var .discourse, .eq, .param (.text d)⟩]

/-- The node of the level `l`, which carries the criteria `cs`. -/
structure NodeSays (p : Plan) (l : LevelId × Level) (cs : List Criterion) (n : NodePattern Value) :
    Prop where
  level : n.level = l.1
  var : n.var = l.2.var
  labels : n.labels = p.tokenLabels l.2.tier
  typeNode : n.typeNode? = if l.2.tier.typeSubsets.isEmpty then none
    else some ⟨l.2.typeVar, p.typeLabels l.2.tier⟩
  inline : ∃ own, p.Carries cs n.identity? own ∧ n.inline = own ++ addedDiscourse l.2 cs
  discourse : ∀ c ∈ cs, ∀ d e, l.2.tier.discourse = some d → c.discourseLiteral? = some e → e = d

theorem Resolves.var {p : Plan} {a : Tier} {n : LevelId} {l : Level} (h : p.Resolves a n l) :
    p.var a = .ok l.var := by
  rw [Plan.var, h.lookup]
  rfl

theorem Resolves.denotes {p : Plan} {a : Tier} {n : LevelId} {l : Level} (h : p.Resolves a n l)
    (hr : l.required = true) : p.Denotes a l.var :=
  ⟨l, List.mem_of_getElem? h.level, hr, h.canonical, rfl⟩

end Plan

/-- The site that a route stands for. -/
def Route.site? (t : LevelTable) : Route → Option Site
  | .identity n | .anchor n => (t.levels[n]?).map fun l => .node l.tier
  | .property _ => some .filters
  | .relationship => some .constraints

theorem Property.level_of_route {property : Property} {n m : LevelId}
    (h : (property.route n).inlineLevel? = some m) : n = m := by
  unfold route at h
  split at h
  · exact Option.some.inj h
  · split at h
    · exact Option.some.inj h
    · cases h

namespace Analysis

variable {q : Query} {i : Intent} {p : Plan} {placed : List (Mention × Tier)}

theorem denotes_bound (h : Analysis q i p placed) {c : Criterion} (hc : c ∈ q.criteria) {a : Tier}
    (ha : a ∈ c.boundTiers) : ∃ v, p.var a = .ok v ∧ p.Denotes a v := by
  obtain ⟨n, l, hl, hr⟩ := h.resolves_bound hc ha
  exact ⟨l.var, hl.var, hl.denotes hr⟩

/-- The comparison on the variable of its path. -/
theorem says_predicate (h : Analysis q i p placed) {path : AttributePath} {op : CompareOp}
    {operand : Operand} (hc : .comparison path op operand ∈ q.criteria) {v : String}
    (hv : p.Denotes path.tier v) :
    ∃ x, p.predicate v path op operand = .ok x ∧
      p.Says (.comparison path op operand) (.compare x.values) := by
  cases operand with
  | value w => exact ⟨_, rfl, .value hv⟩
  | path other =>
    obtain ⟨w, hw, hd⟩ := h.denotes_bound hc (a := other.tier) (by
      simp [Criterion.boundTiers, Criterion.tiers])
    refine ⟨⟨.property v path.property, op, .property w other.property⟩, ?_, .path hv hd⟩
    simp only [Plan.predicate, Plan.pathExpr, hw]
    rfl

theorem says_predicates (h : Analysis q i p placed) {v : String} {cs : List Criterion}
    (hcs : ∀ c ∈ cs, c ∈ q.criteria ∧
      ∃ path op operand, c = .comparison path op operand ∧ p.Denotes path.tier v) :
    ∃ xs, p.predicates v cs = .ok xs ∧
      List.Forall₂ (fun c x => p.Says c (.compare x.values)) cs xs := by
  induction cs with
  | nil => exact ⟨[], rfl, .nil⟩
  | cons c cs ih =>
    obtain ⟨hc, path, op, operand, rfl, hv⟩ := hcs c List.mem_cons_self
    obtain ⟨x, hx, hsx⟩ := h.says_predicate hc hv
    obtain ⟨xs, hxs, hsxs⟩ := ih fun d hd => hcs d (List.mem_cons_of_mem _ hd)
    refine ⟨x :: xs, ?_, .cons hsx hsxs⟩
    simp only [Plan.predicates, hx, hxs]
    rfl

/-- A criterion between tokens becomes one constraint. -/
theorem says_constraint (h : Analysis q i p placed) {c : Criterion} (hc : c ∈ q.criteria)
    (hr : c.route p.frame p.table = .ok .relationship) :
    ∃ k, p.constraint c = .ok k ∧ p.Says c k.values := by
  cases c with
  | comparison path op operand =>
    obtain ⟨v, hv, hd⟩ := h.denotes_bound hc (a := path.tier) (by
      cases operand <;> simp [Criterion.boundTiers, Criterion.tiers])
    obtain ⟨x, hx, hs⟩ := h.says_predicate hc hd
    refine ⟨.compare x, ?_, hs⟩
    simp only [Plan.constraint, hv]
    simp only [bind, Except.bind, hx]
  | alignment kind a b =>
    obtain ⟨v, hv, hdv⟩ := h.denotes_bound hc (a := a) (by
      simp [Criterion.boundTiers, Criterion.tiers])
    obtain ⟨w, hw, hdw⟩ := h.denotes_bound hc (a := b) (by
      simp [Criterion.boundTiers, Criterion.tiers])
    refine ⟨.compare ⟨.property v kind.anchor, if kind.isNegated then .ne else .eq,
      .property w kind.anchor⟩, ?_, .alignment hdv hdw⟩
    rw [Plan.constraint, hv, hw]
    rfl
  | contains container path x =>
    obtain ⟨n, l, hl, hreq⟩ := h.resolves_bound hc (a := container) (by
      simp [Criterion.boundTiers])
    obtain ⟨-, hprop, -, n', l', hl', habove⟩ := Criterion.route_contains hr
    obtain ⟨rfl, rfl⟩ : n = n' ∧ l = l' := by simpa using hl.lookup.symm.trans hl'
    obtain ⟨d, hd⟩ := Option.isSome_iff_exists.1 habove
    refine ⟨.contains ⟨l.var, d, p.tokenLabels path.tier,
      if path.tier.typeSubsets.isEmpty then [] else p.typeLabels path.tier, path.property,
      ⟨path.property.name, x⟩⟩, ?_, .contains (hl.denotes hreq) hl.canonical hprop hd⟩
    simp only [Plan.constraint, hl.lookup, bind, Except.bind, hd, Option.getD_some]

/-! Sites and routes -/

theorem levels_eq (h : Analysis q i p placed) :
    p.table.levels = LevelTable.levelsOf p.frame placed := by
  rw [h.table]
  rfl

theorem level_unique (h : Analysis q i p placed) {n m : LevelId} {l k : Level}
    (hl : p.table.levels[n]? = some l) (hk : p.table.levels[m]? = some k)
    (ht : l.tier = k.tier) : n = m ∧ l = k := by
  rw [h.levels_eq] at hl hk
  have hn := LevelTable.getElem?_tiersOf_iff.2 ⟨l, hl, rfl⟩
  have hm := LevelTable.getElem?_tiersOf_iff.2 ⟨k, hk, rfl⟩
  rw [← ht] at hm
  have hnm : n = m := (List.getElem?_inj (List.getElem?_eq_some_iff.1 hn).1
    LevelTable.nodup_tiersOf).1 (hn.trans hm.symm)
  subst hnm
  exact ⟨rfl, by simpa using hl.symm.trans hk⟩

/-- Routes by index and sites by tier are the same places. -/
theorem site_of_route (h : Analysis q i p placed) {c : Criterion} (hc : c ∈ q.criteria) {r : Route}
    (hr : c.route p.frame p.table = .ok r) : r.site? p.table = some (c.site p.frame) := by
  cases c with
  | alignment kind a b =>
    cases hr
    rfl
  | contains container path x =>
    rw [(Criterion.route_contains hr).1]
    rfl
  | comparison path op operand =>
    obtain ⟨n, l, hl, -⟩ := h.resolves_bound hc (a := path.tier) (by
      cases operand <;> simp [Criterion.boundTiers, Criterion.tiers])
    -- on one level, the property decides
    have hsole (hs : (Criterion.comparison path op operand).soleTier? p.frame = some l.tier) :
        (path.property.route n).site? p.table
          = some ((Criterion.comparison path op operand).site p.frame) := by
      simp only [Criterion.site, hs, Property.route, Property.isArbitrary]
      by_cases hid : path.property.isId = true
      · simp [hid, Route.site?, hl.level]
      · by_cases ha : path.property.isAnchor = true
        · simp [hid, ha, Route.site?, hl.level]
        · simp [hid, ha, Route.site?]
    cases operand with
    | value x =>
      simp only [Criterion.route, hl.lookup] at hr
      cases hr
      exact hsole (by simp [Criterion.soleTier?, hl.canonical, Except.toOption])
    | path other =>
      obtain ⟨m, k, hk, -⟩ := h.resolves_bound hc (a := other.tier) (by
        simp [Criterion.boundTiers, Criterion.tiers])
      simp only [Criterion.route, hl.lookup, hk.lookup] at hr
      cases hr
      by_cases hmn : m = n
      · subst hmn
        obtain rfl : l = k := by simpa using hl.level.symm.trans hk.level
        rw [if_pos rfl]
        exact hsole (by simp [Criterion.soleTier?, hl.canonical, hk.canonical, Except.toOption])
      · have ht : l.tier ≠ k.tier := fun e => hmn (h.level_unique hl.level hk.level e).1.symm
        rw [if_neg hmn]
        simp [Criterion.site, Criterion.soleTier?, hl.canonical, hk.canonical, Except.toOption, ht,
          Route.site?]

/-! Sections -/

theorem criteria_eq (h : Analysis q i p placed) : p.placement.map (·.criterion) = q.criteria :=
  (Placement.ofCriteria_eq_ok_iff.1 h.placement).1

theorem site_of_mem (h : Analysis q i p placed) {x : Placed} (hx : x ∈ p.placement) :
    x.criterion ∈ q.criteria ∧ x.criterion.route p.frame p.table = .ok x.route ∧
      x.route.site? p.table = some (x.criterion.site p.frame) := by
  have hc : x.criterion ∈ q.criteria := h.criteria_eq ▸ List.mem_map_of_mem hx
  have hr := (Placement.ofCriteria_eq_ok_iff.1 h.placement).2 x hx
  exact ⟨hc, hr, h.site_of_route hc hr⟩

/-- A criterion that is placed on a level compares its paths, and the level is required. -/
theorem resolves_placed (h : Analysis q i p placed) {x : Placed} (hx : x ∈ p.placement)
    (hne : x.route ≠ .relationship) :
    ∃ path op operand n l, x.criterion = .comparison path op operand ∧
      p.Resolves path.tier n l ∧ l.required = true ∧ x.route = path.property.route n ∧
      ∀ other, operand = .path other → p.table.lookup p.frame other.tier = .ok (n, l) := by
  obtain ⟨hc, hr, -⟩ := h.site_of_mem hx
  obtain ⟨path, op, operand, n, l, hcx, hl, hroute, hother⟩ := Criterion.route_eq_ok hr hne
  obtain ⟨m, k, hk, hreq⟩ := h.resolves_bound hc (a := path.tier) (by
    rw [hcx]
    cases operand <;> simp [Criterion.boundTiers, Criterion.tiers])
  obtain ⟨rfl, rfl⟩ : n = m ∧ l = k := by simpa using hl.symm.trans hk.lookup
  exact ⟨path, op, operand, n, l, hcx, hk, hreq, hroute, hother⟩

/-- The three kinds of place that a criterion can have. -/
theorem site_cases (h : Analysis q i p placed) {x : Placed} (hx : x ∈ p.placement) :
    (x.route = .relationship ∧ x.criterion.site p.frame = .constraints) ∨
    (∃ n, x.route = .property n ∧ x.criterion.site p.frame = .filters) ∨
    ∃ n l, x.route.inlineLevel? = some n ∧ p.table.levels[n]? = some l ∧
      x.criterion.site p.frame = .node l.tier := by
  obtain ⟨-, -, hs⟩ := h.site_of_mem hx
  cases hr : x.route with
  | relationship =>
    rw [hr] at hs
    exact Or.inl ⟨rfl, (Option.some.inj hs).symm⟩
  | property n =>
    rw [hr] at hs
    exact Or.inr (Or.inl ⟨n, rfl, (Option.some.inj hs).symm⟩)
  | identity n =>
    rw [hr] at hs
    obtain ⟨l, hl, hs⟩ := Option.map_eq_some_iff.1 hs
    exact Or.inr (Or.inr ⟨n, l, rfl, hl, hs.symm⟩)
  | anchor n =>
    rw [hr] at hs
    obtain ⟨l, hl, hs⟩ := Option.map_eq_some_iff.1 hs
    exact Or.inr (Or.inr ⟨n, l, rfl, hl, hs.symm⟩)

theorem site_eq_constraints_iff (h : Analysis q i p placed) {x : Placed} (hx : x ∈ p.placement) :
    x.criterion.site p.frame = .constraints ↔ x.route = .relationship := by
  rcases h.site_cases hx with ⟨hr, hs⟩ | ⟨n, hr, hs⟩ | ⟨n, l, hr, -, hs⟩
  · simp [hr, hs]
  · simp [hr, hs]
  · have : x.route ≠ .relationship := fun e => by simp [e, Route.inlineLevel?] at hr
    simp [this, hs]

theorem site_eq_filters_iff (h : Analysis q i p placed) {x : Placed} (hx : x ∈ p.placement) :
    x.criterion.site p.frame = .filters ↔ ∃ n, x.route = .property n := by
  rcases h.site_cases hx with ⟨hr, hs⟩ | ⟨n, hr, hs⟩ | ⟨n, l, hr, -, hs⟩
  · simp [hr, hs]
  · simp [hr, hs]
  · have (m : LevelId) : x.route ≠ .property m := fun e => by simp [e, Route.inlineLevel?] at hr
    simp [this, hs]

theorem site_eq_node_iff (h : Analysis q i p placed) {x : Placed} (hx : x ∈ p.placement)
    {n : LevelId} {l : Level} (hl : p.table.levels[n]? = some l) :
    x.criterion.site p.frame = .node l.tier ↔ x.route.inlineLevel? = some n := by
  rcases h.site_cases hx with ⟨hr, hs⟩ | ⟨m, hr, hs⟩ | ⟨m, k, hr, hk, hs⟩
  · simp [hr, hs, Route.inlineLevel?]
  · simp [hr, hs, Route.inlineLevel?]
  · rw [hs, hr, Option.some_inj]
    refine ⟨?_, ?_⟩
    · intro e
      injection e with e
      exact (h.level_unique hk hl e).1
    · rintro rfl
      obtain rfl : k = l := by simpa using hk.symm.trans hl
      rfl

/-- The criteria picked by their routes are the criteria picked by their sites. -/
theorem filter_criterion (h : Analysis q i p placed) {P : Placed → Bool} {Q : Criterion → Bool}
    (hPQ : ∀ x ∈ p.placement, P x = Q x.criterion) :
    (p.placement.filter P).map (·.criterion) = q.criteria.filter Q := by
  rw [← h.criteria_eq, List.filter_map]
  congr 1
  exact List.filter_congr hPQ

theorem relationships_eq (h : Analysis q i p placed) :
    p.placement.relationships = q.criteria.filter (·.site p.frame = .constraints) :=
  h.filter_criterion fun x hx => by
    rw [decide_eq_decide]
    exact (h.site_eq_constraints_iff hx).symm

theorem inline_eq (h : Analysis q i p placed) {n : LevelId} {l : Level}
    (hl : p.table.levels[n]? = some l) :
    (p.placement.inline n).map (·.criterion)
      = q.criteria.filter (·.site p.frame = .node l.tier) :=
  h.filter_criterion fun x hx => by
    rw [decide_eq_decide]
    exact (h.site_eq_node_iff hx hl).symm

theorem filters_eq (h : Analysis q i p placed) :
    p.placement.filters.map Prod.fst = q.criteria.filter (·.site p.frame = .filters) := by
  rw [← h.filter_criterion (P := fun x => x.criterion.site p.frame = .filters) fun _ _ => rfl]
  have hsite := fun x hx => h.site_eq_filters_iff (x := x) hx
  unfold Placement.filters
  generalize p.placement = pl at hsite
  induction pl with
  | nil => rfl
  | cons x xs ih =>
    have ih := ih fun y hy => hsite y (List.mem_cons_of_mem _ hy)
    have hx := hsite x List.mem_cons_self
    obtain ⟨c, r⟩ := x
    cases r with
    | property n =>
      have hx := hx.2 ⟨n, rfl⟩
      simp only [List.filterMap_cons, List.map_cons, ih, List.filter_cons, hx, decide_true, if_true]
    | identity n => simpa [hx] using ih
    | anchor n => simpa [hx] using ih
    | relationship => simpa [hx] using ih

end Analysis

/-! Nodes -/

theorem takePin_cases (xs : List Placed) :
    (takePin xs = (none, xs) ∧ ∀ x ∈ xs, x.pin? = none) ∨
    ∃ before x after v, xs = before ++ x :: after ∧ (∀ y ∈ before, y.pin? = none) ∧
      x.pin? = some v ∧ takePin xs = (some v, before ++ after) := by
  induction xs with
  | nil => exact Or.inl ⟨rfl, by simp⟩
  | cons x xs ih =>
    cases hx : x.pin? with
    | some v => exact Or.inr ⟨[], x, xs, v, rfl, by simp, hx, by simp [takePin, hx]⟩
    | none =>
      rcases ih with ⟨ht, hnone⟩ | ⟨before, y, after, v, rfl, hb, hy, ht⟩
      · refine Or.inl ⟨by simp [takePin, hx, ht], fun y hy => ?_⟩
        rcases List.mem_cons.1 hy with rfl | hy
        · exact hx
        · exact hnone y hy
      · refine Or.inr ⟨x :: before, y, after, v, rfl, fun z hz => ?_, hy, by simp [takePin, hx, ht]⟩
        rcases List.mem_cons.1 hz with rfl | hz
        · exact hx
        · exact hb z hz

theorem fixesDiscourse_eq_ok {label : String} {xs : List Placed} {b : Bool}
    (h : fixesDiscourse label xs = .ok b) :
    b = xs.any (·.criterion.discourseLiteral?.isSome) ∧
      ∀ x ∈ xs, ∀ d, x.criterion.discourseLiteral? = some d → d = label := by
  induction xs generalizing b with
  | nil =>
    cases h
    simp
  | cons x xs ih =>
    unfold fixesDiscourse at h
    split at h
    · next hx =>
      obtain ⟨hb, hd⟩ := ih h
      refine ⟨by simp [hx, hb], List.forall_mem_cons.2 ⟨fun d hd' => ?_, hd⟩⟩
      simp [hx] at hd'
    · next d hx =>
      split at h
      · next heq =>
        obtain ⟨b', hb', h⟩ := bind_eq_ok_iff.1 h
        cases h
        obtain ⟨-, hd⟩ := ih hb'
        refine ⟨by simp [hx], List.forall_mem_cons.2 ⟨fun d' hd' => ?_, hd⟩⟩
        rw [hx] at hd'
        exact Option.some.inj hd' ▸ heq
      · cases h

theorem fixesDiscourse_eq_error {label : String} {xs : List Placed} {e : CompileError}
    (h : fixesDiscourse label xs = .error e) : ∃ d, e = .conflictingDiscourse label d := by
  induction xs with
  | nil => cases h
  | cons x xs ih =>
    unfold fixesDiscourse at h
    split at h
    · exact ih h
    · next d hx =>
      split at h
      · cases hf : fixesDiscourse label xs with
        | error e' =>
          rw [hf] at h
          cases h
          exact ih hf
        | ok b =>
          rw [hf] at h
          cases h
      · cases h
        exact ⟨d, rfl⟩

theorem Plan.discourseCondition_eq_ok {l : Level} {xs : List Placed}
    {added : List (Predicate Literal)} (h : discourseCondition l.tier l.var xs = .ok added) :
    added.map Predicate.values = addedDiscourse l (xs.map (·.criterion)) ∧
      ∀ c ∈ xs.map (·.criterion), ∀ d e, l.tier.discourse = some d →
        c.discourseLiteral? = some e → e = d := by
  unfold discourseCondition at h
  unfold addedDiscourse
  cases hd : l.tier.discourse with
  | none =>
    rw [hd] at h
    cases h
    simp
  | some label =>
    rw [hd] at h
    obtain ⟨b, hb, h⟩ := bind_eq_ok_iff.1 h
    obtain ⟨rfl, hfix⟩ := fixesDiscourse_eq_ok hb
    refine ⟨?_, ?_⟩
    · simp only [List.any_map, Function.comp_def]
      split at h
      · next hc =>
        cases h
        rw [if_pos hc]
        rfl
      · next hc =>
        cases h
        rw [if_neg hc]
        rfl
    · intro c hc d e hde he
      obtain ⟨x, hx, rfl⟩ := List.mem_map.1 hc
      cases hde
      exact hfix x hx e he

namespace Analysis

variable {q : Query} {i : Intent} {p : Plan} {placed : List (Mention × Tier)}

/-- On a node, the placed pins are the pins of the criteria. -/
theorem pin?_eq (h : Analysis q i p placed) {x : Placed} (hx : x ∈ p.placement) {n : LevelId}
    (hn : x.route.inlineLevel? = some n) : x.pin? = x.criterion.pin? := by
  have hne : x.route ≠ .relationship := fun e => by simp [e, Route.inlineLevel?] at hn
  obtain ⟨path, op, operand, m, l, hc, -, -, hroute, -⟩ := h.resolves_placed hx hne
  unfold Placed.pin? Criterion.pin?
  rw [hc, hroute, Property.route]
  by_cases hid : path.property.isId = true
  · cases operand <;> cases op <;> simp [hid]
  · by_cases ha : path.property.isAnchor = true
    · cases operand <;> cases op <;> simp [hid, ha]
    · cases operand <;> cases op <;> simp [hid, ha]

/-- What stands on a node compares the path of its level. -/
theorem comparison_of_inline (h : Analysis q i p placed) {n : LevelId} {l : Level}
    (hl : p.table.levels[n]? = some l) {x : Placed} (hx : x ∈ p.placement.inline n) :
    l.required = true ∧ x.criterion ∈ q.criteria ∧
      ∃ path op operand, x.criterion = .comparison path op operand ∧
        p.Denotes path.tier l.var ∧ ∀ other, operand = .path other → p.var other.tier = .ok l.var := by
  obtain ⟨hmem, hn⟩ := List.mem_filter.1 hx
  have hn : x.route.inlineLevel? = some n := by simpa using hn
  have hne : x.route ≠ .relationship := fun e => by simp [e, Route.inlineLevel?] at hn
  obtain ⟨path, op, operand, m, k, hc, hk, hreq, hroute, hother⟩ := h.resolves_placed hmem hne
  obtain rfl : m = n := Property.level_of_route (hroute ▸ hn)
  obtain rfl : k = l := by simpa using hk.level.symm.trans hl
  refine ⟨hreq, (h.site_of_mem hmem).1, path, op, operand, hc, hk.denotes hreq, fun other ho => ?_⟩
  rw [Plan.var, hother other ho]
  rfl

/-- A required node carries exactly the criteria whose site it is. -/
theorem node_says (h : Analysis q i p placed) {l : LevelId × Level} (hl : l ∈ p.table.required)
    {n : NodePattern Literal} (hn : p.requiredNode l = .ok n) :
    p.NodeSays l (q.criteria.filter (·.site p.frame = .node l.2.tier)) n.values := by
  obtain ⟨hl, -⟩ := LevelTable.mem_required.1 hl
  obtain ⟨own, hown, hn⟩ := bind_eq_ok_iff.1 hn
  obtain ⟨added, hadded, hn⟩ := bind_eq_ok_iff.1 hn
  cases hn
  obtain ⟨hadd, hfix⟩ := Plan.discourseCondition_eq_ok hadded
  rw [h.inline_eq hl] at hadd hfix
  refine ⟨rfl, rfl, rfl, rfl, ⟨own.map Predicate.values, ?_, ?_⟩, hfix⟩
  · rw [NodePattern.values_identity?, ← h.inline_eq hl]
    have hinline := fun x hx => (h.comparison_of_inline hl (x := x) hx).2
    have hpin : ∀ x ∈ p.placement.inline l.1, x.pin? = x.criterion.pin? := fun x hx => by
      obtain ⟨hx, hn⟩ := List.mem_filter.1 hx
      exact h.pin?_eq hx (by simpa using hn)
    have hall (xs : List Placed) (hxs : ∀ x ∈ xs, x ∈ p.placement.inline l.1)
        (ho : p.predicates l.2.var (xs.map (·.criterion)) = .ok own) :
        List.Forall₂ (fun c x => p.Says c (.compare x)) (xs.map (·.criterion))
          (own.map Predicate.values) := by
      obtain ⟨own', ho', hs⟩ := h.says_predicates (v := l.2.var)
        fun c (hc : c ∈ xs.map (·.criterion)) => by
          obtain ⟨x, hx, rfl⟩ := List.mem_map.1 hc
          obtain ⟨hc, path, op, operand, he, hd, -⟩ := hinline x (hxs x hx)
          exact ⟨hc, path, op, operand, he, hd⟩
      obtain rfl : own = own' := by simpa using ho.symm.trans ho'
      exact List.forall₂_map_right_iff.2 hs
    rcases takePin_cases (p.placement.inline l.1) with ⟨ht, hnone⟩ |
      ⟨before, x, after, v, hxs, hb, hx, ht⟩
    · rw [ht] at hown ⊢
      refine .unpinned (fun c hc => ?_) (hall _ (fun _ hx => hx) hown)
      obtain ⟨x, hx, rfl⟩ := List.mem_map.1 hc
      rw [← hpin x hx, hnone x hx]
    · rw [ht] at hown ⊢
      have hmem : ∀ y ∈ before ++ after, y ∈ p.placement.inline l.1 := fun y hy => by
        rw [hxs]
        rcases List.mem_append.1 hy with hy | hy <;> simp [hy]
      have hown := hall _ hmem hown
      rw [hxs, List.map_append, List.map_cons]
      rw [List.map_append] at hown
      refine .pinned (fun c hc => ?_) ?_ hown
      · obtain ⟨y, hy, rfl⟩ := List.mem_map.1 hc
        rw [← hpin y (hmem y (List.mem_append_left _ hy)), hb y hy]
      · rw [← hpin x (hxs ▸ by simp), hx]
  · rw [NodePattern.values_inline, List.map_append, hadd]

/-! Edges -/

theorem root_hops (h : Analysis q i p placed) (hq : q.find.hops = []) : p.frame.root.hops = [] := by
  rw [(Frame.ofQuery_eq_ok h.frame).2]
  exact hq

/-- A level with hops has an edge from an earlier level, which is required if it is. -/
theorem edge?_eq (h : Analysis q i p placed) (hr : p.frame.root.hops = []) {n : LevelId} {l : Level}
    (hl : p.table.levels[n]? = some l) (hh : l.tier.hops ≠ []) :
    ∃ m k hop, m < n ∧ p.table.levels[m]? = some k ∧ k.tier = p.frame.above l.tier ∧
      (l.required = true → k.required = true) ∧ l.tier.hops.getLast? = some hop ∧
      p.edge? l = some ⟨k.var, l.var, p.relation k.tier hop⟩ := by
  obtain ⟨m, k, hm, hlt, hk, ht, hreq⟩ := LevelTable.parent_of_getElem? hr (h.levels_eq ▸ hl) hh
  rw [← h.levels_eq] at hk
  refine ⟨m, k, _, hlt, hk, ht, hreq, List.getLast?_eq_some_getLast hh, ?_⟩
  simp [Plan.edge?, hm, hk, List.getLast?_eq_some_getLast hh]

/-- All levels are grounded. -/
theorem grounded (h : Analysis q i p placed) (hr : p.frame.root.hops = []) {l : Level}
    (hl : l ∈ p.table.levels) : p.frame.Grounded l.tier := by
  refine LevelTable.grounded_of_mem hr h.canonical ?_
  rw [← LevelTable.map_tier_levelsOf, ← h.levels_eq]
  exact List.mem_map_of_mem hl

theorem edge?_eq_none {l : Level} (hh : l.tier.hops = []) : p.edge? l = none := by
  simp [Plan.edge?, hh]

end Analysis

end TierQuery
