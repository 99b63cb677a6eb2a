import TierQuery.Proofs.Projection

/-! When a query compiles. Every tier mentioned has a canonical form, every containment can be counted,
and no criterion puts its level into another discourse. All of this is about the frame of the query
and about its criteria one by one. -/

namespace TierQuery

/-- A containment has a property to compare and a level below its container. -/
def Criterion.Routable (f : Frame) : Criterion → Prop
  | contains container path _ => path.property ≠ .duration ∧ path.tier.hops = [] ∧
    ∃ t, f.canonical container = .ok t ∧ f.hierarchy.isAbove t.name path.tier.origin = true
  | comparison _ _ _ | alignment _ _ _ => True

/-- A criterion on a node that fixes its discourse fixes it to the label of its tier. -/
def Criterion.Agrees (f : Frame) (c : Criterion) : Prop :=
  ∀ t d e, c.site f = .node t → t.discourse = some d → c.discourseLiteral? = some e → e = d

/-! Plans -/

theorem exists_mapM_of_forall {ε α β : Type} {g : α → Except ε β} {xs : List α}
    (h : ∀ x ∈ xs, ∃ y, g x = .ok y) : ∃ ys, xs.mapM g = .ok ys := by
  obtain ⟨ys, hys, -⟩ := exists_mapM_eq_ok (R := fun _ _ => True) fun x hx => by
    obtain ⟨y, hy⟩ := h x hx
    exact ⟨y, hy, trivial⟩
  exact ⟨ys, hys⟩

/-- With a level for every tier that it binds, a criterion has a route when it is routable. -/
theorem Criterion.exists_route {f : Frame} {t : LevelTable} {c : Criterion}
    (hl : ∀ a ∈ c.boundTiers, ∃ n l, t.lookup f a = .ok (n, l) ∧ f.canonical a = .ok l.tier)
    (hc : c.Routable f) : ∃ r, c.route f t = .ok r := by
  cases c with
  | alignment kind a b => exact ⟨_, rfl⟩
  | contains container path v =>
    obtain ⟨hp, hh, u, hu, habove⟩ := hc
    obtain ⟨n, l, hl, hcl⟩ := hl container (by simp [boundTiers])
    obtain rfl : u = l.tier := Except.ok.inj (hu.symm.trans hcl)
    refine ⟨.relationship, ?_⟩
    simp only [route, if_neg hp, hl, bind, Except.bind, if_pos (And.intro hh habove)]
  | comparison path op operand =>
    obtain ⟨n, l, hl', -⟩ := hl path.tier (by cases operand <;> simp [boundTiers, tiers])
    cases operand with
    | value v =>
      refine ⟨path.property.route n, ?_⟩
      simp only [route, hl']
      rfl
    | path other =>
      obtain ⟨m, k, hk, -⟩ := hl other.tier (by simp [boundTiers, tiers])
      refine ⟨if m = n then path.property.route n else .relationship, ?_⟩
      simp only [route, hl', hk]
      rfl

/-- Validity is not about criteria. -/
theorem Query.validate_congr {q q' : Query} (h : q' = { q with criteria := q'.criteria })
    (i : Intent) : q'.validate i = q.validate i := by
  rw [h]
  cases i <;> rfl

theorem Query.exists_plan_iff {q : Query} {i : Intent} :
    (∃ p, q.plan i = .ok p) ↔ ∃ f, Frame.ofQuery q.hierarchy q.find q.criteria = .ok f ∧
      (∀ a ∈ q.mentioned i, ∃ t, f.canonical a = .ok t) ∧ ∀ c ∈ q.criteria, c.Routable f := by
  refine ⟨?_, ?_⟩
  · rintro ⟨p, hp⟩
    obtain ⟨placed, h⟩ := plan_eq_ok_iff.1 hp
    refine ⟨p.frame, h.frame, fun a ha => ?_, fun c hc => ?_⟩
    · rw [q.mentioned_eq] at ha
      obtain ⟨m, hm, rfl⟩ := List.mem_map.1 ha
      obtain ⟨n, l, hl, -⟩ := h.resolves_mention hm
      exact ⟨l.tier, hl.canonical⟩
    · cases c with
      | alignment kind a b => trivial
      | comparison path op operand => trivial
      | contains container path v =>
        obtain ⟨x, hx, he⟩ := List.mem_map.1 (h.criteria_eq ▸ hc)
        obtain ⟨-, hr, -⟩ := h.site_of_mem hx
        rw [he] at hr
        obtain ⟨-, hp, hh, n, l, hl, habove⟩ := Criterion.route_contains hr
        obtain ⟨m, k, hk, -⟩ : ∃ m k, p.Resolves container m k ∧ k.required = true :=
          h.resolves_bound hc (by simp [Criterion.boundTiers])
        obtain ⟨rfl, rfl⟩ : n = m ∧ l = k := by simpa using hl.symm.trans hk.lookup
        exact ⟨hp, hh, l.tier, hk.canonical, habove⟩
  · rintro ⟨f, hf, hcanonical, hroutable⟩
    have hplaced : ∃ placed, (q.references i).mentions.mapM (LevelTable.place f) = .ok placed := by
      refine exists_mapM_of_forall fun m hm => ?_
      obtain ⟨t, ht⟩ := hcanonical m.tier (by rw [q.mentioned_eq]; exact List.mem_map_of_mem hm)
      exact ⟨(m, t), bind_eq_ok_iff.2 ⟨t, ht, rfl⟩⟩
    obtain ⟨placed, hplaced⟩ := hplaced
    obtain ⟨hmentions, hall⟩ := LevelTable.mapM_place_iff.1 hplaced
    have hlookup (c : Criterion) (hc : c ∈ q.criteria) (a : Tier) (ha : a ∈ c.boundTiers) :
        ∃ n l, (LevelTable.ofPlaced f placed).lookup f a = .ok (n, l) ∧
          f.canonical a = .ok l.tier := by
      obtain ⟨m, hm, rfl⟩ := References.exists_mem_bindingMentions.2 ⟨c, hc, ha⟩
      have hm' : m ∈ placed.map Prod.fst := by
        rw [hmentions, References.mentions_eq, q.criteria_references]
        exact List.mem_append_left _ hm
      obtain ⟨x, hx, rfl⟩ := List.mem_map.1 hm'
      obtain ⟨n, l, hl, -, ht, -⟩ := LevelTable.lookup_spelling hall hx
      exact ⟨n, l, hl, ht ▸ hall x hx⟩
    have hplacement : ∃ placement,
        Placement.ofCriteria f (.ofPlaced f placed) q.criteria = .ok placement := by
      refine exists_mapM_of_forall fun c hc => ?_
      obtain ⟨r, hr⟩ := Criterion.exists_route (hlookup c hc) (hroutable c hc)
      exact ⟨⟨c, r⟩, bind_eq_ok_iff.2 ⟨r, hr, rfl⟩⟩
    obtain ⟨placement, hplacement⟩ := hplacement
    exact ⟨⟨q.corpus?, f, .ofPlaced f placed, placement⟩,
      plan_eq_ok_iff.2 ⟨placed, rfl, hf, hmentions, hall, rfl, hplacement⟩⟩

/-! Bodies -/

theorem fixesDiscourse_eq_ok_of_forall {label : String} {xs : List Placed}
    (h : ∀ x ∈ xs, ∀ d, x.criterion.discourseLiteral? = some d → d = label) :
    ∃ b, fixesDiscourse label xs = .ok b := by
  induction xs with
  | nil => exact ⟨false, rfl⟩
  | cons x xs ih =>
    obtain ⟨hx, hxs⟩ := List.forall_mem_cons.1 h
    obtain ⟨b, hb⟩ := ih hxs
    cases hd : x.criterion.discourseLiteral? with
    | none => exact ⟨b, by simp only [fixesDiscourse, hd, hb]⟩
    | some d =>
      refine ⟨true, ?_⟩
      simp only [fixesDiscourse, hd, if_pos (hx d hd), hb]
      rfl

namespace Plan

variable {p : Plan}

theorem exists_discourseCondition {a : Tier} {var : String} {conditions : List Placed}
    (h : ∀ x ∈ conditions, ∀ d e, a.discourse = some d →
      x.criterion.discourseLiteral? = some e → e = d) :
    ∃ added, discourseCondition a var conditions = .ok added := by
  cases ha : a.discourse with
  | none => exact ⟨[], by rw [discourseCondition, ha]⟩
  | some label =>
    obtain ⟨fixed, hfixed⟩ := fixesDiscourse_eq_ok_of_forall fun x hx d hd => h x hx label d ha hd
    refine ⟨if fixed || a.isSpeaker then [] else
      [⟨.property var .discourse, .eq, .param ⟨"discourse", .text label⟩⟩], ?_⟩
    simp only [discourseCondition, ha, hfixed, bind, Except.bind]
    split <;> rfl

end Plan

namespace Analysis

variable {q : Query} {i : Intent} {p : Plan} {placed : List (Mention × Tier)}

theorem exists_requiredNode (h : Analysis q i p placed) (ha : ∀ c ∈ q.criteria, c.Agrees p.frame)
    {l : LevelId × Level} (hl : l ∈ p.table.required) : ∃ x, p.requiredNode l = .ok x := by
  obtain ⟨hl, -⟩ := LevelTable.mem_required.1 hl
  obtain ⟨own, hown, -⟩ := h.says_predicates (v := l.2.var)
    fun c (hc : c ∈ (takePin (p.placement.inline l.1)).2.map (·.criterion)) => by
      obtain ⟨x, hx, rfl⟩ := List.mem_map.1 hc
      obtain ⟨-, hc, path, op, operand, he, hd, -⟩ :=
        h.comparison_of_inline hl (Plan.mem_of_mem_takePin hx)
      exact ⟨hc, path, op, operand, he, hd⟩
  have hfix : ∀ x ∈ p.placement.inline l.1, ∀ d e, l.2.tier.discourse = some d →
      x.criterion.discourseLiteral? = some e → e = d := fun x hx d e hd he => by
    have hc : x.criterion ∈ q.criteria.filter (·.site p.frame = .node l.2.tier) := by
      rw [← h.inline_eq hl]
      exact List.mem_map_of_mem hx
    obtain ⟨hc, hsite⟩ := List.mem_filter.1 hc
    exact ha _ hc l.2.tier d e (by simpa using hsite) hd he
  obtain ⟨added, hadded⟩ : ∃ added, Plan.discourseCondition l.2.tier l.2.var
      (p.placement.inline l.1) = .ok added := Plan.exists_discourseCondition hfix
  exact ⟨_, bind_eq_ok_iff.2 ⟨own, hown, bind_eq_ok_iff.2 ⟨added, hadded, rfl⟩⟩⟩

theorem exists_tail (h : Analysis q i p placed) : ∃ t, p.tail q i = .ok t := by
  cases i with
  | rows =>
    obtain ⟨items, htail, -⟩ := h.returns_rows
    exact ⟨_, htail⟩
  | count => exact ⟨_, rfl⟩
  | mutation => exact ⟨_, rfl⟩

/-- Of a plan there is a body exactly when no criterion on a node names another discourse than its
tier. -/
theorem exists_body_iff (h : Analysis q i p placed) :
    (∃ b, p.body q i = .ok b) ↔ ∀ c ∈ q.criteria, c.Agrees p.frame := by
  refine ⟨?_, ?_⟩
  · rintro ⟨b, hb⟩ c hc t d e hsite hd he
    obtain ⟨l, hl, rfl⟩ := List.mem_map.1 (h.located hc hsite)
    obtain ⟨x, -, hx⟩ := forall₂_mem_left (h.expresses hb).nodes hl
    exact hx.discourse c (List.mem_filter.2 ⟨hc, by simpa using hsite⟩) d e hd he
  · intro ha
    obtain ⟨nodes, hnodes⟩ := exists_mapM_of_forall fun _ hl => h.exists_requiredNode ha hl
    obtain ⟨constraints, hconstraints⟩ : ∃ ks, p.placement.relationships.mapM p.constraint = .ok ks :=
      exists_mapM_of_forall fun c hc => by
        obtain ⟨k, hk, -⟩ := h.says_constraint (h.mem_relationships hc).1 (h.mem_relationships hc).2
        exact ⟨k, hk⟩
    obtain ⟨filters, hfilters⟩ : ∃ fs, p.placement.filters.mapM p.filter = .ok fs :=
      exists_mapM_of_forall fun c hc => by
        obtain ⟨x, hx, -⟩ := h.says_filter hc
        exact ⟨[x], hx⟩
    obtain ⟨optional, hoptional⟩ : ∃ os, p.table.optional.mapM p.optionalMatch = .ok os :=
      exists_mapM_of_forall fun l _ => by
        obtain ⟨added, hadded⟩ : ∃ added, Plan.discourseCondition l.2.tier l.2.var [] = .ok added :=
          Plan.exists_discourseCondition (by simp)
        exact ⟨_, bind_eq_ok_iff.2 ⟨_, bind_eq_ok_iff.2 ⟨[], rfl, bind_eq_ok_iff.2
          ⟨added, hadded, rfl⟩⟩, rfl⟩⟩
    obtain ⟨tail, htail⟩ := h.exists_tail
    exact ⟨⟨nodes, _, constraints, filters.flatten, optional.filterMap id, tail⟩,
      Plan.body_eq_ok_iff.2 ⟨⟨hnodes, rfl, hconstraints, filters, hfilters, rfl⟩,
        ⟨optional, hoptional, rfl⟩, htail⟩⟩

end Analysis

/-- A query compiles when it is valid, its tiers and containments make sense in its frame, and its
criteria agree with the discourses there. -/
theorem Query.compiles_iff {q : Query} {i : Intent} :
    (∃ s, q.compile i = .ok s) ↔ q.validate i = .ok () ∧
      ∃ f, Frame.ofQuery q.hierarchy q.find q.criteria = .ok f ∧
        (∀ a ∈ q.mentioned i, ∃ t, f.canonical a = .ok t) ∧
        ∀ c ∈ q.criteria, c.Routable f ∧ c.Agrees f := by
  refine ⟨?_, ?_⟩
  · rintro ⟨s, hs⟩
    obtain ⟨hv, p, b, hp, hb, -⟩ := compile_eq_ok_iff.1 hs
    obtain ⟨placed, h⟩ := plan_eq_ok_iff.1 hp
    obtain ⟨f, hf, hcanonical, hroutable⟩ := exists_plan_iff.1 ⟨p, hp⟩
    obtain rfl : p.frame = f := Except.ok.inj (h.frame.symm.trans hf)
    exact ⟨hv, p.frame, hf, hcanonical,
      fun c hc => ⟨hroutable c hc, h.exists_body_iff.1 ⟨b, hb⟩ c hc⟩⟩
  · rintro ⟨hv, f, hf, hcanonical, hcriteria⟩
    obtain ⟨p, hp⟩ := exists_plan_iff.2 ⟨f, hf, hcanonical, fun c hc => (hcriteria c hc).1⟩
    obtain ⟨placed, h⟩ := plan_eq_ok_iff.1 hp
    obtain rfl : f = p.frame := Except.ok.inj (hf.symm.trans h.frame)
    obtain ⟨b, hb⟩ := h.exists_body_iff.2 fun c hc => (hcriteria c hc).2
    exact ⟨.ofBody b, compile_eq_ok_iff.2 ⟨hv, p, b, hp, hb, rfl⟩⟩

end TierQuery
