import TierQuery.Proofs.Tree

/-! Step counts. Edges and containment tests count levels by the names of tiers, apart from the hops
that were checked. The counts are those of the hierarchy, and along the edges they add up to the
positions of the levels. -/

namespace TierQuery

open Json (Value)

variable {π : Type}

/-- `upper` is `n` levels above `lower`, and the hierarchy counts them so. -/
structure Hierarchy.StepsUp (h : Hierarchy) (lower upper : String) (n : Nat) : Prop where
  counted : h.distance? lower upper = some n
  positions : ∃ lo hi, h.position? lower = some lo ∧ h.position? upper = some hi ∧ hi = lo + n
  positive : 1 ≤ n

/-- Levels that a hop goes up; neighbours and speakers stay where they start. -/
def Relation.steps : Relation → Nat
  | .containedBy n => n
  | .following | .previous | .spokenBy => 0

/-- Edges lead from the node `v` to the node `w`, by `n` levels in all. -/
inductive Ascends (es : List Edge) (v : String) : String → Nat → Prop
  | refl : Ascends es v v 0
  | step {n : Nat} {e : Edge} :
    Ascends es v e.parent n → e ∈ es → Ascends es v e.child (n + e.relation.steps)

/-- What a criterion looks for below a container. -/
def Criterion.contained? : Criterion → Option (Tier × AttributePath)
  | .contains container path _ => some (container, path)
  | .comparison _ _ _ | .alignment _ _ _ => none

/-- A containment test without its value. -/
def Constraint.test? : Constraint π → Option (Containment Unit)
  | .contains k => some { k with param := () }
  | .compare _ => none

/-- The test looks in the container of a criterion for what the criterion looks for, as many levels
below as there are. -/
structure Plan.Tests (p : Plan) (c : Tier × AttributePath) (k : Containment Unit) : Prop where
  container : ∃ l ∈ p.table.levels, p.frame.canonical c.1 = .ok l.tier ∧ l.var = k.container ∧
    p.frame.hierarchy.StepsUp c.2.tier.origin l.tier.name k.depth
  labels : k.labels = p.tokenLabels c.2.tier
  property : k.property = c.2.property

/-- The step counts of a body are those of the hierarchy. -/
structure Plan.CountsSteps (p : Plan) (q : Query) (b : Body π) : Prop where
  /-- A containment edge leads up to the level of its last hop. -/
  edges : ∀ e ∈ b.allEdges, ∀ n, e.relation = .containedBy n →
    ∃ k ∈ p.table.levels, ∃ l ∈ p.table.levels, k.var = e.parent ∧ l.var = e.child ∧
      k.tier = p.frame.above l.tier ∧ l.tier.hops.getLast? = some (.up l.tier.name) ∧
      p.frame.hierarchy.StepsUp k.tier.name l.tier.name n
  contained :
    List.Forall₂ p.Tests (q.criteria.filterMap Criterion.contained?)
      (b.constraints.filterMap Constraint.test?)
  /-- Along the edges, and no other way, the levels are as far up as the table has them. -/
  heights : ∀ l ∈ p.table.levels, ∀ n,
    Ascends b.allEdges p.table.root.var l.var n ↔ n = l.position
  /-- No position is cut off at zero. -/
  positions : ∀ l ∈ p.table.levels,
    p.frame.root.position? p.frame.hierarchy = none ∧ l.tier.position? p.frame.hierarchy = none ∧
        l.position = 0 ∨
      ∃ r a, p.frame.root.position? p.frame.hierarchy = some r ∧
        l.tier.position? p.frame.hierarchy = some a ∧ r ≤ a ∧ l.position = a - r

/-! Levels of a hierarchy -/

theorem Hierarchy.stepsUp_of_distance? {h : Hierarchy} {lower upper : String} {n : Nat}
    (hd : h.distance? lower upper = some n) : h.StepsUp lower upper n := by
  obtain ⟨lo, hi, hlo, hhi, hlt, rfl⟩ := distance?_eq_some_iff.1 hd
  exact ⟨hd, ⟨lo, hi, hlo, hhi, by omega⟩, by omega⟩

/-! Positions of tiers -/

section Positions

variable {h : Hierarchy} {a b : Tier} {hop : Hop}

theorem Tier.position?_up {u : String} (ho : a.origin = b.origin)
    (hh : a.hops = b.hops ++ [.up u]) :
    a.position? h = (h.position? u).or (b.position? h) := by
  rw [position?, hh, ho, List.foldl_append]
  rfl

theorem Tier.position?_beside (hhop : ∀ u, hop ≠ .up u) (ho : a.origin = b.origin)
    (hh : a.hops = b.hops ++ [hop]) : a.position? h = b.position? h := by
  rw [position?, hh, ho, List.foldl_append]
  cases hop with
  | up u => exact absurd rfl (hhop u)
  | following | previous | speaker => rfl

theorem Tier.name_concat (ho : a.origin = b.origin) (hh : a.hops = b.hops ++ [hop]) :
    a.name = levelAfter b.name hop := by
  rw [name, hh, ho, List.foldl_append]
  rfl

/-- Where a containment hop can follow, the hops lead to a level that the hierarchy knows. -/
theorem Frame.position?_eq_name {u : String}
    (hw : walkable h (some a.origin) (a.hops ++ [.up u]) = true) :
    a.position? h = h.position? a.name := by
  obtain ⟨o, hs, d, ts, ks⟩ := a
  induction hs generalizing o with
  | nil => rfl
  | cons hop hs ih =>
    cases hop with
    | following => exact ih o hw
    | previous => exact ih o hw
    | speaker => cases hs <;> simp [walkable] at hw
    | up v =>
      simp only [List.cons_append, walkable, Bool.and_eq_true] at hw
      obtain ⟨lo, hi, -, hv, -⟩ := Hierarchy.isAbove_iff.1 hw.1
      have hskip : Tier.position? h ⟨o, .up v :: hs, d, ts, ks⟩
          = Tier.position? h ⟨v, hs, d, ts, ks⟩ := by
        simp [Tier.position?, hv]
      rw [hskip]
      exact ih v hw.2

end Positions

namespace Frame.Grounded

variable {f : Frame} {t : Tier} {hop : Hop}

/-- The tier above is the one before the last hop. -/
theorem hops_above (hr : f.root.hops = []) (ht : f.Grounded t)
    (hhop : t.hops.getLast? = some hop) :
    t.origin = (f.above t).origin ∧ t.hops = (f.above t).hops ++ [hop] := by
  have hsplit : t.hops.dropLast ++ [hop] = t.hops := List.dropLast_append_getLast? _ hhop
  unfold Frame.above
  split
  · next hd =>
    have hnil : t.hops.dropLast = [] := by
      apply List.length_eq_zero_iff.1
      rw [List.length_dropLast, ← Tier.depth.eq_1]
      omega
    rw [hnil] at hsplit
    exact ⟨ht.origin, by rw [hr, ← hsplit]⟩
  · refine ⟨rfl, ?_⟩
    have hcut : (t.cut (t.depth - 1)).hops = t.hops.dropLast := List.dropLast_eq_take.symm
    rw [hcut, hsplit]

theorem above (hr : f.root.hops = []) (ht : f.Grounded t) : f.Grounded (f.above t) := by
  unfold Frame.above
  split
  · exact grounded_root hr
  · exact ht.of_mem_chain (Tier.mem_chain.2 (Or.inr ⟨_, by omega, by omega, rfl⟩))

/-- The hierarchy knows a tier if it knows the searched-for level, and then has it as far above that
as the table says. -/
theorem positions (hr : f.root.hops = []) (ht : f.Grounded t) :
    f.root.position? f.hierarchy = none ∧ t.position? f.hierarchy = none ∧
        LevelTable.positionAbove f t = 0 ∨
      ∃ r a, f.root.position? f.hierarchy = some r ∧ t.position? f.hierarchy = some a ∧
        r ≤ a ∧ LevelTable.positionAbove f t = a - r := by
  have hroot : f.root.position? f.hierarchy = f.hierarchy.position? t.origin := by
    rw [Tier.position?, hr, ht.origin]
    rfl
  unfold LevelTable.positionAbove
  rcases position?_of_walkable ht.walkable with ⟨ho, hp⟩ | ⟨r, a, ho, hp, hle⟩
  · exact .inl ⟨hroot.trans ho, hp, by rw [hp]⟩
  · exact .inr ⟨r, a, hroot.trans ho, hp, hle, by rw [hp, hroot, ho]⟩

/-- A containment hop goes up by as many levels as the hierarchy counts. -/
theorem stepsUp_above (hr : f.root.hops = []) (ht : f.Grounded t) {u : String}
    (hhop : t.hops.getLast? = some (.up u)) :
    t.name = u ∧ ∃ n, f.hierarchy.StepsUp (f.above t).name t.name n := by
  obtain ⟨ho, hh⟩ := ht.hops_above hr hhop
  have hname : t.name = u := Tier.name_concat ho hh
  obtain ⟨n, hn⟩ := ht.distance?_above hr hhop
  exact ⟨hname, n, Hierarchy.stepsUp_of_distance? (hname ▸ hn)⟩

end Frame.Grounded

namespace Plan

variable {p : Plan} {t : Tier} {hop : Hop}

/-- The last hop takes a tier as far up as its relation counts. -/
theorem positionAbove_step (hr : p.frame.root.hops = []) (ht : p.frame.Grounded t)
    (hhop : t.hops.getLast? = some hop) :
    LevelTable.positionAbove p.frame t
      = LevelTable.positionAbove p.frame (p.frame.above t)
        + (p.relation (p.frame.above t) hop).steps := by
  obtain ⟨ho, hh⟩ := ht.hops_above hr hhop
  have beside (hup : ∀ u, hop ≠ .up u) :
      LevelTable.positionAbove p.frame t
        = LevelTable.positionAbove p.frame (p.frame.above t) := by
    rw [LevelTable.positionAbove, LevelTable.positionAbove, Tier.position?_beside hup ho hh]
  cases hop with
  | following => exact beside nofun
  | previous => exact beside nofun
  | speaker => exact beside nofun
  | up u =>
    obtain ⟨hname, n, hn⟩ := ht.stepsUp_above hr hhop
    obtain ⟨lo, hi, hlo, hhi, rfl⟩ := hn.positions
    have hsteps : (p.relation (p.frame.above t) (.up u)).steps = n := by
      rw [relation, ← hname, hn.counted]
      rfl
    have habove : (p.frame.above t).position? p.frame.hierarchy = some lo := by
      rw [Frame.position?_eq_name (u := u) (by rw [← ho, ← hh]; exact ht.walkable), hlo]
    have hend : t.position? p.frame.hierarchy = some (lo + n) := by
      rw [Tier.position?_up ho hh, ← hname, hhi]
      rfl
    have hheight := Frame.height_eq hr ht
    have hheightAbove := Frame.height_eq hr (ht.above hr)
    rw [Frame.height, hend, Option.getD_some] at hheight
    rw [Frame.height, habove, Option.getD_some] at hheightAbove
    omega

end Plan

/-! Containment tests -/

theorem Plan.Says.tests {p : Plan} {c : Criterion} {k : Constraint Value} (h : p.Says c k) :
    Option.Rel p.Tests c.contained? k.test? := by
  cases h with
  | value _ => exact .none
  | path _ _ => exact .none
  | alignment _ _ => exact .none
  | contains hv hc _ hd =>
    obtain ⟨l, hl, -, hcanonical, rfl⟩ := hv
    obtain rfl := Except.ok.inj (hc.symm.trans hcanonical)
    exact .some ⟨⟨l, hl, hc, rfl, Hierarchy.stepsUp_of_distance? hd⟩, rfl, rfl⟩

theorem Constraint.test?_values (k : Constraint Literal) : k.values.test? = k.test? := by
  cases k <;> rfl

theorem Constraint.yields_test (k : Constraint Literal) :
    Yields (k.replace Literal.number) fun k' => k'.test? = k.test? := by
  cases k with
  | compare p => exact (Yields.trivial _).bind fun _ _ => .pure rfl
  | contains k =>
    have hk : Yields (k.replace Literal.number) fun k' =>
        ({ k' with param := () } : Containment Unit) = { k with param := () } :=
      (Yields.trivial _).bind fun _ _ => .pure rfl
    exact hk.bind fun k' hk => .pure (congrArg some hk)

theorem Statement.tests_ofBody (b : Body Literal) :
    (Statement.ofBody b).body.constraints.map Constraint.test?
      = b.constraints.map Constraint.test? := by
  have h : Yields (b.replace Literal.number) fun b' =>
      b'.constraints.map Constraint.test? = b.constraints.map Constraint.test? :=
    (Yields.trivial _).bind fun _ _ =>
      (Yields.mapM Constraint.yields_test b.constraints).bind fun _ hks =>
        (Yields.trivial _).bind fun _ _ => (Yields.trivial _).bind fun _ _ =>
          (Yields.trivial _).bind fun _ _ => .pure hks
  exact h .empty

namespace Analysis

variable {q : Query} {i : Intent} {p : Plan} {placed : List (Mention × Tier)} {b : Body Literal}

theorem contained (h : Analysis q i p placed) (hb : p.body q i = .ok b) :
    List.Forall₂ p.Tests (q.criteria.filterMap Criterion.contained?)
      ((Statement.ofBody b).body.constraints.filterMap Constraint.test?) := by
  have hsays := (h.expresses hb).constraints
  rw [Body.values_constraints, List.forall₂_map_right_iff] at hsays
  have htests : (Statement.ofBody b).body.constraints.filterMap Constraint.test?
      = b.constraints.filterMap Constraint.test? := by
    have hmap := congrArg (List.filterMap id) (Statement.tests_ofBody b)
    rwa [List.filterMap_map, List.filterMap_map] at hmap
  -- a criterion that contains is a constraint between nodes
  have hcriteria : (q.criteria.filter (·.site p.frame = .constraints)).filterMap
      Criterion.contained? = q.criteria.filterMap Criterion.contained? := by
    rw [List.filterMap_filter]
    refine List.filterMap_congr fun c _ => ?_
    cases c with
    | contains container path v => rfl
    | comparison path op operand => simp [Criterion.contained?]
    | alignment kind a b => rfl
  rw [htests, ← hcriteria]
  refine List.rel_filterMap (fun c k hck => ?_) hsays
  exact k.test?_values ▸ Plan.Says.tests hck

/-! Edges -/

theorem mem_allEdges (h : Analysis q i p placed) (hr : p.frame.root.hops = [])
    (hb : p.body q i = .ok b) {e : Edge} :
    e ∈ (Statement.ofBody b).body.allEdges ↔
      ∃ k ∈ p.table.levels, ∃ l ∈ p.table.levels, ∃ hop, k.tier = p.frame.above l.tier ∧
        l.tier.hops.getLast? = some hop ∧ e = ⟨k.var, l.var, p.relation k.tier hop⟩ := by
  obtain ⟨-, he, ho⟩ := Statement.tree_ofBody b
  rw [Plan.allEdges_eq (he.trans (h.edges_eq hr hb)) (ho.trans (h.optional_eq hr hb)),
    List.mem_filterMap]
  constructor
  · rintro ⟨t, ht, hedge⟩
    obtain ⟨l, hl, rfl⟩ := List.mem_map.1 (p.table.tiers_perm.mem_iff.1 ht)
    obtain ⟨n, hn⟩ := List.mem_iff_getElem?.1 hl
    rw [← h.edge?_eq_edgeTo hr hn] at hedge
    have hh : l.tier.hops ≠ [] := by
      intro hh
      rw [edge?_eq_none hh] at hedge
      cases hedge
    obtain ⟨m, k, hop, -, hk, hkt, -, hhop, hk'⟩ := h.edge?_eq hr hn hh
    exact ⟨k, List.mem_of_getElem? hk, l, hl, hop, hkt, hhop,
      (Option.some.inj (hk'.symm.trans hedge)).symm⟩
  · rintro ⟨k, hk, l, hl, hop, hkt, hhop, rfl⟩
    refine ⟨l.tier, p.table.tiers_perm.mem_iff.2 (List.mem_map_of_mem hl), ?_⟩
    rw [Plan.edgeTo, hhop, Option.map_some, ← hkt, h.varOf_tier hk, h.varOf_tier hl]

theorem counted_edge (h : Analysis q i p placed) (hr : p.frame.root.hops = [])
    (hb : p.body q i = .ok b) {e : Edge} (he : e ∈ (Statement.ofBody b).body.allEdges) {n : Nat}
    (hn : e.relation = .containedBy n) :
    ∃ k ∈ p.table.levels, ∃ l ∈ p.table.levels, k.var = e.parent ∧ l.var = e.child ∧
      k.tier = p.frame.above l.tier ∧ l.tier.hops.getLast? = some (.up l.tier.name) ∧
      p.frame.hierarchy.StepsUp k.tier.name l.tier.name n := by
  obtain ⟨k, hk, l, hl, hop, hkt, hhop, rfl⟩ := (h.mem_allEdges hr hb).1 he
  cases hop with
  | following | previous | speaker => cases hn
  | up u =>
    obtain ⟨rfl, m, hm⟩ := (h.grounded hr hl).stepsUp_above hr hhop
    rw [← hkt] at hm
    obtain rfl : m = n := by
      simp only [Plan.relation, hm.counted, Option.getD_some, Relation.containedBy.injEq] at hn
      exact hn
    exact ⟨k, hk, l, hl, rfl, rfl, hkt, hhop, hm⟩

/-! Heights -/

theorem position_eq (h : Analysis q i p placed) {l : Level} (hl : l ∈ p.table.levels) :
    l.position = LevelTable.positionAbove p.frame l.tier :=
  LevelTable.position_of_mem (h.levels_eq ▸ hl)

theorem position_root (h : Analysis q i p placed) (hr : p.frame.root.hops = []) :
    p.table.root.position = 0 := by
  obtain ⟨hroot, ht, -⟩ := h.root_level hr
  rw [h.position_eq (List.mem_of_getElem? hroot), ht]
  rcases (Frame.grounded_root hr).positions hr with ⟨-, -, h0⟩ | ⟨r, a, hr, ha, -, he⟩
  · exact h0
  · obtain rfl := Option.some.inj (hr.symm.trans ha)
    rw [he, Nat.sub_self]

theorem position_step (h : Analysis q i p placed) (hr : p.frame.root.hops = []) {k l : Level}
    {hop : Hop} (hk : k ∈ p.table.levels) (hl : l ∈ p.table.levels)
    (hkt : k.tier = p.frame.above l.tier) (hhop : l.tier.hops.getLast? = some hop) :
    l.position = k.position + (p.relation k.tier hop).steps := by
  rw [h.position_eq hk, h.position_eq hl, Plan.positionAbove_step hr (h.grounded hr hl) hhop, hkt]

theorem ascends_position (h : Analysis q i p placed) (hr : p.frame.root.hops = [])
    (hb : p.body q i = .ok b) {l : Level} (hl : l ∈ p.table.levels) :
    Ascends (Statement.ofBody b).body.allEdges p.table.root.var l.var l.position := by
  -- one hop more at a time
  induction hd : l.tier.depth generalizing l with
  | zero =>
    have hlroot : l = p.table.root := by
      obtain ⟨hroot, ht, -⟩ := h.root_level hr
      have hlt := (h.grounded hr hl).root (List.length_eq_zero_iff.1 hd)
      exact h.level_of_tier hl (List.mem_of_getElem? hroot) (hlt.trans ht.symm)
    rw [hlroot, h.position_root hr]
    exact .refl
  | succ d ih =>
    obtain ⟨n, hn⟩ := List.mem_iff_getElem?.1 hl
    have hh : l.tier.hops ≠ [] := Tier.hops_ne_nil_iff.2 (by omega)
    obtain ⟨m, k, hop, -, hk, hkt, -, hhop, -⟩ := h.edge?_eq hr hn hh
    have hk := List.mem_of_getElem? hk
    have hkd : k.tier.depth = d := by
      have hlen := congrArg List.length ((h.grounded hr hl).hops_above hr hhop).2
      rw [← hkt, List.length_append, List.length_singleton] at hlen
      simp only [Tier.depth] at hd ⊢
      omega
    rw [h.position_step hr hk hl hkt hhop]
    exact .step (ih hk hkd) ((h.mem_allEdges hr hb).2 ⟨k, hk, l, hl, hop, hkt, hhop, rfl⟩)

theorem position_of_ascends (h : Analysis q i p placed) (hr : p.frame.root.hops = [])
    (hb : p.body q i = .ok b) {v : String} {n : Nat}
    (ha : Ascends (Statement.ofBody b).body.allEdges p.table.root.var v n) {l : Level}
    (hl : l ∈ p.table.levels) (hv : l.var = v) : n = l.position := by
  induction ha generalizing l with
  | refl =>
    rw [h.level_of_var hl (List.mem_of_getElem? (h.root_level hr).1) hv, h.position_root hr]
  | step _ he ih =>
    obtain ⟨k, hk, l', hl', hop, hkt, hhop, rfl⟩ := (h.mem_allEdges hr hb).1 he
    obtain rfl := h.level_of_var hl hl' hv
    rw [h.position_step hr hk hl hkt hhop, ih hk rfl]

theorem countsSteps (h : Analysis q i p placed) (hr : p.frame.root.hops = [])
    (hb : p.body q i = .ok b) : p.CountsSteps q (Statement.ofBody b).body where
  edges _ he _ hn := h.counted_edge hr hb he hn
  contained := h.contained hb
  heights l hl n := by
    constructor
    · intro ha
      exact h.position_of_ascends hr hb ha hl rfl
    · rintro rfl
      exact h.ascends_position hr hb hl
  positions l hl := by
    rw [h.position_eq hl]
    exact (h.grounded hr hl).positions hr

end Analysis

/-- Of a query that compiles, every containment edge and every containment test counts the levels that
there are in the hierarchy, and the counts on the way to a level add up to its position. -/
theorem step_counts_are_exact {q : Query} {i : Intent} {s : Statement} (hq : q.find.hops = [])
    (hs : q.compile i = .ok s) : ∃ p, q.plan i = .ok p ∧ p.CountsSteps q s.body := by
  obtain ⟨-, p, b, hp, hb, rfl⟩ := Query.compile_eq_ok_iff.1 hs
  obtain ⟨placed, h⟩ := Query.plan_eq_ok_iff.1 hp
  exact ⟨p, hp, h.countsSteps (h.root_hops hq) hb⟩

/-- Syllables in utterances with a vowel, and the utterance of the word after theirs. -/
def Query.syllablesInContext : Query :=
  let syllable := Tier.ofLevel "syllable"
  let utterance := Tier.ofLevel "utterance"
  let nextWord := (syllable.hop (.up "word")).hop .following
  ((Query.ofFind (.ofList ["phone", "syllable", "word", "utterance"]) syllable).filter
    (.contains utterance ((Tier.ofLevel "phone").attribute .label) (.text "AA"))).withColumns
      [(nextWord.hop (.up "utterance")).attribute .label]

theorem syllablesInContext_count_their_steps :
    ∃ (s : Statement) (p : Plan), Query.syllablesInContext.compile .rows = .ok s ∧
      s.body.allEdges.map (·.relation)
        = [.containedBy 2, .containedBy 1, .following, .containedBy 1] ∧
      p.CountsSteps Query.syllablesInContext s.body := by
  obtain ⟨s, hs, he⟩ := exists_ok_of_toOption_map
    (x := Query.syllablesInContext.compile .rows) (g := fun s => s.body.allEdges.map (·.relation))
    (b := [.containedBy 2, .containedBy 1, .following, .containedBy 1]) (by decide +kernel)
  obtain ⟨p, -, hp⟩ := step_counts_are_exact rfl hs
  exact ⟨s, p, hs, he, hp⟩

end TierQuery
