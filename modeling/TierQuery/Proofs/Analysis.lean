import TierQuery.Compile
import TierQuery.Proofs.Levels

/-! What the analysis of a query finds. A plan records its stages, and every spelling in the query
is looked up as the level of its canonical form. -/

namespace TierQuery

namespace References

/-- The mentions that criteria make. -/
def bindingMentions (criteria : List Criterion) : List Mention :=
  criteria.zipIdx.flatMap fun (c, n) => c.boundTiers.map fun a => ⟨a, .criterion n, true⟩

/-- The mentions that what is returned makes. -/
def laterMentions (r : References) : List Mention :=
  pathMentions .column r.columns ++ pathMentions .groupBy r.groupBy
    ++ pathMentions .orderBy r.orderBy ++ pathMentions .aggregate r.aggregates

theorem mentions_eq (r : References) :
    r.mentions = bindingMentions r.criteria ++ r.laterMentions := by
  simp [mentions, bindingMentions, laterMentions]

theorem binding_of_mem {cs : List Criterion} {m : Mention} (h : m ∈ bindingMentions cs) :
    m.binding = true := by
  obtain ⟨⟨c, n⟩, -, hm⟩ := List.mem_flatMap.1 h
  obtain ⟨a, -, rfl⟩ := List.mem_map.1 hm
  rfl

theorem exists_mem_bindingMentions {cs : List Criterion} {a : Tier} :
    (∃ m ∈ bindingMentions cs, m.tier = a) ↔ ∃ c ∈ cs, a ∈ c.boundTiers := by
  refine ⟨?_, ?_⟩
  · rintro ⟨m, hm, rfl⟩
    obtain ⟨⟨c, n⟩, hc, hm⟩ := List.mem_flatMap.1 hm
    obtain ⟨a, ha, rfl⟩ := List.mem_map.1 hm
    exact ⟨c, List.fst_mem_of_mem_zipIdx hc, ha⟩
  · rintro ⟨c, hc, ha⟩
    obtain ⟨n, hn⟩ := List.mem_iff_getElem?.1 hc
    refine ⟨⟨a, .criterion n, true⟩, List.mem_flatMap.2 ⟨(c, n), ?_, ?_⟩, rfl⟩
    · exact List.mem_zipIdx_iff_getElem?.2 hn
    · exact List.mem_map.2 ⟨a, ha, rfl⟩

theorem mem_pathMentions {reference : Nat → Reference} {paths : List AttributePath} {m : Mention} :
    m ∈ pathMentions reference paths →
      m.binding = false ∧ ∃ p ∈ paths, m.tier = p.tier := by
  intro h
  obtain ⟨⟨p, n⟩, hp, rfl⟩ := List.mem_map.1 h
  exact ⟨rfl, p, List.fst_mem_of_mem_zipIdx hp, rfl⟩

theorem exists_mem_pathMentions {reference : Nat → Reference} {paths : List AttributePath}
    {p : AttributePath} (h : p ∈ paths) : ∃ m ∈ pathMentions reference paths, m.tier = p.tier := by
  obtain ⟨n, hn⟩ := List.mem_iff_getElem?.1 h
  exact ⟨_, List.mem_map.2 ⟨(p, n), List.mem_zipIdx_iff_getElem?.2 hn, rfl⟩, rfl⟩

/-- What a tail refers to is mentioned. -/
theorem exists_mem_mentions {r : References} {p : AttributePath}
    (h : p ∈ r.columns ++ r.groupBy ++ r.aggregates) : ∃ m ∈ r.mentions, m.tier = p.tier := by
  have hlater : ∃ m ∈ r.laterMentions, m.tier = p.tier := by
    simp only [laterMentions, List.mem_append, or_and_right, exists_or]
    rcases List.mem_append.1 h with h | h
    · rcases List.mem_append.1 h with h | h
      · exact Or.inl (Or.inl (Or.inl (exists_mem_pathMentions h)))
      · exact Or.inl (Or.inl (Or.inr (exists_mem_pathMentions h)))
    · exact Or.inr (exists_mem_pathMentions h)
  obtain ⟨m, hm, ht⟩ := hlater
  exact ⟨m, mentions_eq r ▸ List.mem_append_right _ hm, ht⟩

theorem not_binding_of_mem {r : References} {m : Mention} (h : m ∈ r.laterMentions) :
    m.binding = false := by
  simp only [laterMentions, List.mem_append] at h
  rcases h with ((h | h) | h) | h <;> exact (mem_pathMentions h).1

end References

theorem Query.criteria_references (q : Query) (i : Intent) :
    (q.references i).criteria = q.criteria := by
  cases i with
  | rows => simp only [references]; split <;> rfl
  | count => rfl
  | mutation => rfl

/-- The stages that a plan comes from. -/
structure Analysis (q : Query) (i : Intent) (p : Plan) (placed : List (Mention × Tier)) : Prop where
  corpus : p.corpus? = q.corpus?
  frame : Frame.ofQuery q.hierarchy q.find q.criteria = .ok p.frame
  mentions : placed.map Prod.fst = (q.references i).mentions
  canonical : ∀ x ∈ placed, p.frame.canonical x.1.tier = .ok x.2
  table : p.table = .ofPlaced p.frame placed
  placement : Placement.ofCriteria p.frame p.table q.criteria = .ok p.placement

theorem LevelTable.mapM_place_iff {f : Frame} {ms : List Mention} {placed : List (Mention × Tier)} :
    ms.mapM (place f) = .ok placed ↔
      placed.map Prod.fst = ms ∧ ∀ x ∈ placed, f.canonical x.1.tier = .ok x.2 := by
  refine mapM_eq_ok_iff_map fun m x => ?_
  rw [place, bind_eq_ok_iff]
  refine ⟨?_, ?_⟩
  · rintro ⟨a, ha, h⟩
    cases h
    exact ⟨rfl, ha⟩
  · rintro ⟨rfl, h⟩
    exact ⟨x.2, h, rfl⟩

theorem LevelTable.resolve_eq_ok_iff {f : Frame} {r : References} {t : LevelTable} :
    resolve f r = .ok t ↔ ∃ placed,
      (placed.map Prod.fst = r.mentions ∧ ∀ x ∈ placed, f.canonical x.1.tier = .ok x.2) ∧
        t = ofPlaced f placed := by
  rw [resolve, bind_eq_ok_iff]
  refine exists_congr fun placed => and_congr mapM_place_iff ?_
  rw [Except.ok.injEq, eq_comm]

theorem Placement.ofCriteria_eq_ok_iff {f : Frame} {t : LevelTable} {cs : List Criterion}
    {pl : Placement} :
    ofCriteria f t cs = .ok pl ↔
      pl.map Placed.criterion = cs ∧ ∀ x ∈ pl, x.criterion.route f t = .ok x.route := by
  refine mapM_eq_ok_iff_map fun c x => ?_
  rw [bind_eq_ok_iff]
  refine ⟨?_, ?_⟩
  · rintro ⟨r, hr, h⟩
    cases h
    exact ⟨rfl, hr⟩
  · rintro ⟨rfl, h⟩
    exact ⟨x.route, h, rfl⟩

theorem Query.plan_eq_ok_iff {q : Query} {i : Intent} {p : Plan} :
    q.plan i = .ok p ↔ ∃ placed, Analysis q i p placed := by
  simp only [plan, bind_eq_ok_iff, LevelTable.resolve_eq_ok_iff]
  refine ⟨?_, ?_⟩
  · rintro ⟨f, hf, t, ⟨placed, ⟨hm, hc⟩, ht⟩, pl, hpl, hp⟩
    cases ht
    cases hp
    exact ⟨placed, rfl, hf, hm, hc, rfl, hpl⟩
  · rintro ⟨placed, h⟩
    refine ⟨p.frame, h.frame, p.table, ⟨placed, ⟨h.mentions, h.canonical⟩, h.table⟩,
      p.placement, h.placement, ?_⟩
    rw [← h.corpus]

/-! Spellings -/

/-- In the plan the spelling `a` means the level `l` at `n`. -/
structure Plan.Resolves (p : Plan) (a : Tier) (n : LevelId) (l : Level) : Prop where
  lookup : p.table.lookup p.frame a = .ok (n, l)
  level : p.table.levels[n]? = some l
  canonical : p.frame.canonical a = .ok l.tier

namespace Analysis

variable {q : Query} {i : Intent} {p : Plan} {placed : List (Mention × Tier)}

theorem resolves_mention (h : Analysis q i p placed) {m : Mention}
    (hm : m ∈ (q.references i).mentions) :
    ∃ n l, p.Resolves m.tier n l ∧ (m.binding = true → l.required = true) := by
  rw [← h.mentions] at hm
  obtain ⟨x, hx, rfl⟩ := List.mem_map.1 hm
  obtain ⟨n, l, hl, hn, ht, hr⟩ := LevelTable.lookup_spelling h.canonical hx
  refine ⟨n, l, ⟨?_, ?_, ?_⟩, hr⟩
  · rw [h.table, hl]
  · rw [h.table]; exact hn
  · rw [h.canonical x hx, ht]

/-- A tier that a criterion binds has a required level. -/
theorem resolves_bound (h : Analysis q i p placed) {c : Criterion} (hc : c ∈ q.criteria) {a : Tier}
    (ha : a ∈ c.boundTiers) : ∃ n l, p.Resolves a n l ∧ l.required = true := by
  obtain ⟨m, hm, rfl⟩ := References.exists_mem_bindingMentions.2 ⟨c, hc, ha⟩
  have hm' : m ∈ (q.references i).mentions := by
    rw [References.mentions_eq, q.criteria_references]
    exact List.mem_append_left _ hm
  obtain ⟨n, l, hl, hr⟩ := h.resolves_mention hm'
  exact ⟨n, l, hl, hr (References.binding_of_mem hm)⟩

end Analysis

/-! Routes -/

theorem LevelTable.getElem?_of_lookup {f : Frame} {t : LevelTable} {a : Tier} {n : LevelId}
    {l : Level} (h : t.lookup f a = .ok (n, l)) : t.levels[n]? = some l := by
  unfold lookup at h
  split at h
  · cases h
  · split at h
    · cases h
    · next hl =>
      cases h
      exact hl

theorem Criterion.route_contains {f : Frame} {t : LevelTable} {container : Tier}
    {path : AttributePath} {v : Json.Value} {r : Route}
    (h : (contains container path v).route f t = .ok r) :
    r = .relationship ∧ path.property ≠ .duration ∧ path.tier.hops = [] ∧
      ∃ n l, t.lookup f container = .ok (n, l) ∧
        f.hierarchy.isAbove l.tier.name path.tier.origin = true := by
  simp only [route] at h
  split at h
  · cases h
  · next hp =>
    obtain ⟨⟨n, l⟩, hl, h⟩ := bind_eq_ok_iff.1 h
    split at h
    · next habove =>
      cases h
      exact ⟨rfl, hp, habove.1, n, l, hl, habove.2⟩
    · cases h

/-- A criterion that is routed to a level compares paths of that level only. -/
theorem Criterion.route_eq_ok {f : Frame} {t : LevelTable} {c : Criterion} {r : Route}
    (h : c.route f t = .ok r) (hr : r ≠ .relationship) :
    ∃ path op operand n l, c = .comparison path op operand ∧
      t.lookup f path.tier = .ok (n, l) ∧ r = path.property.route n ∧
      ∀ other, operand = .path other → t.lookup f other.tier = .ok (n, l) := by
  cases c with
  | alignment kind a b =>
    cases h
    exact absurd rfl hr
  | contains container path v => exact absurd (route_contains h).1 hr
  | comparison path op operand =>
    obtain ⟨⟨n, l⟩, hl, h⟩ := bind_eq_ok_iff.1 h
    refine ⟨path, op, operand, n, l, rfl, hl, ?_⟩
    cases operand with
    | value v =>
      cases h
      exact ⟨rfl, fun other ho => by cases ho⟩
    | path other =>
      obtain ⟨⟨m, k⟩, hk, h⟩ := bind_eq_ok_iff.1 h
      cases h
      by_cases hmn : m = n
      · subst hmn
        have hlk : k = l := by
          simpa using (LevelTable.getElem?_of_lookup hk).symm.trans (LevelTable.getElem?_of_lookup hl)
        refine ⟨by simp, fun other' ho => ?_⟩
        cases ho
        rw [hk, hlk]
      · simp [hmn] at hr

/-! Stages of a statement -/

/-- The pattern of the plan with its constraints and filters, as a body has it. -/
structure Plan.Matches (p : Plan) (b : Body Literal) : Prop where
  nodes : p.table.required.mapM p.requiredNode = .ok b.nodes
  edges : b.edges = p.table.required.filterMap fun l => p.edge? l.2
  constraints : p.placement.relationships.mapM p.constraint = .ok b.constraints
  filters : ∃ fs, p.placement.filters.mapM p.filter = .ok fs ∧ b.filters = fs.flatten

theorem Plan.body_eq_ok_iff {p : Plan} {q : Query} {i : Intent} {b : Body Literal} :
    p.body q i = .ok b ↔ p.Matches b ∧
      (∃ os, p.table.optional.mapM p.optionalMatch = .ok os ∧ b.optional = os.filterMap id) ∧
      p.tail q i = .ok b.tail := by
  simp only [body, bind_eq_ok_iff]
  refine ⟨?_, ?_⟩
  · rintro ⟨ns, hn, cs, hc, fs, hf, os, ho, t, ht, h⟩
    cases h
    exact ⟨⟨hn, rfl, hc, fs, hf, rfl⟩, ⟨os, ho, rfl⟩, ht⟩
  · rintro ⟨⟨hn, he, hc, fs, hf, hfs⟩, ⟨os, ho, hos⟩, ht⟩
    refine ⟨_, hn, _, hc, fs, hf, os, ho, _, ht, ?_⟩
    rw [← he, ← hfs, ← hos]

theorem Plan.relation_eq {p p' : Plan} (h : p.frame = p'.frame) : p.relation = p'.relation := by
  funext a hop
  cases hop <;> simp only [relation, h]

/-- Rows are columns and aggregates. -/
theorem Plan.rowsTail_eq_ok {p : Plan} {q : Query} {t : Tail Literal} (h : p.rowsTail q = .ok t) :
    ∃ items order, t = .select items order ∧
      ∀ x ∈ items, (∃ path, p.column path = .ok x) ∨ ∃ a, p.aggregate a = .ok x := by
  unfold rowsTail at h
  split_ifs at h
  · obtain ⟨items, hitems, h⟩ := bind_eq_ok_iff.1 h
    cases h
    refine ⟨items, _, rfl, fun x hx => ?_⟩
    obtain ⟨path, -, hpath⟩ := forall₂_mem_right (mapM_eq_ok_iff.1 hitems) hx
    exact .inl ⟨path, hpath⟩
  · obtain ⟨groups, hgroups, h⟩ := bind_eq_ok_iff.1 h
    obtain ⟨aggregates, haggregates, h⟩ := bind_eq_ok_iff.1 h
    cases h
    refine ⟨groups ++ aggregates, _, rfl, fun x hx => ?_⟩
    rcases List.mem_append.1 hx with hx | hx
    · obtain ⟨path, -, hpath⟩ := forall₂_mem_right (mapM_eq_ok_iff.1 hgroups) hx
      exact .inl ⟨path, hpath⟩
    · obtain ⟨a, -, ha⟩ := forall₂_mem_right (mapM_eq_ok_iff.1 haggregates) hx
      exact .inr ⟨a, ha⟩

theorem Query.compile_eq_ok_iff {q : Query} {i : Intent} {s : Statement} :
    q.compile i = .ok s ↔ q.validate i = .ok () ∧
      ∃ p b, q.plan i = .ok p ∧ p.body q i = .ok b ∧ s = .ofBody b := by
  unfold compile draft
  cases hv : q.validate i with
  | error e => simp
  | ok u =>
    cases hp : q.plan i with
    | error e => simp [bind, Except.bind]
    | ok p =>
      cases hb : p.body q i with
      | error e => simp [bind, Except.bind, hb]
      | ok b => simp [bind, Except.bind, hb, eq_comm]

/-! Two queries on the same tokens -/

/-- Phones before a pause in one word of one discourse: a criterion for every section. -/
def Query.phonesBeforePause : Query :=
  let phone := Tier.ofLevel "phone"
  let word := Tier.ofLevel "word"
  ((((Query.ofFind (.ofList ["phone", "word", "utterance"]) phone).filter
    ((phone.attribute .discourse).compare .eq (.text "d1"))).filter
    ((word.attribute .id).compare .eq (.text "w1"))).filter
    ((word.attribute .label).compare .eq (.text "cat"))).filter
    (((phone.hop .following).attribute .begin).comparePath .gt (phone.attribute .end))

/-- The same phones with a new type, which the pattern does not mention. -/
def Query.relabelBeforePause : Query :=
  Query.phonesBeforePause.withTypeUpdate [("label", .text "V")]

end TierQuery
