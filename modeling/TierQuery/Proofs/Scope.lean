import TierQuery.Proofs.Criteria
import TierQuery.Proofs.Literals

/-! The discourse of a query. With a scope, every level is in its discourse, and the node of every
level but a speaker says so: by a criterion, or else by one condition of its own. A level that is
matched cannot be labelled otherwise. The label of a contained token is not looked at. -/

namespace TierQuery

open Json (Value)

namespace Discourse

/-- What is agreed on in the end is what every label says. -/
theorem foldlM_agree_eq_ok {scope agreed : Option String} {labels : List String}
    (h : labels.foldlM agree scope = .ok agreed) :
    (∀ d, scope = some d → agreed = some d) ∧ ∀ label ∈ labels, agreed = some label := by
  induction labels generalizing scope with
  | nil =>
    cases h
    simp
  | cons label labels ih =>
    rw [List.foldlM_cons] at h
    obtain ⟨next, hnext, h⟩ := bind_eq_ok_iff.1 h
    obtain ⟨hkept, hall⟩ := ih h
    have hstep : next = some label ∧ ∀ d, scope = some d → d = label := by
      unfold agree at hnext
      split at hnext
      · cases hnext
        simp
      · next d =>
        split at hnext
        · next hd =>
          cases hnext
          subst hd
          simp
        · cases hnext
    refine ⟨fun d hd => hstep.2 d hd ▸ hkept label hstep.1, ?_⟩
    exact List.forall_mem_cons.2 ⟨hkept label hstep.1, hall⟩

theorem label_of_apply {scope : Option String} {a b : Tier} (h : apply scope a = .ok b) {d : String}
    (hd : scope = some d) : a.discourse = none ∨ a.discourse = some d := by
  cases ha : a.discourse with
  | none => exact Or.inl rfl
  | some own =>
    simp only [apply, ha, hd] at h
    split at h
    · next hown => exact Or.inr (hown ▸ rfl)
    · cases h

end Discourse

namespace Frame

variable {f : Frame} {a t : Tier}

theorem scope_of_ofQuery {h : Hierarchy} {find : Tier} {cs : List Criterion}
    (hf : ofQuery h find cs = .ok f) :
    Discourse.collect find cs = .ok f.scope ∧ Discourse.apply f.scope find = .ok f.root := by
  obtain ⟨scope, hs, hf⟩ := bind_eq_ok_iff.1 hf
  obtain ⟨root, hr, hf⟩ := bind_eq_ok_iff.1 hf
  cases hf
  exact ⟨hs, hr⟩

/-- A canonical form has the label of the tier under the scope. -/
theorem apply_of_canonical (h : f.canonical a = .ok t) :
    ∃ r s, r.discourse = a.discourse ∧ Discourse.apply f.scope r = .ok s ∧
      s.discourse = t.discourse := by
  obtain ⟨r, s, hr, -, hs, ⟨-, hb⟩ | ⟨-, rfl⟩⟩ := canonical_eq_ok_iff.1 h
  · obtain ⟨rfl, hd⟩ := bindRoot_eq_ok hb
    exact ⟨r, s, (rooted_eq_ok hr).2, hs, hd⟩
  · exact ⟨r, s, (rooted_eq_ok hr).2, hs, rfl⟩

theorem discourse_canonical (h : f.canonical a = .ok t) :
    t.discourse = f.scope.or a.discourse := by
  obtain ⟨r, s, hr, hs, ht⟩ := apply_of_canonical h
  rw [← ht, ← hr, Discourse.apply_eq_ok hs]
  rfl

theorem label_of_canonical (h : f.canonical a = .ok t) {d : String} (hd : f.scope = some d) :
    a.discourse = none ∨ a.discourse = some d := by
  obtain ⟨r, s, hr, hs, -⟩ := apply_of_canonical h
  exact hr ▸ Discourse.label_of_apply hs hd

end Frame

theorem Tier.discourse_of_mem_chain {a x : Tier} (h : x ∈ a.chain) :
    x.discourse = a.discourse := by
  rcases mem_chain.1 h with rfl | ⟨n, -, -, rfl⟩ <;> rfl

/-- With a scope, the tier of every level is in it. -/
theorem LevelTable.label_of_mem {h : Hierarchy} {find : Tier} {cs : List Criterion} {f : Frame}
    {placed : List (Mention × Tier)} (hf : Frame.ofQuery h find cs = .ok f)
    (hp : ∀ x ∈ placed, f.canonical x.1.tier = .ok x.2) {d : String} (hd : f.scope = some d)
    {a : Tier} (ha : a ∈ tiersOf f placed) : a.discourse = some d := by
  rcases mem_tiersOf.1 ha with ha | ⟨x, hx, ha⟩
  · rw [Tier.discourse_of_mem_chain ha, Discourse.apply_eq_ok (Frame.scope_of_ofQuery hf).2, hd]
    rfl
  · rw [Tier.discourse_of_mem_chain ha, Frame.discourse_canonical (hp x hx), hd]
    rfl

/-! Criteria that fix a discourse -/

namespace Criterion

/-- The value that a criterion fixes the discourse of its level to: by an equality, or by membership in
a list of one. -/
def fixedDiscourse? : Criterion → Option Value
  | comparison path .eq (.value v) => if path.property = .discourse then some v else none
  | comparison path .isIn (.value (.array [v])) =>
    if path.property = .discourse then some v else none
  | _ => none

theorem fixedDiscourse?_eq_text_iff {c : Criterion} {d : String} :
    c.fixedDiscourse? = some (.text d) ↔ c.discourseLiteral? = some d := by
  refine ⟨fun h => ?_, fun h => ?_⟩
  · unfold fixedDiscourse? at h
    split at h
    · split at h
      · next hp =>
        cases h
        simp [discourseLiteral?, hp]
      · cases h
    · split at h
      · next hp =>
        cases h
        simp [discourseLiteral?, hp, Value.text?]
      · cases h
    · cases h
  · obtain ⟨path, hp, rfl | rfl⟩ := discourseLiteral?_eq_some h <;> simp [fixedDiscourse?, hp]

theorem pin?_eq_none_of_discourse {c : Criterion} {d : String} (h : c.discourseLiteral? = some d) :
    c.pin? = none := by
  obtain ⟨path, hp, rfl | rfl⟩ := discourseLiteral?_eq_some h
  · simp [pin?, hp, Property.isId, Property.discourse, Property.id]
  · rfl

end Criterion

/-- The criteria that stand on the node of a tier. -/
def Query.criteriaOn (q : Query) (f : Frame) (a : Tier) : List Criterion :=
  q.criteria.filter (·.site f = .node a)

/-- The condition fixes the discourse of the variable to `d`. -/
inductive Predicate.FixesDiscourse (var d : String) : Predicate Value → Prop
  | eq : FixesDiscourse var d ⟨.property var .discourse, .eq, .param (.text d)⟩
  | isIn : FixesDiscourse var d ⟨.property var .discourse, .isIn, .param (.array [.text d])⟩

/-- What the node of a level has besides the criteria `cs` on it: one condition for the discourse of the
level, unless a criterion fixes that. Speakers belong to no discourse. -/
def Level.discourseConditions (l : Level) (cs : List Criterion) : List (Predicate Value) :=
  match l.tier.discourse with
  | none => []
  | some d =>
    if l.tier.isSpeaker = true ∨ ∃ c ∈ cs, c.fixedDiscourse? = some (.text d) then []
    else [⟨.property l.var .discourse, .eq, .param (.text d)⟩]

/-- The node of the level `l`, on which the criteria `cs` stand, is in the discourse of the level. -/
structure Plan.NodeScoped (p : Plan) (l : LevelId × Level) (cs : List Criterion)
    (n : NodePattern Value) : Prop where
  level : n.level = l.1
  var : n.var = l.2.var
  inline : ∃ own, p.Carries cs n.identity? own ∧ n.inline = own ++ l.2.discourseConditions cs
  fixed : ∀ d, l.2.tier.discourse = some d → l.2.tier.isSpeaker = false →
    ∃ x ∈ n.inline, x.FixesDiscourse l.2.var d

theorem Plan.addedDiscourse_eq {l : Level} {cs : List Criterion}
    (h : ∀ c ∈ cs, ∀ d e, l.tier.discourse = some d → c.discourseLiteral? = some e → e = d) :
    addedDiscourse l cs = l.discourseConditions cs := by
  unfold addedDiscourse Level.discourseConditions
  cases hd : l.tier.discourse with
  | none => rfl
  | some d =>
    have hany : cs.any (·.discourseLiteral?.isSome) = true ↔
        ∃ c ∈ cs, c.fixedDiscourse? = some (.text d) := by
      rw [List.any_eq_true]
      refine exists_congr fun c => and_congr_right fun hc => ?_
      rw [Criterion.fixedDiscourse?_eq_text_iff, Option.isSome_iff_exists]
      refine ⟨?_, fun he => ⟨d, he⟩⟩
      rintro ⟨e, he⟩
      rw [he, h c hc d e hd he]
    simp only [Bool.or_eq_true, hany, or_comm]

/-- A criterion that is no pin is one of the conditions. -/
theorem Plan.Carries.exists_says {p : Plan} {cs : List Criterion} {id? : Option Value}
    {own : List (Predicate Value)} (h : p.Carries cs id? own) {c : Criterion} (hc : c ∈ cs)
    (hpin : c.pin? = none) : ∃ x ∈ own, p.Says c (.compare x) := by
  cases h with
  | unpinned _ hs => exact forall₂_mem_left hs hc
  | @pinned before after d v _ _ hd hs =>
    refine forall₂_mem_left hs ?_
    have hne : c ≠ d := by
      rintro rfl
      rw [hpin] at hd
      cases hd
    simpa [hne] using hc

namespace Analysis

variable {q : Query} {i : Intent} {p : Plan} {placed : List (Mention × Tier)}

/-- Where the tier of a level comes from. -/
theorem source_of_level (h : Analysis q i p placed) {l : Level} (hl : l ∈ p.table.levels) :
    l.tier ∈ p.frame.root.chain ∨
      ∃ m ∈ (q.references i).mentions, ∃ t, p.frame.canonical m.tier = .ok t ∧ l.tier ∈ t.chain := by
  have ht : l.tier ∈ LevelTable.tiersOf p.frame placed := by
    rw [← LevelTable.map_tier_levelsOf, ← h.levels_eq]
    exact List.mem_map_of_mem hl
  rcases LevelTable.mem_tiersOf.1 ht with ht | ⟨x, hx, ht⟩
  · exact Or.inl ht
  · exact Or.inr ⟨x.1, h.mentions ▸ List.mem_map_of_mem hx, x.2, h.canonical x hx, ht⟩

theorem level_in_scope (h : Analysis q i p placed) {d : String} (hd : p.frame.scope = some d)
    {l : Level} (hl : l ∈ p.table.levels) : l.tier.discourse = some d := by
  refine LevelTable.label_of_mem h.frame h.canonical hd ?_
  rw [← LevelTable.map_tier_levelsOf, ← h.levels_eq]
  exact List.mem_map_of_mem hl

/-- Without a scope, only a label of its own puts a mention into a discourse. -/
theorem mention_of_label (h : Analysis q i p placed) (hd : p.frame.scope = none) {l : Level}
    (hl : l ∈ p.table.levels) {e : String} (he : l.tier.discourse = some e) :
    ∃ m ∈ (q.references i).mentions, m.tier.discourse = some e ∧
      ∃ t, p.frame.canonical m.tier = .ok t ∧ l.tier ∈ t.chain := by
  obtain ⟨hcollect, happly⟩ := Frame.scope_of_ofQuery h.frame
  rcases h.source_of_level hl with ht | ⟨m, hm, t, hc, ht⟩
  · -- a label of the searched-for type would have been the scope
    have hfind : q.find.discourse = some e := by
      rw [Tier.discourse_of_mem_chain ht, Discourse.apply_eq_ok happly, hd] at he
      exact he
    rw [(Discourse.foldlM_agree_eq_ok hcollect).1 e hfind] at hd
    cases hd
  · refine ⟨m, hm, ?_, t, hc, ht⟩
    rwa [Tier.discourse_of_mem_chain ht, Frame.discourse_canonical hc, hd, Option.none_or] at he

/-- A criterion that fixes a discourse stands on the node of a required level. -/
theorem level_of_discourse (h : Analysis q i p placed) {c : Criterion} (hc : c ∈ q.criteria)
    {e : String} (he : c.discourseLiteral? = some e) :
    ∃ l ∈ p.table.required, c ∈ q.criteriaOn p.frame l.2.tier := by
  obtain ⟨path, hp, hcases⟩ := Criterion.discourseLiteral?_eq_some he
  obtain ⟨op, v, rfl⟩ : ∃ op v, c = .comparison path op (.value v) := by
    rcases hcases with rfl | rfl
    · exact ⟨_, _, rfl⟩
    · exact ⟨_, _, rfl⟩
  obtain ⟨n, l, hl, hreq⟩ := h.resolves_bound hc (a := path.tier) (by
    simp [Criterion.boundTiers, Criterion.tiers])
  refine ⟨(n, l), LevelTable.mem_required.2 ⟨hl.level, hreq⟩, List.mem_filter.2 ⟨hc, ?_⟩⟩
  have harbitrary : Property.discourse.isArbitrary = false := rfl
  simp [Criterion.site, Criterion.soleTier?, hl.canonical, Except.toOption, hp, harbitrary]

theorem criteriaOn_optional (h : Analysis q i p placed) {l : LevelId × Level}
    (hl : l ∈ p.table.optional) : q.criteriaOn p.frame l.2.tier = [] := by
  refine List.filter_eq_nil_iff.2 fun c hc hsite => ?_
  obtain ⟨k, hk, ht⟩ := List.mem_map.1 (h.located hc (of_decide_eq_true hsite))
  obtain ⟨hk, hreq⟩ := LevelTable.mem_required.1 hk
  obtain ⟨hl, hopt⟩ := LevelTable.mem_optional.1 hl
  rw [(h.level_unique hk hl ht).2, hopt] at hreq
  cases hreq

theorem node_scoped (h : Analysis q i p placed) {l : LevelId × Level} (hl : l.2 ∈ p.table.levels)
    {n : NodePattern Value} (hn : p.NodeSays l (q.criteriaOn p.frame l.2.tier) n) :
    p.NodeScoped l (q.criteriaOn p.frame l.2.tier) n := by
  obtain ⟨own, hown, hinline⟩ := hn.inline
  rw [Plan.addedDiscourse_eq hn.discourse] at hinline
  refine ⟨hn.level, hn.var, ⟨own, hown, hinline⟩, fun d hd hs => ?_⟩
  by_cases hfix : ∃ c ∈ q.criteriaOn p.frame l.2.tier, c.fixedDiscourse? = some (.text d)
  · obtain ⟨c, hc, hcd⟩ := hfix
    rw [Criterion.fixedDiscourse?_eq_text_iff] at hcd
    obtain ⟨x, hx, hsays⟩ := hown.exists_says hc (Criterion.pin?_eq_none_of_discourse hcd)
    refine ⟨x, hinline ▸ List.mem_append_left _ hx, ?_⟩
    obtain ⟨path', op', operand', hc', hcanonical⟩ :=
      Criterion.site_eq_node (of_decide_eq_true (List.mem_filter.1 hc).2)
    -- the variable of the criterion is that of the level
    have hvar {v : String} (hv : p.Denotes path'.tier v) : v = l.2.var := by
      obtain ⟨k, hk, -, hkc, rfl⟩ := hv
      have ht : k.tier = l.2.tier := Except.ok.inj (hkc.symm.trans hcanonical)
      rw [h.level_of_tier hk hl ht]
    obtain ⟨path, hp, rfl | rfl⟩ := Criterion.discourseLiteral?_eq_some hcd
    · cases hc'
      cases hsays with
      | value hv => exact hvar hv ▸ hp ▸ .eq
    · cases hc'
      cases hsays with
      | value hv => exact hvar hv ▸ hp ▸ .isIn
  · refine ⟨_, hinline ▸ List.mem_append_right _ ?_, .eq⟩
    simp [Level.discourseConditions, hd, hs, hfix]

end Analysis

/-- With a scope, all levels are in it, and no criterion fixes one of them to another discourse; without
a scope, only what is labelled is in a discourse. Either way every node is in the discourse of its
level, by a criterion on it or by one condition of its own. -/
theorem scope_reaches_every_node_once {q : Query} {i : Intent} {s : Statement}
    (hs : q.compile i = .ok s) :
    ∃ p b, q.plan i = .ok p ∧ s.resolved = some b ∧
      Discourse.collect q.find q.criteria = .ok p.frame.scope ∧
      List.Forall₂ (fun l n => p.NodeScoped l (q.criteriaOn p.frame l.2.tier) n)
        p.table.required b.nodes ∧
      (∀ o ∈ b.optional, ∃ l ∈ p.table.optional,
        p.NodeScoped l (q.criteriaOn p.frame l.2.tier) o.node) ∧
      (∀ d, p.frame.scope = some d →
        (∀ l ∈ p.table.levels, l.tier.discourse = some d) ∧
        ∀ c ∈ q.criteria, ∀ e, c.fixedDiscourse? = some (.text e) → e = d) ∧
      (p.frame.scope = none → ∀ l ∈ p.table.levels, ∀ e, l.tier.discourse = some e →
        ∃ m ∈ (q.references i).mentions, m.tier.discourse = some e ∧
          ∃ t, p.frame.canonical m.tier = .ok t ∧ l.tier ∈ t.chain) := by
  obtain ⟨-, p, b, hp, hb, rfl⟩ := Query.compile_eq_ok_iff.1 hs
  obtain ⟨placed, h⟩ := Query.plan_eq_ok_iff.1 hp
  have he := h.expresses hb
  have hrequired : ∀ l ∈ p.table.required, l.2 ∈ p.table.levels := fun l hl =>
    List.mem_of_getElem? (LevelTable.mem_required.1 hl).1
  refine ⟨p, b.values, hp, Statement.resolved_ofBody b, (Frame.scope_of_ofQuery h.frame).1, ?_,
    fun o ho => ?_, fun d hd => ⟨fun l hl => h.level_in_scope hd hl, fun c hc e hce => ?_⟩,
    fun hd l hl e hle => h.mention_of_label hd hl hle⟩
  · have hnodes := (List.forall₂_and_left (p := (· ∈ p.table.required)) _ _).2
      ⟨fun l hl => hl, he.nodes⟩
    exact hnodes.imp fun l n hln => h.node_scoped (hrequired l hln.1) hln.2
  · obtain ⟨l, hl, hn⟩ := he.optional o ho
    have hlevel := List.mem_of_getElem? (LevelTable.mem_optional.1 hl).1
    exact ⟨l, hl, h.node_scoped hlevel (h.criteriaOn_optional hl ▸ hn)⟩
  · rw [Criterion.fixedDiscourse?_eq_text_iff] at hce
    obtain ⟨l, hl, hon⟩ := h.level_of_discourse hc hce
    obtain ⟨n, -, hn⟩ := forall₂_mem_left he.nodes hl
    exact hn.discourse c hon d e (h.level_in_scope hd (hrequired l hl)) hce

/-- The phones before a pause are those of one discourse, and so are their words. -/
theorem phonesBeforePause_stays_in_its_discourse :
    ∃ s p, Query.phonesBeforePause.compile .rows = .ok s ∧
      Query.phonesBeforePause.plan .rows = .ok p ∧ p.frame.scope = some "d1" ∧
      ∀ l ∈ p.table.levels, l.tier.discourse = some "d1" := by
  obtain ⟨s, hs⟩ := exists_ok_of_isOk (x := Query.phonesBeforePause.compile .rows) (by decide +kernel)
  obtain ⟨p, b, hp, -, hcollect, -, -, hscope, -⟩ := scope_reaches_every_node_once hs
  have hd : Discourse.collect Query.phonesBeforePause.find Query.phonesBeforePause.criteria
      = .ok (some "d1") := by decide +kernel
  have hd : p.frame.scope = some "d1" := Except.ok.inj (hcollect.symm.trans hd)
  exact ⟨s, p, hs, hp, hd, (hscope "d1" hd).1⟩

/-- Phones of a discourse, and of a number in its place. -/
def Query.phonesOfFive : Query :=
  let discourse := (Tier.ofLevel "phone").attribute .discourse
  ((Query.ofFind (.ofList ["phone", "word"]) (Tier.ofLevel "phone")).filter
    (discourse.compare .eq (.text "d1"))).filter
    (discourse.compare .eq (.number (.whole 5)))

/-- A value that is no text is no discourse: the criterion is a condition like any other. -/
theorem phonesOfFive_has_two_discourses :
    ∃ s c, Query.phonesOfFive.compile .rows = .ok s ∧
      Discourse.collect Query.phonesOfFive.find Query.phonesOfFive.criteria = .ok (some "d1") ∧
      c ∈ Query.phonesOfFive.criteria ∧ c.fixedDiscourse? = some (.number (.whole 5)) ∧
      s.resolved.map (·.nodes.map (·.inline)) = some
        [[⟨.property "node_phone" .discourse, .eq, .param (.text "d1")⟩,
          ⟨.property "node_phone" .discourse, .eq, .param (.number (.whole 5))⟩]] := by
  obtain ⟨s, hs, hnodes⟩ := exists_ok_of_toOption_map
    (x := Query.phonesOfFive.compile .rows) (g := fun s => s.resolved.map (·.nodes.map (·.inline)))
    (b := some [[⟨.property "node_phone" .discourse, .eq, .param (.text "d1")⟩,
      ⟨.property "node_phone" .discourse, .eq, .param (.number (.whole 5))⟩]]) (by decide +kernel)
  exact ⟨s, ((Tier.ofLevel "phone").attribute .discourse).compare .eq (.number (.whole 5)), hs,
    by decide +kernel, by decide +kernel, by decide, hnodes⟩

/-! Labels -/

namespace Criterion

/-- A criterion mentions the tiers that it binds and the tiers of the paths that it reads. -/
theorem mem_tiers {c : Criterion} {a : Tier} :
    a ∈ c.tiers ↔ a ∈ c.boundTiers ∨ ∃ p ∈ c.paths, p.tier = a := by
  cases c with
  | comparison path op operand =>
    refine ⟨Or.inl, fun h => h.elim id ?_⟩
    rintro ⟨p, hp, rfl⟩
    cases operand with
    | value v =>
      obtain rfl := List.mem_singleton.1 hp
      exact List.mem_singleton_self _
    | path other =>
      have hmap : p.tier ∈ [path, other].map (·.tier) := List.mem_map_of_mem hp
      exact mem_distinct.2 hmap
  | contains container path v => simp [tiers, boundTiers, paths, mem_distinct, eq_comm]
  | alignment kind a b => simp [tiers, boundTiers, paths]

/-- The criterion with another label on its contained token, unless that is of the level searched
for. -/
def relabelContained (root : Tier) (label : Option String) : Criterion → Criterion
  | contains container path v =>
    .contains container (path.withTier (path.tier.withDiscourse
      (if Discourse.onRoot root path.tier then path.tier.discourse else label))) v
  | c => c

theorem like_relabelContained (root : Tier) (label : Option String) (c : Criterion) :
    c.Like root Eq (c.relabelContained root label) := by
  cases c with
  | comparison path op operand =>
    cases operand with
    | value v => exact .value op (fun _ => rfl) rfl
    | path other => exact .path path op other
  | contains container path v => exact .contains container (fun h => if_pos h) rfl
  | alignment kind a b => exact .alignment kind a b

end Criterion

theorem Bindings.like_refl (b : Bindings) : b.Like Eq b :=
  List.forall₂_same.2 fun _ _ => ⟨rfl, rfl⟩

theorem Bindings.eq_of_like {b c : Bindings} (h : b.Like Eq c) : b = c := by
  have hentries : List.Forall₂ Eq b.entries c.entries := h.imp fun e d hed => Prod.ext hed.1 hed.2
  rw [List.forall₂_eq_eq_eq] at hentries
  cases b
  cases c
  cases hentries
  rfl

def Query.relabelContained (q : Query) (label : Option String) : Query :=
  { q with criteria := q.criteria.map (Criterion.relabelContained q.find label) }

theorem Query.compile_relabelContained (q : Query) (label : Option String) (i : Intent) :
    (q.relabelContained label).compile i = q.compile i := by
  have hlike : q.Like Eq (q.relabelContained label) :=
    ⟨rfl, rfl, rfl, List.forall₂_map_right_iff.2 (List.forall₂_same.2 fun c _ =>
      c.like_relabelContained q.find label), rfl, rfl, rfl, rfl, Bindings.like_refl _,
      Bindings.like_refl _, rfl⟩
  rcases (hlike.compile (fun _ => rfl) i).outcomes with ⟨e, he, he'⟩ | ⟨s, s', hs, hs', hbody, hparams⟩
  · rw [he, he']
  · rw [hs, hs']
    cases s
    cases s'
    cases hbody
    cases Bindings.eq_of_like hparams
    rfl

/-- With a scope, a tier that is matched, or that is of the level searched for, has the label of the
scope or none. A contained token may have any label, and the statement is the same with any other. -/
theorem labels_agree_where_tiers_are_matched {q : Query} {i : Intent} {s : Statement} {d : String}
    (hs : q.compile i = .ok s) (hd : Discourse.collect q.find q.criteria = .ok (some d)) :
    (∀ c ∈ q.criteria, ∀ a ∈ c.tiers,
      a ∈ c.boundTiers ∨ Discourse.onRoot q.find a = true →
        a.discourse = none ∨ a.discourse = some d) ∧
      ∀ label, (q.relabelContained label).compile i = .ok s := by
  obtain ⟨-, p, b, hp, -, -⟩ := Query.compile_eq_ok_iff.1 hs
  obtain ⟨placed, h⟩ := Query.plan_eq_ok_iff.1 hp
  have hscope : p.frame.scope = some d :=
    Except.ok.inj ((Frame.scope_of_ofQuery h.frame).1.symm.trans hd)
  refine ⟨fun c hc a ha hwhere => ?_, fun label => (q.compile_relabelContained label i).trans hs⟩
  rcases hwhere with hbound | hroot
  · obtain ⟨n, l, hl, -⟩ := h.resolves_bound hc hbound
    exact Frame.label_of_canonical hl.canonical hscope
  · cases he : a.discourse with
    | none => exact Or.inl rfl
    | some e =>
      have hlabel : e ∈ q.criteria.flatMap (Discourse.labels q.find) := by
        refine List.mem_flatMap.2 ⟨c, hc, List.mem_append_left _ ?_⟩
        exact List.mem_filterMap.2 ⟨a, List.mem_filter.2 ⟨ha, hroot⟩, he⟩
      exact Or.inr ((Discourse.foldlM_agree_eq_ok hd).2 e hlabel).symm

/-- Words of one discourse with a phone of another. -/
def Query.wordsWithForeignPhone : Query :=
  let word := Tier.ofLevel "word"
  let phone := (Tier.ofLevel "phone").withDiscourse (some "d2")
  ((Query.ofFind (.ofList ["phone", "word"]) word).filter
    ((word.attribute .discourse).compare .eq (.text "d1"))).filterContains
    (phone.attribute .label) (.text "AA")

theorem wordsWithForeignPhone_need_no_label :
    ∃ s, Query.wordsWithForeignPhone.compile .rows = .ok s ∧
      (Query.wordsWithForeignPhone.relabelContained none).compile .rows = .ok s ∧
      ∀ c ∈ Query.wordsWithForeignPhone.criteria, ∀ a ∈ c.tiers, a ∈ c.boundTiers →
        a.discourse = none ∨ a.discourse = some "d1" := by
  obtain ⟨s, hs⟩ :=
    exists_ok_of_isOk (x := Query.wordsWithForeignPhone.compile .rows) (by decide +kernel)
  obtain ⟨hlabels, hrelabel⟩ :=
    labels_agree_where_tiers_are_matched hs (d := "d1") (by decide +kernel)
  exact ⟨s, hs, hrelabel none, fun c hc a ha hb => hlabels c hc a ha (Or.inl hb)⟩

/-- The label `d2` is not the scope, and there is a statement all the same. -/
theorem wordsWithForeignPhone_keeps_a_foreign_label :
    ∃ s c a, Query.wordsWithForeignPhone.compile .rows = .ok s ∧
      Discourse.collect Query.wordsWithForeignPhone.find Query.wordsWithForeignPhone.criteria
        = .ok (some "d1") ∧
      c ∈ Query.wordsWithForeignPhone.criteria ∧ a ∈ c.tiers ∧ a.discourse = some "d2" := by
  obtain ⟨s, hs⟩ :=
    exists_ok_of_isOk (x := Query.wordsWithForeignPhone.compile .rows) (by decide +kernel)
  exact ⟨s, .contains (Tier.ofLevel "word")
    (((Tier.ofLevel "phone").withDiscourse (some "d2")).attribute .label) (.text "AA"),
    (Tier.ofLevel "phone").withDiscourse (some "d2"), hs, by decide +kernel, by decide +kernel,
    by decide, rfl⟩

end TierQuery
