import TierQuery.Proofs.CommonDiscourse
import TierQuery.Proofs.Renaming
import TierQuery.Proofs.Success

/-! The order of the criteria. It decides how the variables are numbered and which `id` becomes the pin
of a node, and nothing else: of two orders either both compile, to the same statement under other
names, or neither does. -/

namespace TierQuery

open Json (Value)

/-- The queries differ in the order of their criteria only. -/
structure Query.Reordered (q q' : Query) : Prop where
  criteria : q.criteria.Perm q'.criteria
  rest : q' = { q with criteria := q'.criteria }

/-! Tiers do not depend on the order -/

theorem Frame.Spanned.mono {f : Frame} {as bs : List Tier} (h : as ⊆ bs) {t : Tier}
    (ht : f.Spanned as t) : f.Spanned bs t := by
  induction ht with
  | root => exact .root
  | mentioned ha hc => exact .mentioned (h ha) hc
  | back _ hp hh ih => exact .back ih hp hh

theorem Frame.Reached.mono {f : Frame} {cs ds : List Criterion} (h : cs ⊆ ds) {t : Tier}
    (ht : f.Reached cs t) : f.Reached ds t := by
  induction ht with
  | root => exact .root
  | bound hc ha hcanonical => exact .bound (h hc) ha hcanonical
  | back _ hp hh ih => exact .back ih hp hh

namespace Query.Reordered

variable {q q' : Query} {i : Intent}

theorem symm (h : q.Reordered q') : q'.Reordered q where
  criteria := h.criteria.symm
  rest := by rw [h.rest]

theorem find (h : q.Reordered q') : q'.find = q.find := by rw [h.rest]

theorem mentioned (h : q.Reordered q') : (q.mentioned i).Perm (q'.mentioned i) := by
  have hq := q.mentioned_criteria i q.criteria
  rw [h.rest, q.mentioned_criteria i q'.criteria, hq]
  exact (h.criteria.flatMap_right Criterion.boundTiers).append_right _

theorem frame (h : q.Reordered q') {f : Frame}
    (hf : Frame.ofQuery q.hierarchy q.find q.criteria = .ok f) :
    Frame.ofQuery q'.hierarchy q'.find q'.criteria = .ok f := by
  obtain ⟨scope, hscope, hf⟩ := bind_eq_ok_iff.1 hf
  rw [h.rest]
  exact bind_eq_ok_iff.2 ⟨scope, Discourse.collect_perm h.criteria hscope, hf⟩

/-- What makes a query compile is said of its criteria one by one. -/
theorem compiles (h : q.Reordered q') (hs : ∃ s, q.compile i = .ok s) :
    ∃ s', q'.compile i = .ok s' := by
  obtain ⟨hv, f, hf, hcanonical, hcriteria⟩ := compiles_iff.1 hs
  exact compiles_iff.2 ⟨(validate_congr h.rest i).trans hv, f, h.frame hf,
    fun a ha => hcanonical a (h.mentioned.mem_iff.2 ha),
    fun c hc => hcriteria c (h.criteria.mem_iff.2 hc)⟩

end Query.Reordered

/-! The new names -/

/-- The name for a variable of the level `l`, in a plan where its tier has the level `l'`. -/
def Level.renamed (l l' : Level) (v : String) : String := if v = l.var then l'.var else l'.typeVar

theorem Level.renamed_eq (l l' : Level) (v : String) :
    l.renamed l' v = l'.var ∨ l.renamed l' v = l'.typeVar := by
  unfold renamed
  split
  · exact Or.inl rfl
  · exact Or.inr rfl

theorem Level.renamed_inj {l l' : Level} (hne : l'.var ≠ l'.typeVar) {v w : String}
    (hv : v = l.var ∨ v = l.typeVar) (hw : w = l.var ∨ w = l.typeVar)
    (h : l.renamed l' v = l.renamed l' w) : v = w := by
  unfold renamed at h
  split at h
  · split at h
    · next hv hw => rw [hv, hw]
    · exact absurd h hne
  · split at h
    · exact absurd h.symm hne
    · next hv' hw' => rw [hv.resolve_left hv', hw.resolve_left hw']

/-- The names that the second plan has for the variables of the first. -/
def Plan.renaming (p p' : Plan) (v : String) : String :=
  match p.table.levels.find? fun l => v = l.var ∨ v = l.typeVar with
  | none => v
  | some l =>
    match p'.table.levels.find? (·.tier = l.tier) with
    | none => v
    | some l' => l.renamed l' v

theorem find?_eq_some_of_unique {α : Type} {P : α → Bool} {xs : List α} {x : α} (hx : x ∈ xs)
    (hP : P x = true) (h : ∀ y ∈ xs, P y = true → y = x) : xs.find? P = some x := by
  obtain ⟨y, hy⟩ := Option.isSome_iff_exists.1 (List.find?_isSome.2 ⟨x, hx, hP⟩)
  rw [hy, h y (List.mem_of_find?_eq_some hy) (List.find?_some hy)]

namespace Analysis

variable {q q' : Query} {i i' : Intent} {p p' : Plan} {placed placed' : List (Mention × Tier)}

/-- A variable belongs to one level, as the variable of its token or as that of its type. -/
theorem level_of_use (h : Analysis q i p placed) {l k : Level} (hl : l ∈ p.table.levels)
    (hk : k ∈ p.table.levels) {v : String} (hv : v = l.var ∨ v = l.typeVar)
    (hv' : v = k.var ∨ v = k.typeVar) : l = k := by
  rcases hv with rfl | rfl
  · rcases hv' with hvar | he
    · exact h.level_of_var hl hk hvar
    · exact absurd he (h.var_ne_typeVar hl hk)
  · rcases hv' with he | htypeVar
    · exact absurd he.symm (h.var_ne_typeVar hk hl)
    · refine h.level_of_var hl hk ?_
      exact LevelTable.var_eq_of_typeVar_eq (h.levels_eq ▸ hl) (h.levels_eq ▸ hk) htypeVar

theorem renaming_eq (h : Analysis q i p placed) (h' : Analysis q' i' p' placed') {l l' : Level}
    (hl : l ∈ p.table.levels) (hl' : l' ∈ p'.table.levels) (ht : l'.tier = l.tier) {v : String}
    (hv : v = l.var ∨ v = l.typeVar) : p.renaming p' v = l.renamed l' v := by
  have hfind : (p.table.levels.find? fun l => v = l.var ∨ v = l.typeVar) = some l := by
    refine find?_eq_some_of_unique hl (by simpa using hv) fun k hk hkv => ?_
    exact h.level_of_use hk hl (of_decide_eq_true hkv) hv
  have hfind' : p'.table.levels.find? (·.tier = l.tier) = some l' :=
    find?_eq_some_of_unique hl' (by simpa using ht) fun k hk hkt =>
      h'.level_of_tier hk hl' ((of_decide_eq_true hkt).trans ht.symm)
  rw [Plan.renaming, hfind]
  simp only [hfind']

theorem renaming_var (h : Analysis q i p placed) (h' : Analysis q' i' p' placed') {l l' : Level}
    (hl : l ∈ p.table.levels) (hl' : l' ∈ p'.table.levels) (ht : l'.tier = l.tier) :
    p.renaming p' l.var = l'.var ∧ p.renaming p' l.typeVar = l'.typeVar := by
  rw [h.renaming_eq h' hl hl' ht (Or.inl rfl), h.renaming_eq h' hl hl' ht (Or.inr rfl),
    Level.renamed, Level.renamed, if_pos rfl, if_neg (h.var_ne_typeVar hl hl).symm]
  exact ⟨rfl, rfl⟩

/-- Different variables keep different names. -/
theorem renaming_injOn (h : Analysis q i p placed) (h' : Analysis q' i' p' placed')
    (htiers : (p.table.levels.map (·.tier)).Perm (p'.table.levels.map (·.tier))) :
    Set.InjOn (p.renaming p') {v | p.Uses v} := by
  have hlevel (l : Level) (hl : l ∈ p.table.levels) : ∃ l' ∈ p'.table.levels, l'.tier = l.tier :=
    List.mem_map.1 (htiers.subset (List.mem_map_of_mem hl))
  rintro v ⟨l, hl, hv⟩ w ⟨k, hk, hw⟩ e
  obtain ⟨l', hl', ht⟩ := hlevel l hl
  obtain ⟨k', hk', hkt⟩ := hlevel k hk
  rw [h.renaming_eq h' hl hl' ht hv, h.renaming_eq h' hk hk' hkt hw] at e
  -- one name belongs to one level, and there to one of its two variables
  obtain rfl : l' = k' := h'.level_of_use hl' hk' (l.renamed_eq l' v) (e ▸ k.renamed_eq k' w)
  obtain rfl : l = k := h.level_of_tier hl hk (ht.symm.trans hkt)
  exact Level.renamed_inj (h'.var_ne_typeVar hl' hl') hv hw e

theorem mem_tiers_iff (h : Analysis q i p placed) (hr : p.frame.root.hops = []) {t : Tier} :
    t ∈ p.table.levels.map (·.tier) ↔ p.frame.Spanned (q.mentioned i) t := by
  rw [h.spanned_iff hr, h.levels_eq, LevelTable.map_tier_levelsOf]

theorem required_iff (h : Analysis q i p placed) (hr : p.frame.root.hops = []) {l : Level}
    (hl : l ∈ p.table.levels) : l.required = true ↔ p.frame.Reached q.criteria l.tier := by
  obtain ⟨n, hn⟩ := List.mem_iff_getElem?.1 (h.levels_eq ▸ hl)
  rw [h.reached_iff hr, LevelTable.required_iff hn]

/-- Plans for the criteria in two orders are the same up to names. -/
theorem sameUpTo (h : Analysis q i p placed) (h' : Analysis q' i p' placed') (hq : q.Reordered q')
    (hr : p.frame.root.hops = []) : p.SameUpTo (p.renaming p') p' := by
  have hframe : p'.frame = p.frame := Except.ok.inj (h'.frame.symm.trans (hq.frame h.frame))
  have hr' : p'.frame.root.hops = [] := hframe ▸ hr
  have htiers : (p.table.levels.map (·.tier)).Perm (p'.table.levels.map (·.tier)) := by
    refine (List.perm_ext_iff_of_nodup h.nodup_levels h'.nodup_levels).2 fun t => ?_
    rw [h.mem_tiers_iff hr, h'.mem_tiers_iff hr', hframe]
    exact ⟨.mono hq.mentioned.subset, .mono hq.mentioned.symm.subset⟩
  refine ⟨?_, hframe, htiers, fun l hl l' hl' ht => ⟨?_, ?_, ?_⟩, ?_⟩
  · rw [h'.corpus, h.corpus, hq.rest]
  · rw [Bool.eq_iff_iff, h.required_iff hr hl, h'.required_iff hr' hl', hframe, ht]
    exact ⟨.mono hq.criteria.symm.subset, .mono hq.criteria.subset⟩
  · exact (h.renaming_var h' hl hl' ht).1.symm
  · exact (h.renaming_var h' hl hl' ht).2.symm
  · exact h.renaming_injOn h' htiers

/-! Sections by tier -/

variable {b b' : Body Literal}

theorem nodes_by_tier (h : Analysis q i p placed) (hb : p.body q i = .ok b) :
    List.Forall₂ (fun t x => ∃ l ∈ p.table.required, l.2.tier = t ∧
        p.NodeSays l (q.criteria.filter (·.site p.frame = .node t)) x)
      p.table.requiredTiers b.values.nodes := by
  rw [LevelTable.requiredTiers, List.forall₂_map_left_iff]
  exact (forall₂_with_mem (h.expresses hb).nodes).imp fun l x hx => ⟨l, hx.1, rfl, hx.2⟩

theorem optional_by_tier (h : Analysis q i p placed) (hr : p.frame.root.hops = [])
    (hb : p.body q i = .ok b) :
    List.Forall₂ (fun t o => ∃ l ∈ p.table.optional, l.2.tier = t ∧
        p.NodeSays l [] o.node ∧ p.edgeTo p.varOf t = some o.edge)
      p.table.optionalTiers b.values.optional := by
  obtain ⟨-, ⟨os, hos, ho⟩, -⟩ := Plan.body_eq_ok_iff.1 hb
  rw [LevelTable.optionalTiers, Body.values_optional, ho, List.forall₂_map_left_iff,
    List.forall₂_map_right_iff]
  refine forall₂_filterMap_id ((forall₂_with_mem (mapM_eq_ok_iff.1 hos)).imp fun l o? hx => ?_)
  obtain ⟨hl, hx⟩ := hx
  have hlevel := (LevelTable.mem_optional.1 hl).1
  obtain ⟨e, he⟩ := h.exists_edge hlevel (h.hops_of_optional hl)
  obtain ⟨x, rfl, hs⟩ := optional_says hx
  refine ⟨⟨e, x⟩, by rw [he]; rfl, l, hl, rfl, hs, ?_⟩
  rw [← h.edge?_eq_edgeTo hr hlevel]
  exact he

end Analysis

/-- The criteria on a node are about its token. -/
theorem Plan.denotes_of_site {p : Plan} {cs : List Criterion} {l : LevelId × Level}
    (hl : l ∈ p.table.required) {t : Tier} (ht : l.2.tier = t) {path : AttributePath}
    {op : CompareOp} {operand : Operand}
    (hc : .comparison path op operand ∈ cs.filter (·.site p.frame = .node t)) :
    p.Denotes path.tier l.2.var := by
  obtain ⟨hlevel, hreq⟩ := LevelTable.mem_required.1 hl
  have hsite := of_decide_eq_true (List.mem_filter.1 hc).2
  obtain ⟨path', op', operand', he, hcanonical⟩ := Criterion.site_eq_node hsite
  cases he
  exact ⟨l.2, List.mem_of_getElem? hlevel, hreq, ht ▸ hcanonical, rfl⟩

namespace Plan.SameUpTo

variable {ρ : String → String} {q q' : Query} {i : Intent} {p p' : Plan}
  {placed placed' : List (Mention × Tier)} {b b' : Body Literal}

theorem requiredTiers (h : p.SameUpTo ρ p') (ha : Analysis q i p placed)
    (ha' : Analysis q' i p' placed') (hq : q.Reordered q') (hr : p.frame.root.hops = []) :
    p.table.requiredTiers.Perm p'.table.requiredTiers := by
  refine (List.perm_ext_iff_of_nodup ha.nodup_required ha'.nodup_required).2 fun t => ?_
  rw [← LevelTable.requiredTiers, ← LevelTable.requiredTiers, ha.requiredTiers_iff hr,
    ha'.requiredTiers_iff (h.frame ▸ hr), h.frame]
  exact ⟨.mono hq.criteria.subset, .mono hq.criteria.symm.subset⟩

theorem optionalTiers (h : p.SameUpTo ρ p')
    (hreq : p.table.requiredTiers.Perm p'.table.requiredTiers) :
    p.table.optionalTiers.Perm p'.table.optionalTiers := by
  have hall := (p.table.tiers_perm.trans h.tiers).trans p'.table.tiers_perm.symm
  exact (List.perm_append_left_iff _).1 (hall.trans (hreq.symm.append_right _))

/-- Tails hardly see the criteria: what is returned or written is the same under the new names. -/
theorem tail (h : p.SameUpTo ρ p') (ha : Analysis q i p placed) (ha' : Analysis q' i p' placed')
    (hq : q.Reordered q') (hr : p.frame.root.hops = []) {t t' : Tail Literal}
    (ht : p.tail q i = .ok t) (ht' : p'.tail q' i = .ok t') : t' = t.rename ρ := by
  cases i with
  | rows =>
    obtain ⟨items, hitems, hret⟩ := ha.returns_rows
    obtain ⟨items', hitems', hret'⟩ := ha'.returns_rows
    obtain rfl : .select items _ = t := Except.ok.inj (hitems.symm.trans ht)
    obtain rfl : .select items' _ = t' := Except.ok.inj (hitems'.symm.trans ht')
    have houtputs : q'.outputs = q.outputs := by
      rw [hq.rest]
      rfl
    have horder : Plan.orderItems q' q'.returned = Plan.orderItems q q.returned := by
      rw [hq.rest]
      rfl
    have hitems : items' = items.map (ReturnItem.rename ρ) :=
      map_eq_of_sources hret (houtputs ▸ hret') fun o _ x x' => h.returns
    rw [horder, hitems]
    rfl
  | count =>
    cases ht
    cases ht'
    rfl
  | mutation =>
    cases ht
    cases ht'
    obtain ⟨hroot, ht, -⟩ := ha.root_level hr
    obtain ⟨hroot', ht', -⟩ := ha'.root_level (h.frame ▸ hr)
    have hsame : p'.table.root.tier = p.table.root.tier := by rw [ht', ht, h.frame]
    have hlevel := h.level _ (List.mem_of_getElem? hroot) _ (List.mem_of_getElem? hroot') hsame
    rw [hq.rest]
    exact h.mutationTail ⟨hsame, hlevel.2⟩ q.mutation

/-- Bodies for the criteria in two orders are the same up to names. -/
theorem body (h : p.SameUpTo ρ p') (ha : Analysis q i p placed) (ha' : Analysis q' i p' placed')
    (hq : q.Reordered q') (hr : p.frame.root.hops = []) (hb : p.body q i = .ok b)
    (hb' : p'.body q' i = .ok b') : b.values.SameUpTo ρ b'.values := by
  have hr' : p'.frame.root.hops = [] := h.frame ▸ hr
  have hrequired := h.requiredTiers ha ha' hq hr
  have hoptional := h.optionalTiers hrequired
  have he := ha.expresses hb
  have he' := ha'.expresses hb'
  have hcriteria (s : Site) : (q.criteria.filter (·.site p.frame = s)).Perm
      (q'.criteria.filter (·.site p'.frame = s)) := by
    rw [h.frame]
    exact hq.criteria.filter _
  have hedge (t : Tier) (ht : t ∈ p.table.levels.map (·.tier)) :
      p'.edgeTo p'.varOf t = (p.edgeTo p.varOf t).map (Edge.rename ρ) :=
    h.edgeTo ha ha' ht ((ha.mem_tiers_iff hr).2 ((ha.mem_tiers_iff hr).1 ht).above)
  refine ⟨?_, ?_, ?_, ?_, ?_, ?_⟩
  · refine Rearranges.of_sources hrequired (ha.nodes_by_tier hb) (ha'.nodes_by_tier hb') ?_
    rintro t - x x' ⟨l, hl, ht, hx⟩ ⟨l', hl', ht', hx'⟩
    exact h.node hx hx' (LevelTable.level_of_mem_required hl) (LevelTable.level_of_mem_required hl')
      (ht'.trans ht.symm) (hcriteria _) (fun path op operand hc => denotes_of_site hl ht hc)
      (fun path op operand hc => denotes_of_site hl' ht' hc)
  · have hedges : b.edges.map (Edge.rename ρ)
        = p.table.requiredTiers.filterMap (p'.edgeTo p'.varOf) := by
      rw [ha.edges_eq hr hb, List.map_filterMap]
      refine List.filterMap_congr fun t ht => (hedge t ?_).symm
      exact p.table.tiers_perm.subset (List.mem_append_left _ ht)
    have hedges' := ha'.edges_eq hr' hb'
    exact hedges ▸ hedges' ▸ hrequired.filterMap _
  · exact (Rearranges.of_sources (hcriteria _) he.constraints he'.constraints
      fun c _ k k' => h.constraint_eq).map_perm
  · exact (Rearranges.of_sources (hcriteria _) he.filters he'.filters
      fun c _ x x' => h.predicate_eq).map_perm
  · refine Rearranges.of_sources hoptional (ha.optional_by_tier hr hb)
      (ha'.optional_by_tier hr' hb') ?_
    rintro t hmem o o' ⟨l, hl, ht, hx, ho⟩ ⟨l', hl', ht', hx', ho'⟩
    refine ⟨?_, ?_⟩
    · rw [hedge t (p.table.tiers_perm.subset (List.mem_append_right _ hmem)), ho] at ho'
      exact (Option.some.inj ho').symm
    · exact h.node hx hx' (LevelTable.level_of_mem_optional hl)
        (LevelTable.level_of_mem_optional hl') (ht'.trans ht.symm) (.refl []) (by simp) (by simp)
  · have ht := h.tail ha ha' hq hr (Plan.body_eq_ok_iff.1 hb).2.2 (Plan.body_eq_ok_iff.1 hb').2.2
    exact (congrArg Tail.values ht).trans (b.tail.values_rename ρ)

end Plan.SameUpTo

/-- Each criterion is placed the same. -/
theorem Analysis.placement_same {q q' : Query} {i : Intent} {p p' : Plan}
    {placed placed' : List (Mention × Tier)} (h : Analysis q i p placed)
    (h' : Analysis q' i p' placed') (hq : q.Reordered q') (hf : p'.frame = p.frame) :
    Rearranges (Placed.Same p p') p.placement p'.placement := by
  have hsource {q : Query} {p : Plan} {placed : List (Mention × Tier)} (h : Analysis q i p placed) :
      List.Forall₂ (fun c x => x ∈ p.placement ∧ x.criterion = c) q.criteria p.placement := by
    rw [← h.criteria_eq, List.forall₂_map_left_iff]
    exact List.forall₂_same.2 fun x hx => ⟨hx, rfl⟩
  refine Rearranges.of_sources hq.criteria (hsource h) (hsource h') ?_
  rintro c - x x' ⟨hx, rfl⟩ ⟨hx', hc⟩
  exact h.placed_same h' hf hx hx' hc

/-- The order of the criteria does not matter. With either order a query compiles or it does not; what
is collected, the tiers and the places of the criteria are the same; and so are the statements, up to
the names of variables and parameters and the order within their sections. What is collected of any
criteria is the one discourse that is named for the searched-for level. -/
theorem order_of_criteria_does_not_matter :
    (∀ (q q' : Query) (i : Intent), q.Reordered q' → q.find.hops = [] →
      ((∃ s, q.compile i = .ok s) ↔ ∃ s', q'.compile i = .ok s') ∧
      ∀ s s', q.compile i = .ok s → q'.compile i = .ok s' → ∃ p p' b b' ρ,
        q.plan i = .ok p ∧ q'.plan i = .ok p' ∧ s.resolved = some b ∧ s'.resolved = some b' ∧
        Discourse.collect q.find q.criteria = .ok p.frame.scope ∧
        Discourse.collect q'.find q'.criteria = .ok p.frame.scope ∧
        p.SameUpTo ρ p' ∧ Rearranges (Placed.Same p p') p.placement p'.placement ∧
        b.SameUpTo ρ b') ∧
    ∀ (find : Tier) (cs : List Criterion),
      ((∃ e, Discourse.collect find cs = .error e) ↔
        ∃ d d', Discourse.Named find cs d ∧ Discourse.Named find cs d' ∧ d ≠ d') ∧
      (∀ d, Discourse.collect find cs = .ok (some d) ↔
        Discourse.Named find cs d ∧ ∀ d', Discourse.Named find cs d' → d' = d) ∧
      (Discourse.collect find cs = .ok none ↔ ∀ d, ¬ Discourse.Named find cs d) := by
  refine ⟨fun q q' i hq hhops => ⟨⟨hq.compiles, hq.symm.compiles⟩, fun s s' hs hs' => ?_⟩,
    fun find cs => ⟨Discourse.collect_eq_error_iff, fun d => Discourse.collect_eq_some_iff,
      Discourse.collect_eq_none_iff⟩⟩
  obtain ⟨-, p, b, hp, hb, rfl⟩ := Query.compile_eq_ok_iff.1 hs
  obtain ⟨-, p', b', hp', hb', rfl⟩ := Query.compile_eq_ok_iff.1 hs'
  obtain ⟨placed, h⟩ := Query.plan_eq_ok_iff.1 hp
  obtain ⟨placed', h'⟩ := Query.plan_eq_ok_iff.1 hp'
  have hr := h.root_hops hhops
  have hsame := h.sameUpTo h' hq hr
  have hscope := (Frame.scope_of_ofQuery h.frame).1
  exact ⟨p, p', b.values, b'.values, p.renaming p', hp, hp', Statement.resolved_ofBody b,
    Statement.resolved_ofBody b', hscope, hq.find ▸ Discourse.collect_perm hq.criteria hscope, hsame,
    h.placement_same h' hq hsame.frame, hsame.body h h' hq hr hb hb'⟩

/-- Phones before a pause in a word that is to have two ids. -/
def Query.phonesOfTwoWords : Query :=
  Query.phonesBeforePause.filter (((Tier.ofLevel "word").attribute .id).compare .eq (.text "w2"))

/-- The same criteria from the last to the first. -/
def Query.phonesOfTwoWordsBackwards : Query :=
  { Query.phonesOfTwoWords with criteria := Query.phonesOfTwoWords.criteria.reverse }

/-- In either order the first `id` is the pin of the word and the second a condition on it. -/
theorem phonesOfTwoWords_in_both_orders :
    ∃ s s' b b' ρ, Query.phonesOfTwoWords.compile .rows = .ok s ∧
      Query.phonesOfTwoWordsBackwards.compile .rows = .ok s' ∧
      s.resolved = some b ∧ s'.resolved = some b' ∧ b.SameUpTo ρ b' ∧
      b.nodes.map (·.identity?) = [some (.text "w1"), none, none] ∧
      b'.nodes.map (·.identity?) = [some (.text "w2"), none, none] := by
  obtain ⟨s, hs, hpins⟩ := exists_ok_of_toOption_map (x := Query.phonesOfTwoWords.compile .rows)
    (g := fun s => s.resolved.map (·.nodes.map (·.identity?)))
    (b := some [some (.text "w1"), none, none]) (by decide +kernel)
  obtain ⟨s', hs', hpins'⟩ := exists_ok_of_toOption_map
    (x := Query.phonesOfTwoWordsBackwards.compile .rows)
    (g := fun s => s.resolved.map (·.nodes.map (·.identity?)))
    (b := some [some (.text "w2"), none, none]) (by decide +kernel)
  have hq : Query.phonesOfTwoWords.Reordered Query.phonesOfTwoWordsBackwards :=
    ⟨(List.reverse_perm _).symm, rfl⟩
  obtain ⟨p, p', b, b', ρ, -, -, hb, hb', -, -, -, -, hsame⟩ :=
    (order_of_criteria_does_not_matter.1 _ _ .rows hq rfl).2 s s' hs hs'
  rw [hb] at hpins
  rw [hb'] at hpins'
  exact ⟨s, s', b, b', ρ, hs, hs', hb, hb', hsame, Option.some.inj hpins, Option.some.inj hpins'⟩

end TierQuery
