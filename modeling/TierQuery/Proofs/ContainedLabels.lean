import TierQuery.Proofs.Meaning

/-! Labels of contained tiers. The match section never asks for the discourse that a contained tier is
labelled with, and apart from it means what the criteria mean. Where the label repeats the discourse of
the container, and a graph keeps what a token contains in its discourse, nothing is lost. -/

namespace TierQuery

open Json (Value)

variable {V : Type}

namespace Criterion

def withoutContainedLabel : Criterion → Criterion
  | contains container path v =>
    .contains container (path.withTier (path.tier.withDiscourse none)) v
  | c => c

/-- A contained tier is labelled with the discourse of its container, or not at all. -/
def RepeatsDiscourse (f : Frame) : Criterion → Prop
  | contains container path _ => ∀ d, path.tier.discourse = some d →
    ∃ c, f.canonical container = .ok c ∧ c.discourse = some d ∧ c.isSpeaker = false
  | _ => True

theorem withoutContainedLabel_eq_self {c : Criterion} (h : c.containedLabel? = none) :
    c.withoutContainedLabel = c := by
  cases c with
  | comparison path op operand => rfl
  | contains container path v =>
    obtain ⟨⟨origin, hops, discourse, types, tokens⟩, property, alias?⟩ := path
    obtain rfl : discourse = none := h
    rfl
  | alignment kind a b => rfl

theorem map_withoutContainedLabel {cs : List Criterion}
    (h : ∀ c ∈ cs, c.containedLabel? = none) : cs.map withoutContainedLabel = cs :=
  (List.map_congr_left fun c hc => withoutContainedLabel_eq_self (h c hc)).trans (List.map_id cs)

theorem containedLabel?_withoutContainedLabel (c : Criterion) :
    c.withoutContainedLabel.containedLabel? = none := by
  cases c <;> rfl

theorem filter_site_withoutContainedLabel (f : Frame) (s : Site) (cs : List Criterion) :
    (cs.map withoutContainedLabel).filter (·.site f = s)
      = (cs.filter (·.site f = s)).map withoutContainedLabel := by
  have hsite (c : Criterion) : c.withoutContainedLabel.site f = c.site f := by
    cases c <;> rfl
  simp only [List.filter_map, Function.comp_def, hsite]

end Criterion

/-- What says a criterion says it without the label of its contained tier as well. -/
theorem Plan.Says.withoutContainedLabel {p : Plan} {c : Criterion} {k : Constraint Value}
    (h : p.Says c k) : p.Says c.withoutContainedLabel k := by
  cases h with
  | value hv => exact .value hv
  | path hv hw => exact .path hv hw
  | alignment hv hw => exact .alignment hv hw
  | contains hv hc hprop hd => exact .contains hv hc hprop hd

theorem Plan.Expresses.withoutContainedLabels {p : Plan} {cs : List Criterion} {b : Body Value}
    (h : p.Expresses cs b) : p.Expresses (cs.map Criterion.withoutContainedLabel) b where
  constraints := by
    rw [Criterion.filter_site_withoutContainedLabel, List.forall₂_map_left_iff]
    exact h.constraints.imp fun _ _ hs => hs.withoutContainedLabel
  filters := by
    rw [Criterion.filter_site_withoutContainedLabel, List.forall₂_map_left_iff]
    exact h.filters.imp fun _ _ hs => hs.withoutContainedLabel
  nodes := by
    refine h.nodes.imp fun l n hs => ?_
    have hown : (cs.filter (·.site p.frame = .node l.2.tier)).map Criterion.withoutContainedLabel
        = cs.filter (·.site p.frame = .node l.2.tier) := by
      refine Criterion.map_withoutContainedLabel fun c hc => ?_
      exact Criterion.containedLabel?_of_site (of_decide_eq_true (List.mem_filter.1 hc).2)
    rwa [Criterion.filter_site_withoutContainedLabel, hown]
  tiers := h.tiers
  located := by
    intro c hc a ha
    have hmem : c ∈ (cs.map Criterion.withoutContainedLabel).filter (·.site p.frame = .node a) :=
      List.mem_filter.2 ⟨hc, decide_eq_true ha⟩
    rw [Criterion.filter_site_withoutContainedLabel] at hmem
    obtain ⟨d, hd, -⟩ := List.mem_map.1 hmem
    obtain ⟨hd, hda⟩ := List.mem_filter.1 hd
    exact h.located d hd a (of_decide_eq_true hda)
  optional := h.optional

/-! Graphs that keep discourses apart -/

/-- What a token contains is in its discourse. -/
def Graph.KeepsDiscourse (G : Graph V) (I : Interpretation V) : Prop :=
  ∀ x y v, G.containedBy x y → I.holds .eq (G.read I y .discourse) v →
    I.holds .eq (G.read I x .discourse) v

/-- The same at any depth. -/
theorem Graph.KeepsDiscourse.containedIn {G : Graph V} {I : Interpretation V}
    (hG : G.KeepsDiscourse I) {n : Nat} {x y : G.Node} {v : V} (h : G.ContainedIn n x y)
    (hy : I.holds .eq (G.read I y .discourse) v) : I.holds .eq (G.read I x .discourse) v := by
  induction n generalizing x with
  | zero => rwa [show x = y from h]
  | succ n ih =>
    obtain ⟨z, hz, hzy⟩ := h
    exact hG x z v hz (ih hzy)

section Criteria

variable {f : Frame} {cs : List Criterion} {corpus? : Option String} {G : Graph V}
  {I : Interpretation V} {τ : {t // f.Reached cs t} → G.Node}

/-- A label that repeats the discourse of the container asks for nothing new where contained tokens
are in the discourse of what contains them. -/
theorem Criterion.holds_withoutContainedLabel_iff (hG : G.KeepsDiscourse I)
    (htokens : ∀ t, G.IsToken I corpus? t.1 (τ t)) {c : Criterion} (hc : c.RepeatsDiscourse f) :
    c.withoutContainedLabel.Holds f cs corpus? G I τ ↔ c.Holds f cs corpus? G I τ := by
  cases c with
  | comparison path op operand => rfl
  | alignment kind a b => rfl
  | contains container path v =>
    constructor
    · intro h
      obtain ⟨x, c, n, y, hx, hcanonical, hd, hy, htoken, hv⟩ := h
      refine ⟨x, c, n, y, hx, hcanonical, hd, hy, ?_, hv⟩
      refine ⟨htoken.level, htoken.corpus, htoken.tokenSubsets, htoken.typeSubsets, ?_⟩
      intro d hlabel _
      obtain ⟨c', hc', hdisc, hspeaker⟩ := hc d hlabel
      obtain rfl : c = c' := Except.ok.inj (hcanonical.symm.trans hc')
      obtain ⟨t, ht, rfl⟩ := hx
      obtain rfl : t.1 = c := Except.ok.inj (ht.symm.trans hcanonical)
      exact hG.containedIn hy ((htokens t).discourse d hdisc hspeaker)
    · intro h
      obtain ⟨x, c, n, y, hx, hcanonical, hd, hy, htoken, hv⟩ := h
      refine ⟨x, c, n, y, hx, hcanonical, hd, hy, ?_, hv⟩
      refine ⟨htoken.level, htoken.corpus, htoken.tokenSubsets, htoken.typeSubsets, ?_⟩
      intro d hlabel
      cases hlabel

theorem Frame.means_withoutContainedLabels_iff (hG : G.KeepsDiscourse I) {ds : List Criterion}
    (hds : ∀ c ∈ ds, c.RepeatsDiscourse f) :
    f.Means cs corpus? G I τ (ds.map Criterion.withoutContainedLabel) ↔
      f.Means cs corpus? G I τ ds := by
  constructor
  · intro h
    refine ⟨h.tokens, h.hops, fun c hc => ?_⟩
    have hholds := h.criteria _ (List.mem_map_of_mem hc)
    exact (Criterion.holds_withoutContainedLabel_iff hG h.tokens (hds c hc)).1 hholds
  · intro h
    refine ⟨h.tokens, h.hops, fun c hc => ?_⟩
    obtain ⟨d, hd, rfl⟩ := List.mem_map.1 hc
    exact (Criterion.holds_withoutContainedLabel_iff hG h.tokens (hds d hd)).2 (h.criteria d hd)

end Criteria

/-! Variable by tier -/

/-- On the graph, the assignments of nodes to variables that satisfy the match section are, variable by
tier, the assignments of nodes to tiers that satisfy the criteria `ds`. -/
def Plan.Corresponds (p : Plan) (q : Query) (b : Body Value)
    (e : {t // p.frame.Reached q.criteria t} ≃ {v // v ∈ b.tokenVars}) (ds : List Criterion)
    (G : Graph V) (I : Interpretation V) : Prop :=
  ∃ E : {σ : {v // v ∈ b.tokenVars} → G.Node // b.Matches G I (assigned σ)} ≃
      {τ : {t // p.frame.Reached q.criteria t} → G.Node //
        p.frame.Means q.criteria q.corpus? G I τ ds},
    ∀ σ t, (E σ).1 t = σ.1 (e t)

/-- Assignments correspond as soon as every one satisfies both or neither. -/
theorem Plan.corresponds_of_iff {p : Plan} {q : Query} {b : Body Value}
    {e : {t // p.frame.Reached q.criteria t} ≃ {v // v ∈ b.tokenVars}} {ds : List Criterion}
    {G : Graph V} {I : Interpretation V}
    (h : ∀ σ : {v // v ∈ b.tokenVars} → G.Node, b.Matches G I (assigned σ) ↔
      p.frame.Means q.criteria q.corpus? G I (σ ∘ e) ds) : p.Corresponds q b e ds G I :=
  ⟨(Equiv.arrowCongr e.symm (Equiv.refl _)).subtypeEquiv h, fun _ _ => rfl⟩

/-- The variables of the pattern are those of the tiers that need a token, and what they have to
satisfy is what the criteria say without the labels of contained tiers. -/
theorem Analysis.exists_corresponds {q : Query} {i : Intent} {p : Plan}
    {placed : List (Mention × Tier)} (h : Analysis q i p placed) (hr : p.frame.root.hops = [])
    {b : Body Literal} (hbody : p.body q i = .ok b) :
    ∃ e : {t // p.frame.Reached q.criteria t} ≃ {v // v ∈ b.values.tokenVars},
      (∀ t, p.Names t.1 (e t).1) ∧
      ∀ (V : Type) (G : Graph V) (I : Interpretation V) (σ : {v // v ∈ b.values.tokenVars} → G.Node),
        b.values.Matches G I (assigned σ) ↔ p.frame.Means q.criteria q.corpus? G I (σ ∘ e)
          (q.criteria.map Criterion.withoutContainedLabel) := by
  have hb := h.expresses hbody
  obtain ⟨e, he⟩ := h.exists_equiv hr hb
  refine ⟨e, he, fun V G I σ => ?_⟩
  rw [← h.corpus]
  refine h.matches_iff hr (h.agrees_comp he σ) hb.withoutContainedLabels ?_
    (Plan.body_eq_ok_iff.1 hbody).1.edges
  intro c hc
  obtain ⟨c, -, rfl⟩ := List.mem_map.1 hc
  exact c.containedLabel?_withoutContainedLabel

/-- Compiling a query keeps its meaning, with the values of the parameters put back in, but for the
discourse that a contained tier is labelled with: it is not asked for. Nothing is lost where no
contained tier has a label, or where each repeats the discourse of its container and the graph keeps
what a token contains in its discourse. -/
theorem meaning_is_kept_but_for_contained_labels {q : Query} {i : Intent} {s : Statement}
    (hq : q.find.hops = []) (hs : q.compile i = .ok s) :
    ∃ p b, q.plan i = .ok p ∧ Frame.ofQuery q.hierarchy q.find q.criteria = .ok p.frame ∧
      s.resolved = some b ∧
      ∃ e : {t // p.frame.Reached q.criteria t} ≃ {v // v ∈ b.tokenVars},
        (∀ t, p.Names t.1 (e t).1) ∧
        ∀ (V : Type) (G : Graph V) (I : Interpretation V),
          p.Corresponds q b e (q.criteria.map Criterion.withoutContainedLabel) G I ∧
          ((∀ c ∈ q.criteria, c.containedLabel? = none) ∨
            (G.KeepsDiscourse I ∧ ∀ c ∈ q.criteria, c.RepeatsDiscourse p.frame) →
              p.Corresponds q b e q.criteria G I) := by
  obtain ⟨-, p, b, hp, hbody, rfl⟩ := Query.compile_eq_ok_iff.1 hs
  obtain ⟨placed, h⟩ := Query.plan_eq_ok_iff.1 hp
  obtain ⟨e, he, hmatches⟩ := h.exists_corresponds (h.root_hops hq) hbody
  refine ⟨p, b.values, hp, h.frame, Statement.resolved_ofBody b, e, he, fun V G I => ?_⟩
  refine ⟨Plan.corresponds_of_iff (hmatches V G I), fun hexact => ?_⟩
  refine Plan.corresponds_of_iff fun σ => (hmatches V G I σ).trans ?_
  rcases hexact with hnone | ⟨hG, hrepeats⟩
  · rw [Criterion.map_withoutContainedLabel hnone]
  · exact Frame.means_withoutContainedLabels_iff hG hrepeats

/-! Two queries on the words of one discourse -/

/-- Words of a discourse with a phone that is labelled with a discourse too. -/
def Query.wordsWithPhoneIn (d : String) : Query :=
  let word := (Tier.ofLevel "word").withDiscourse (some "d1")
  let phone := (Tier.ofLevel "phone").withDiscourse (some d)
  (Query.ofFind (.ofList ["phone", "word"]) word).filterContains (phone.attribute .label) (.text "AA")

/-- The words and phones of `d1`. -/
def Frame.wordsOfDiscourse : Frame :=
  ⟨⟨["phone", "word"]⟩, (Tier.ofLevel "word").withDiscourse (some "d1"), some "d1"⟩

theorem Frame.canonical_wordsOfDiscourse :
    wordsOfDiscourse.canonical wordsOfDiscourse.root = .ok wordsOfDiscourse.root := by
  decide +kernel

theorem words_with_phone_in_their_discourse_keep_their_meaning :
    ∃ s p b e, (Query.wordsWithPhoneIn "d1").compile .rows = .ok s ∧
      (Query.wordsWithPhoneIn "d1").plan .rows = .ok p ∧ s.resolved = some b ∧
      ∀ (V : Type) (G : Graph V) (I : Interpretation V), G.KeepsDiscourse I →
        p.Corresponds (.wordsWithPhoneIn "d1") b e (Query.wordsWithPhoneIn "d1").criteria G I := by
  obtain ⟨s, hs⟩ :=
    exists_ok_of_isOk (x := (Query.wordsWithPhoneIn "d1").compile .rows) (by decide +kernel)
  obtain ⟨p, b, hp, hf, hb, e, -, h⟩ := meaning_is_kept_but_for_contained_labels rfl hs
  have hframe : p.frame = .wordsOfDiscourse :=
    Except.ok.inj (hf.symm.trans (by decide +kernel))
  refine ⟨s, p, b, e, hs, hp, hb, fun V G I hG => (h V G I).2 (Or.inr ⟨hG, ?_⟩)⟩
  intro c hc
  obtain rfl := List.mem_singleton.1 hc
  intro d hd
  cases hd
  rw [hframe]
  exact ⟨_, Frame.canonical_wordsOfDiscourse, rfl, rfl⟩

/-- A word with a phone, both of the discourse `d1`. -/
def Graph.wordWithPhone : Graph Value where
  Node := Bool
  hasLabel isPhone l := l = if isPhone then "phone" else "word"
  property _ name := if name = "discourse" then .text "d1" else .text "AA"
  precedes _ _ := False
  containedBy x y := x = true ∧ y = false
  spokenBy _ _ := False
  isA _ _ := False

/-- Values are equal or not, and in no order. -/
def Interpretation.unordered : Interpretation Value where
  literal v := v
  holds
    | .eq, x, y => x = y
    | .ne, x, y => x ≠ y
    | .isIn, x, y => ∃ vs, y = .array vs ∧ x ∈ vs
    | _, _, _ => False
  minus _ _ := .null
  isIn_singleton x v := by simp

namespace Frame

variable {path : AttributePath} {v : Value}

theorem eq_root_of_reached {t : Tier}
    (h : wordsOfDiscourse.Reached [.contains wordsOfDiscourse.root path v] t) :
    t = wordsOfDiscourse.root := by
  induction h with
  | root => rfl
  | bound hmem ha ht =>
    obtain rfl := List.mem_singleton.1 hmem
    obtain rfl := List.mem_singleton.1 ha
    exact Except.ok.inj (ht.symm.trans canonical_wordsOfDiscourse)
  | back _ hp _ ih =>
    subst ih
    cases hp

/-- The word is found when nothing is asked of the discourse of its phone. -/
theorem means_wordWithPhone {f : Frame} (hf : f = .wordsOfDiscourse) (d : String) :
    f.Means (Query.wordsWithPhoneIn d).criteria none .wordWithPhone .unordered (fun _ => false)
      ((Query.wordsWithPhoneIn d).criteria.map Criterion.withoutContainedLabel) := by
  subst hf
  refine ⟨fun t => ?_, fun t hop hhop => ?_, fun c hc => ?_⟩
  · rw [eq_root_of_reached t.2]
    refine ⟨rfl, fun c hc => ?_, fun s hs => ?_, fun h => absurd rfl h, fun d hd _ => ?_⟩
    · cases hc
    · cases hs
    · cases hd
      rfl
  · rw [eq_root_of_reached t.2] at hhop
    cases hhop
  · obtain rfl := List.mem_singleton.1 hc
    refine ⟨false, wordsOfDiscourse.root, 1, true, ?_, canonical_wordsOfDiscourse, rfl, ?_, ?_, rfl⟩
    · exact ⟨⟨_, .root⟩, canonical_wordsOfDiscourse, rfl⟩
    · exact ⟨false, ⟨rfl, rfl⟩, rfl⟩
    · refine ⟨rfl, fun c hc => ?_, fun s hs => ?_, fun h => absurd rfl h, fun d hd => ?_⟩
      · cases hc
      · cases hs
      · cases hd

end Frame

theorem words_with_phone_elsewhere_lose_a_label :
    ∃ s p b, (Query.wordsWithPhoneIn "d2").find.hops = [] ∧
      (Query.wordsWithPhoneIn "d2").compile .rows = .ok s ∧
      (Query.wordsWithPhoneIn "d2").plan .rows = .ok p ∧ s.resolved = some b ∧
      ∀ e, ¬ p.Corresponds (.wordsWithPhoneIn "d2") b e (Query.wordsWithPhoneIn "d2").criteria
        .wordWithPhone .unordered := by
  obtain ⟨s, hs⟩ :=
    exists_ok_of_isOk (x := (Query.wordsWithPhoneIn "d2").compile .rows) (by decide +kernel)
  obtain ⟨-, p, b, hp, hbody, rfl⟩ := Query.compile_eq_ok_iff.1 hs
  obtain ⟨placed, h⟩ := Query.plan_eq_ok_iff.1 hp
  have hframe : p.frame = .wordsOfDiscourse :=
    Except.ok.inj (h.frame.symm.trans (by decide +kernel))
  obtain ⟨e', -, hmatches⟩ := h.exists_corresponds (h.root_hops rfl) hbody
  refine ⟨_, p, b.values, rfl, hs, hp, Statement.resolved_ofBody b, fun e hcorr => ?_⟩
  obtain ⟨E, -⟩ := hcorr
  obtain ⟨τ, hτ⟩ := E ⟨fun _ => false,
    (hmatches _ _ _ _).2 (Frame.means_wordWithPhone hframe "d2")⟩
  obtain ⟨x, c, n, y, -, -, -, -, htoken, -⟩ := hτ.criteria _ (List.mem_singleton_self _)
  have hdiscourse : Value.text "d1" = Value.text "d2" := htoken.discourse "d2" rfl rfl
  exact absurd hdiscourse (by decide)

end TierQuery
