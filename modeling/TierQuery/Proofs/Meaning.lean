import Mathlib.Logic.Equiv.Basic
import TierQuery.Proofs.Criteria
import TierQuery.Proofs.Graph

/-! What the criteria of a query mean on an annotation graph, said of tiers and without any
statement. The match section of its statements means the same, but for the discourse of a contained
tier, which it never asks for. -/

namespace TierQuery

open Json (Value)

/-- The tiers that need a token: the searched-for one, the canonical forms of the tiers that the
criteria bind, and what is passed on the way to them. -/
inductive Frame.Reached (f : Frame) (cs : List Criterion) : Tier → Prop
  | root : Reached f cs f.root
  | bound {c : Criterion} {a t : Tier} :
    c ∈ cs → a ∈ c.boundTiers → f.canonical a = .ok t → Reached f cs t
  | back {t u : Tier} : Reached f cs t → t.parent? = some u → u.hops ≠ [] → Reached f cs u

variable {V : Type}

/-- The node is a token of the tier: of its level, its token subsets and its discourse, and of a type
in its type subsets if it has some. -/
structure Graph.IsToken (G : Graph V) (I : Interpretation V) (corpus? : Option String) (a : Tier)
    (n : G.Node) : Prop where
  level : G.hasLabel n (if a.isSpeaker then "Speaker" else a.name)
  corpus : ∀ c, corpus? = some c → G.hasLabel n c
  tokenSubsets : ∀ s ∈ a.tokenSubsets.names, G.hasLabel n s
  typeSubsets : a.typeSubsets.names ≠ [] → ∃ t, G.isA n t ∧ G.hasLabel t (a.name ++ "_type") ∧
    (∀ c, corpus? = some c → G.hasLabel t c) ∧ ∀ s ∈ a.typeSubsets.names, G.hasLabel t s
  /-- Speakers belong to no discourse. -/
  discourse : ∀ d, a.discourse = some d → a.isSpeaker = false →
    I.holds .eq (G.read I n .discourse) (I.literal (.text d))

/-- The hop leads from `x`, which is on the given level, to `y`. -/
def Graph.Step (G : Graph V) (h : Hierarchy) (level : String) (x y : G.Node) : Hop → Prop
  | .following => G.precedes x y
  | .previous => G.precedes y x
  | .up higher => ∃ n, h.distance? level higher = some n ∧ G.ContainedIn n x y
  | .speaker => G.spokenBy x y

/-- Both tokens begin, or end, together, or they do not. -/
def Alignment.Holds (G : Graph V) (I : Interpretation V) (x y : G.Node) : Alignment → Prop
  | left => I.holds .eq (G.read I x .begin) (G.read I y .begin)
  | right => I.holds .eq (G.read I x .end) (G.read I y .end)
  | notLeft => I.holds .ne (G.read I x .begin) (G.read I y .begin)
  | notRight => I.holds .ne (G.read I x .end) (G.read I y .end)

section Criteria

variable (f : Frame) (cs : List Criterion) (corpus? : Option String) (G : Graph V)
  (I : Interpretation V) (τ : {a // f.Reached cs a} → G.Node)

/-- The tier, as a criterion writes it, is assigned the node. -/
def Frame.Assigns (a : Tier) (n : G.Node) : Prop :=
  ∃ t : {t // f.Reached cs t}, f.canonical a = .ok t.1 ∧ n = τ t

/-- The criterion on the nodes that its tiers are assigned. A contained token is any token the
right number of levels below the container. -/
def Criterion.Holds : Criterion → Prop
  | comparison path op (.value v) =>
    ∃ x, f.Assigns cs G τ path.tier x ∧ I.holds op (G.read I x path.property) (I.literal v)
  | comparison path op (.path other) =>
    ∃ x y, f.Assigns cs G τ path.tier x ∧ f.Assigns cs G τ other.tier y ∧
      I.holds op (G.read I x path.property) (G.read I y other.property)
  | alignment kind a b =>
    ∃ x y, f.Assigns cs G τ a x ∧ f.Assigns cs G τ b y ∧ kind.Holds G I x y
  | contains container path v =>
    ∃ x c n y, f.Assigns cs G τ container x ∧ f.canonical container = .ok c ∧
      f.hierarchy.distance? path.tier.origin c.name = some n ∧ G.ContainedIn n y x ∧
      G.IsToken I corpus? path.tier y ∧ I.holds .eq (G.read I y path.property) (I.literal v)

/-- Every tier that `cs` need is assigned a token, hops lead from token to token, and the criteria
`ds` hold. -/
structure Frame.Means (ds : List Criterion) : Prop where
  tokens : ∀ t, G.IsToken I corpus? t.1 (τ t)
  hops : ∀ t hop, t.1.hops.getLast? = some hop →
    ∃ u, u.1 = f.above t.1 ∧ G.Step f.hierarchy u.1.name (τ u) (τ t) hop
  criteria : ∀ c ∈ ds, c.Holds f cs corpus? G I τ

end Criteria

/-- The discourse that a contained tier is labelled with. -/
def Criterion.containedLabel? : Criterion → Option String
  | contains _ path _ => path.tier.discourse
  | _ => none

/-! The tiers of the pattern -/

theorem Frame.Reached.of_mem_chain {f : Frame} {cs : List Criterion} {t a : Tier}
    (h : f.Reached cs t) (ha : a ∈ t.chain) : f.Reached cs a :=
  Tier.chain_induction (fun _ _ => .back) h ha

namespace Analysis

variable {q : Query} {i : Intent} {p : Plan} {placed : List (Mention × Tier)}

theorem reached_iff (h : Analysis q i p placed) (hr : p.frame.root.hops = []) {a : Tier} :
    p.frame.Reached q.criteria a ↔ a ∈ LevelTable.requiredOf p.frame placed := by
  refine ⟨?_, ?_⟩
  · intro ha
    induction ha with
    | root => exact LevelTable.root_mem_requiredOf
    | bound hc hb ht =>
      obtain ⟨m, hm, rfl⟩ := References.exists_mem_bindingMentions.2 ⟨_, hc, hb⟩
      have hm' : m ∈ placed.map Prod.fst := by
        rw [h.mentions, References.mentions_eq, q.criteria_references]
        exact List.mem_append_left _ hm
      obtain ⟨x, hx, rfl⟩ := List.mem_map.1 hm'
      obtain rfl := Except.ok.inj (ht.symm.trans (h.canonical x hx))
      exact LevelTable.mem_requiredOf.2
        (Or.inr ⟨x, hx, References.binding_of_mem hm, x.2.self_mem_chain⟩)
    | back _ hp hh ih => exact LevelTable.parent_mem_requiredOf ih hp hh
  · intro ha
    rcases LevelTable.mem_requiredOf.1 ha with ha | ⟨x, hx, hb, ha⟩
    · rw [Tier.chain_eq_singleton hr, List.mem_singleton] at ha
      exact ha ▸ .root
    · have hm : x.1 ∈ (q.references i).mentions := h.mentions ▸ List.mem_map_of_mem hx
      rw [References.mentions_eq, q.criteria_references, List.mem_append] at hm
      have hm := hm.resolve_right fun hl => by simp [References.not_binding_of_mem hl] at hb
      obtain ⟨c, hc, hbound⟩ := References.exists_mem_bindingMentions.1 ⟨x.1, hm, rfl⟩
      exact (Frame.Reached.bound hc hbound (h.canonical x hx)).of_mem_chain ha

end Analysis

/-- The tier has the variable `v` in the pattern. -/
def Plan.Names (p : Plan) (t : Tier) (v : String) : Prop :=
  ∃ l ∈ p.table.levels, l.required = true ∧ l.tier = t ∧ l.var = v

theorem Plan.Denotes.names {p : Plan} {a : Tier} {v : String} (h : p.Denotes a v) :
    ∃ t, p.frame.canonical a = .ok t ∧ p.Names t v := by
  obtain ⟨l, hl, hreq, ha, rfl⟩ := h
  exact ⟨l.tier, ha, l, hl, hreq, rfl, rfl⟩

/-- What is assigned to a variable is assigned to its tier. -/
def Plan.Agrees {N : Type} (p : Plan) (cs : List Criterion) (σ : String → Option N)
    (τ : {t // p.frame.Reached cs t} → N) : Prop :=
  ∀ t v, p.Names t.1 v → σ v = some (τ t)

/-- The same of the tiers as criteria write them. -/
def Plan.AgreesAsWritten {N : Type} (p : Plan) (cs : List Criterion) (σ : String → Option N)
    (τ : {t // p.frame.Reached cs t} → N) : Prop :=
  ∀ a v, p.Denotes a v → ∃ t : {t // p.frame.Reached cs t},
    p.frame.canonical a = .ok t.1 ∧ σ v = some (τ t)

namespace Analysis

variable {q : Query} {i : Intent} {p : Plan} {placed : List (Mention × Tier)}

theorem reached_iff_names (h : Analysis q i p placed) (hr : p.frame.root.hops = []) {t : Tier} :
    p.frame.Reached q.criteria t ↔ ∃ v, p.Names t v := by
  rw [h.reached_iff hr]
  refine ⟨?_, ?_⟩
  · intro ht
    have hm : t ∈ (LevelTable.levelsOf p.frame placed).map (·.tier) := by
      rw [LevelTable.map_tier_levelsOf]
      exact LevelTable.requiredOf_subset ht
    obtain ⟨l, hl, rfl⟩ := List.mem_map.1 hm
    obtain ⟨n, hn⟩ := List.mem_iff_getElem?.1 hl
    exact ⟨l.var, l, h.levels_eq ▸ hl, (LevelTable.required_iff hn).2 ht, rfl, rfl⟩
  · rintro ⟨v, l, hl, hreq, rfl, -⟩
    obtain ⟨n, hn⟩ := List.mem_iff_getElem?.1 (h.levels_eq ▸ hl)
    exact (LevelTable.required_iff hn).1 hreq

theorem names_inj (h : Analysis q i p placed) {t u : Tier} {v w : String} (ht : p.Names t v)
    (hu : p.Names u w) : t = u ↔ v = w := by
  obtain ⟨l, hl, -, rfl, rfl⟩ := ht
  obtain ⟨k, hk, -, rfl, rfl⟩ := hu
  refine ⟨?_, ?_⟩
  · intro e
    rw [h.level_of_tier hl hk e]
  · intro e
    rw [h.level_of_var hl hk e]

end Analysis

/-! Criteria -/

section Criteria

variable {p : Plan} {cs : List Criterion} {G : Graph V} {I : Interpretation V}
  {σ : String → Option G.Node} {τ : {t // p.frame.Reached cs t} → G.Node}

theorem Frame.assigns_iff {f : Frame} {τ : {t // f.Reached cs t} → G.Node} {a : Tier}
    {t : {t // f.Reached cs t}} (ht : f.canonical a = .ok t.1) {n : G.Node} :
    f.Assigns cs G τ a n ↔ n = τ t := by
  refine ⟨?_, ?_⟩
  · rintro ⟨u, hu, rfl⟩
    obtain rfl : t = u := Subtype.ext (Except.ok.inj (ht.symm.trans hu))
    rfl
  · rintro rfl
    exact ⟨t, ht, rfl⟩

theorem Predicate.holds_mk {l r : Expr Value} {op : CompareOp} {a b : V}
    (hl : l.value? G I σ = some a) (hr : r.value? G I σ = some b) :
    (Predicate.mk l op r).Holds G I σ ↔ I.holds op a b := by
  simp [Predicate.Holds, hl, hr]

theorem Expr.value?_property {v : String} {n : G.Node} (h : σ v = some n) (property : Property) :
    (Expr.property v property).value? G I σ = some (G.read I n property) := by
  simp [Expr.value?, h]

theorem Plan.isToken_iff {a : Tier} {n : G.Node} :
    G.IsToken I p.corpus? a n ↔ G.HasLabels n (p.tokenLabels a) ∧
      (a.typeSubsets.isEmpty = false → G.HasType n (p.typeLabels a)) ∧
      ∀ d, a.discourse = some d → a.isSpeaker = false →
        I.holds .eq (G.read I n .discourse) (I.literal (.text d)) := by
  have hlabels : G.HasLabels n (p.tokenLabels a) ↔
      G.hasLabel n (if a.isSpeaker then "Speaker" else a.name) ∧
      (∀ c, p.corpus? = some c → G.hasLabel n c) ∧ ∀ s ∈ a.tokenSubsets.names, G.hasLabel n s := by
    simp [Graph.HasLabels, tokenLabels, or_imp, forall_and]
  have htype : G.HasType n (p.typeLabels a) ↔ ∃ t, G.isA n t ∧ G.hasLabel t (a.name ++ "_type") ∧
      (∀ c, p.corpus? = some c → G.hasLabel t c) ∧ ∀ s ∈ a.typeSubsets.names, G.hasLabel t s := by
    simp [Graph.HasType, Graph.HasLabels, typeLabels, or_imp, forall_and]
  have hempty : a.typeSubsets.isEmpty = false ↔ a.typeSubsets.names ≠ [] := by
    rw [NameSet.isEmpty, List.isEmpty_eq_false_iff]
  rw [hlabels, htype, hempty]
  refine ⟨?_, ?_⟩
  · intro h
    exact ⟨⟨h.level, h.corpus, h.tokenSubsets⟩, h.typeSubsets, h.discourse⟩
  · rintro ⟨⟨hl, hc, hs⟩, ht, hd⟩
    exact ⟨hl, hc, hs, ht, hd⟩

/-- A condition holds of the variables as its criterion does of the tiers, if no contained tier is
labelled with a discourse. -/
theorem Plan.Says.holds_iff {c : Criterion} {k : Constraint Value} (hs : p.Says c k)
    (hlabel : c.containedLabel? = none) (hστ : p.AgreesAsWritten cs σ τ) :
    k.Holds G I σ ↔ c.Holds p.frame cs p.corpus? G I τ := by
  cases hs with
  | value hv =>
    obtain ⟨t, ht, hσ⟩ := hστ _ _ hv
    simp only [Constraint.Holds, Criterion.Holds, Frame.assigns_iff ht, exists_eq_left]
    exact Predicate.holds_mk (Expr.value?_property hσ _) rfl
  | path hv hw =>
    obtain ⟨t, ht, hσ⟩ := hστ _ _ hv
    obtain ⟨u, hu, hσ'⟩ := hστ _ _ hw
    simp only [Constraint.Holds, Criterion.Holds, Frame.assigns_iff ht, Frame.assigns_iff hu,
      exists_eq_left, exists_and_left]
    exact Predicate.holds_mk (Expr.value?_property hσ _) (Expr.value?_property hσ' _)
  | @alignment kind a b v w hv hw =>
    obtain ⟨t, ht, hσ⟩ := hστ _ _ hv
    obtain ⟨u, hu, hσ'⟩ := hστ _ _ hw
    simp only [Constraint.Holds, Criterion.Holds, Frame.assigns_iff ht, Frame.assigns_iff hu,
      exists_eq_left, exists_and_left]
    refine (Predicate.holds_mk (Expr.value?_property hσ _) (Expr.value?_property hσ' _)).trans ?_
    cases kind <;> rfl
  | @contains container c path x v n hv hc hprop hd =>
    obtain ⟨t, ht, hσ⟩ := hστ _ _ hv
    obtain rfl : t.1 = c := Except.ok.inj (ht.symm.trans hc)
    have htype (y : G.Node) (ls : List String)
        (hls : ls = if path.tier.typeSubsets.isEmpty then [] else p.typeLabels path.tier) :
        (ls ≠ [] → G.HasType y ls) ↔
          (path.tier.typeSubsets.isEmpty = false → G.HasType y (p.typeLabels path.tier)) := by
      subst hls
      split
      · next he => simp [he]
      · next he => simp [he, Plan.typeLabels]
    have hread (y : G.Node) : G.read I y path.property = G.property y path.property.name :=
      if_neg hprop
    have htoken (y : G.Node) : G.IsToken I p.corpus? path.tier y ↔
        G.HasLabels y (p.tokenLabels path.tier) ∧
          (path.tier.typeSubsets.isEmpty = false → G.HasType y (p.typeLabels path.tier)) := by
      have hnone : path.tier.discourse = none := hlabel
      simp [p.isToken_iff, hnone]
    simp only [Constraint.Holds, Criterion.Holds, Containment.Holds, Frame.assigns_iff ht,
      htype _ _ rfl, hread, htoken]
    refine ⟨?_, ?_⟩
    · rintro ⟨x, y, hx, hy, hl, ht', hh⟩
      obtain rfl : x = τ t := Option.some.inj (hx.symm.trans hσ)
      exact ⟨τ t, t.1, n, y, rfl, ht, hd, hy, ⟨hl, ht'⟩, hh⟩
    · rintro ⟨x, c, m, y, rfl, hc', hm, hy, ⟨hl, ht'⟩, hh⟩
      obtain rfl : t.1 = c := Except.ok.inj (ht.symm.trans hc')
      obtain rfl : n = m := Option.some.inj (hd.symm.trans hm)
      exact ⟨τ t, y, hσ, hy, hl, ht', hh⟩

/-! Nodes -/

/-- The criteria on a node are comparisons. -/
theorem Criterion.containedLabel?_of_site {f : Frame} {c : Criterion} {a : Tier}
    (hc : c.site f = .node a) : c.containedLabel? = none := by
  obtain ⟨path, op, operand, rfl, -⟩ := site_eq_node hc
  rfl

/-- A criterion that fixes the discourse of a tier holds when the tier is in that discourse. -/
theorem Criterion.holds_discourse {f : Frame} {τ : {t // f.Reached cs t} → G.Node}
    {corpus? : Option String} {c : Criterion} {d : String} {t : {t // f.Reached cs t}}
    (hc : c.site f = .node t.1) (hd : c.discourseLiteral? = some d) :
    c.Holds f cs corpus? G I τ ↔ I.holds .eq (G.read I (τ t) .discourse) (I.literal (.text d)) := by
  obtain ⟨path, op, operand, rfl, ht⟩ := site_eq_node hc
  obtain ⟨path', hp, he⟩ := discourseLiteral?_eq_some hd
  rcases he with he | he
  · cases he
    simp only [Holds, Frame.assigns_iff ht, exists_eq_left, hp]
  · cases he
    simp only [Holds, Frame.assigns_iff ht, exists_eq_left, hp, I.isIn_singleton]

theorem Criterion.holds_pin {f : Frame} {τ : {t // f.Reached cs t} → G.Node}
    {corpus? : Option String} {c : Criterion} {v : Value} {t : {t // f.Reached cs t}}
    (hc : c.site f = .node t.1) (hv : c.pin? = some v) :
    c.Holds f cs corpus? G I τ ↔ I.holds .eq (G.property (τ t) "id") (I.literal v) := by
  obtain ⟨path, op, operand, rfl, ht⟩ := site_eq_node hc
  obtain ⟨path', he, hp⟩ := pin?_eq_some hv
  cases he
  simp only [Holds, Frame.assigns_iff ht, exists_eq_left, hp]
  rfl

/-- The criteria that stand on a node, whether as its pin or as conditions. -/
theorem Plan.Carries.holds_iff {own : List Criterion} {pin? : Option Value}
    {ys : List (Predicate Value)} (h : p.Carries own pin? ys)
    (hστ : p.AgreesAsWritten cs σ τ)
    {t : {t // p.frame.Reached cs t}} (hsite : ∀ c ∈ own, c.site p.frame = .node t.1) :
    ((∀ v, pin? = some v → I.holds .eq (G.property (τ t) "id") (I.literal v)) ∧
      ∀ y ∈ ys, y.Holds G I σ) ↔ ∀ c ∈ own, c.Holds p.frame cs p.corpus? G I τ := by
  cases h with
  | unpinned _ hs =>
    rw [forall_iff_of_forall₂ (Q := fun y => y.Holds G I σ) hs fun c hc y _ h =>
      (h.holds_iff (Criterion.containedLabel?_of_site (hsite c hc)) hστ).symm]
    simp
  | @pinned before after c v _ _ hv hs =>
    have hpin : c.Holds p.frame cs p.corpus? G I τ ↔ _ := Criterion.holds_pin (hsite c (by simp)) hv
    have hlabel (d : Criterion) (hd : d ∈ before ++ after) : d.containedLabel? = none := by
      refine Criterion.containedLabel?_of_site (hsite d ?_)
      rw [List.mem_append] at hd
      exact List.mem_append.2 (hd.imp_right (List.mem_cons_of_mem c))
    have hrest := forall_iff_of_forall₂ (Q := fun y => y.Holds G I σ) hs fun d hd y _ h =>
      (h.holds_iff (G := G) (I := I) (τ := τ) (hlabel d hd) hστ).symm
    have hsplit : (∀ d ∈ before ++ c :: after, d.Holds p.frame cs p.corpus? G I τ) ↔
        c.Holds p.frame cs p.corpus? G I τ ∧
          ∀ d ∈ before ++ after, d.Holds p.frame cs p.corpus? G I τ := by
      simp only [List.forall_mem_append, List.forall_mem_cons]
      exact and_left_comm
    rw [hsplit, hpin, ← hrest]
    simp

/-- With the criteria that stand on a node, the condition that is added says that the node is in the
discourse of its tier. -/
theorem Plan.holds_addedDiscourse {l : Level} {own : List Criterion} {n : G.Node}
    (hσ : σ l.var = some n)
    (hfix : ∀ c ∈ own, ∀ d e, l.tier.discourse = some d → c.discourseLiteral? = some e → e = d)
    (hown : ∀ c ∈ own, ∀ d, c.discourseLiteral? = some d →
      I.holds .eq (G.read I n .discourse) (I.literal (.text d))) :
    (∀ y ∈ addedDiscourse l own, y.Holds G I σ) ↔
      ∀ d, l.tier.discourse = some d → l.tier.isSpeaker = false →
        I.holds .eq (G.read I n .discourse) (I.literal (.text d)) := by
  unfold addedDiscourse
  cases hd : l.tier.discourse with
  | none => simp
  | some d =>
    by_cases hadd : (own.any (·.discourseLiteral?.isSome) || l.tier.isSpeaker) = true
    · simp only [if_pos hadd]
      refine ⟨fun _ e he hs => ?_, fun _ => by simp⟩
      cases he
      have hany : own.any (·.discourseLiteral?.isSome) = true := by rwa [hs, Bool.or_false] at hadd
      obtain ⟨c, hc, hsome⟩ := List.any_eq_true.1 hany
      obtain ⟨e, he⟩ := Option.isSome_iff_exists.1 hsome
      exact hfix c hc d e hd he ▸ hown c hc e he
    · have hs : l.tier.isSpeaker = false := by
        cases hs : l.tier.isSpeaker <;> simp [hs] at hadd ⊢
      simp only [if_neg hadd]
      simp only [List.forall_mem_singleton, hs, true_implies, Option.some.injEq, forall_eq']
      exact Predicate.holds_mk (Expr.value?_property hσ _) rfl

/-- A node of the pattern asks for a token of its tier that meets the criteria on it. -/
theorem Plan.NodeSays.holds_iff {l : LevelId × Level} {own : List Criterion} {x : NodePattern Value}
    (h : p.NodeSays l own x)
    (hστ : p.AgreesAsWritten cs σ τ)
    {t : {t // p.frame.Reached cs t}} (ht : t.1 = l.2.tier) (hσ : σ l.2.var = some (τ t))
    (hsite : ∀ c ∈ own, c.site p.frame = .node t.1) :
    (∃ n, x.Holds G I σ n) ↔ G.IsToken I p.corpus? t.1 (τ t) ∧
      ∀ c ∈ own, c.Holds p.frame cs p.corpus? G I τ := by
  obtain ⟨ys, hcarries, hinline⟩ := h.inline
  have hown := hcarries.holds_iff (G := G) (I := I) hστ hsite
  have hadded (hc : ∀ c ∈ own, c.Holds p.frame cs p.corpus? G I τ) :=
    Plan.holds_addedDiscourse (I := I) hσ h.discourse fun c hmem d hd =>
      (Criterion.holds_discourse (hsite c hmem) hd).1 (hc c hmem)
  have htype : (∀ y, x.typeNode? = some y → G.HasType (τ t) y.labels) ↔
      (t.1.typeSubsets.isEmpty = false → G.HasType (τ t) (p.typeLabels t.1)) := by
    rw [h.typeNode, ht]
    cases l.2.tier.typeSubsets.isEmpty <;> simp
  rw [ht] at htype ⊢
  refine ⟨?_, ?_⟩
  · rintro ⟨n, hn⟩
    obtain rfl : n = τ t := Option.some.inj (hn.var.symm.trans (h.var ▸ hσ))
    have hall := hinline ▸ hn.inline
    have hc := hown.1 ⟨hn.identity, fun y hy => hall y (List.mem_append_left _ hy)⟩
    have hdisc := (hadded hc).1 fun y hy => hall y (List.mem_append_right _ hy)
    exact ⟨p.isToken_iff.2 ⟨h.labels ▸ hn.labels, htype.1 hn.typeNode, hdisc⟩, hc⟩
  · rintro ⟨htoken, hc⟩
    obtain ⟨hlabels, ht', hdisc⟩ := p.isToken_iff.1 htoken
    obtain ⟨hid, hys⟩ := hown.2 hc
    refine ⟨τ t, h.var ▸ hσ, h.labels ▸ hlabels, hid, htype.2 ht', fun y hy => ?_⟩
    rw [hinline] at hy
    exact (List.mem_append.1 hy).elim (hys y) ((hadded hc).2 hdisc y)

end Criteria

/-! The whole section -/

theorem Plan.relation_holds {p : Plan} {G : Graph V} {parent : Tier} {hop : Hop} {x y : G.Node}
    (hd : ∀ u, hop = .up u → ∃ n, p.frame.hierarchy.distance? parent.name u = some n) :
    (p.relation parent hop).Holds G x y ↔ G.Step p.frame.hierarchy parent.name x y hop := by
  cases hop with
  | following => rfl
  | previous => rfl
  | speaker => rfl
  | up u =>
    obtain ⟨n, hn⟩ := hd u rfl
    simp [relation, Relation.Holds, Graph.Step, hn]

namespace Analysis

variable {q : Query} {i : Intent} {p : Plan} {placed : List (Mention × Tier)} {G : Graph V}
  {I : Interpretation V} {σ : String → Option G.Node} {τ : {t // p.frame.Reached q.criteria t} → G.Node}
  {b : Body Value} {ds : List Criterion}

theorem exists_reached (h : Analysis q i p placed) (hr : p.frame.root.hops = []) {n : LevelId}
    {l : Level} (hl : p.table.levels[n]? = some l) (hreq : l.required = true)
    (hστ : p.Agrees q.criteria σ τ) :
    ∃ t : {t // p.frame.Reached q.criteria t}, t.1 = l.tier ∧ σ l.var = some (τ t) := by
  have hn : p.Names l.tier l.var := ⟨l, List.mem_of_getElem? hl, hreq, rfl, rfl⟩
  exact ⟨⟨l.tier, (h.reached_iff_names hr).2 ⟨_, hn⟩⟩, rfl, hστ _ _ hn⟩

theorem exists_level (h : Analysis q i p placed) (hr : p.frame.root.hops = [])
    (t : {t // p.frame.Reached q.criteria t}) :
    ∃ (n : LevelId) (l : Level), p.table.levels[n]? = some l ∧ l.required = true ∧
      l.tier = t.1 := by
  obtain ⟨v, l, hl, hreq, ht, -⟩ := (h.reached_iff_names hr).1 t.2
  obtain ⟨n, hn⟩ := List.mem_iff_getElem?.1 hl
  exact ⟨n, l, hn, hreq, ht⟩

theorem agrees_as_written (h : Analysis q i p placed) (hr : p.frame.root.hops = [])
    (hστ : p.Agrees q.criteria σ τ) : p.AgreesAsWritten q.criteria σ τ := by
  intro a v ha
  obtain ⟨t, ht, hn⟩ := ha.names
  exact ⟨⟨t, (h.reached_iff_names hr).2 ⟨v, hn⟩⟩, ht, hστ _ _ hn⟩

/-- The edge of a level is the last hop of its tier. -/
theorem edge_holds_iff (h : Analysis q i p placed) (hr : p.frame.root.hops = [])
    (hστ : p.Agrees q.criteria σ τ) {n : LevelId} {l : Level} (hl : p.table.levels[n]? = some l)
    (hreq : l.required = true) {t : {t // p.frame.Reached q.criteria t}} (ht : t.1 = l.tier)
    {hop : Hop} (hhop : l.tier.hops.getLast? = some hop) :
    ∃ e, p.edge? l = some e ∧ (e.Holds G σ ↔
      ∃ u : {u // p.frame.Reached q.criteria u}, u.1 = p.frame.above t.1 ∧
        G.Step p.frame.hierarchy u.1.name (τ u) (τ t) hop) := by
  have hh : l.tier.hops ≠ [] := fun e => by simp [e] at hhop
  obtain ⟨m, k, hop', -, hk, hkt, hkr, hhop', he⟩ := h.edge?_eq hr hl hh
  obtain rfl : hop = hop' := Option.some.inj (hhop.symm.trans hhop')
  obtain ⟨u, hu, hσu⟩ := h.exists_reached hr hk (hkr hreq) hστ
  have hσt : σ l.var = some (τ t) := hστ t l.var ⟨l, List.mem_of_getElem? hl, hreq, ht.symm, rfl⟩
  have hrel : (p.relation k.tier hop).Holds G (τ u) (τ t) ↔
      G.Step p.frame.hierarchy k.tier.name (τ u) (τ t) hop :=
    Plan.relation_holds fun w hw => by
      rw [hkt]
      exact (h.grounded hr (List.mem_of_getElem? hl)).distance?_above hr (hw ▸ hhop)
  refine ⟨_, he, ?_⟩
  simp only [Edge.Holds, hσu, hσt, Option.some.injEq, exists_and_left, exists_eq_left', hrel]
  refine ⟨?_, ?_⟩
  · intro hs
    exact ⟨u, by rw [hu, hkt, ht], hu ▸ hs⟩
  · rintro ⟨w, hw, hs⟩
    obtain rfl : w = u := Subtype.ext (by rw [hw, hu, hkt, ht])
    exact hu ▸ hs

theorem edges_iff (h : Analysis q i p placed) (hr : p.frame.root.hops = [])
    (hστ : p.Agrees q.criteria σ τ) :
    (∀ e ∈ p.table.required.filterMap fun l => p.edge? l.2, e.Holds G σ) ↔
      ∀ (t : {t // p.frame.Reached q.criteria t}) (hop : Hop), t.1.hops.getLast? = some hop →
        ∃ u : {u // p.frame.Reached q.criteria u}, u.1 = p.frame.above t.1 ∧
          G.Step p.frame.hierarchy u.1.name (τ u) (τ t) hop := by
  refine ⟨?_, ?_⟩
  · intro he t hop hhop
    obtain ⟨n, l, hl, hreq, ht⟩ := h.exists_level hr t
    obtain ⟨e, hle, hiff⟩ := h.edge_holds_iff hr hστ hl hreq ht.symm (ht ▸ hhop)
    exact hiff.1 (he e (List.mem_filterMap.2 ⟨(n, l), LevelTable.mem_required.2 ⟨hl, hreq⟩, hle⟩))
  · intro hs e he
    obtain ⟨⟨n, l⟩, hmem, hle⟩ := List.mem_filterMap.1 he
    obtain ⟨hl, hreq⟩ := LevelTable.mem_required.1 hmem
    cases hhop : l.tier.hops.getLast? with
    | none =>
      rw [edge?_eq_none (List.getLast?_eq_none_iff.1 hhop)] at hle
      cases hle
    | some hop =>
      obtain ⟨t, ht, -⟩ := h.exists_reached hr hl hreq hστ
      obtain ⟨e', hle', hiff⟩ := h.edge_holds_iff hr hστ hl hreq ht hhop
      obtain rfl : e = e' := Option.some.inj (hle.symm.trans hle')
      exact hiff.2 (hs t hop (ht ▸ hhop))

theorem nodes_iff (h : Analysis q i p placed) (hr : p.frame.root.hops = [])
    (hστ : p.Agrees q.criteria σ τ) (hb : p.Expresses ds b) :
    (∀ x ∈ b.nodes, ∃ n, x.Holds G I σ n) ↔ ∀ t : {t // p.frame.Reached q.criteria t},
      G.IsToken I p.corpus? t.1 (τ t) ∧
      ∀ c ∈ ds.filter (·.site p.frame = .node t.1),
        c.Holds p.frame q.criteria p.corpus? G I τ := by
  have hnode {l : LevelId × Level} {x : NodePattern Value} {t : {t // p.frame.Reached q.criteria t}}
      (ht : t.1 = l.2.tier) (hσ : σ l.2.var = some (τ t))
      (hx : p.NodeSays l (ds.filter (·.site p.frame = .node l.2.tier)) x) :=
    Plan.NodeSays.holds_iff (I := I) hx (h.agrees_as_written hr hστ) ht hσ fun c hc => by
      rw [ht]
      exact of_decide_eq_true (List.mem_filter.1 hc).2
  refine ⟨?_, ?_⟩
  · intro hx t
    obtain ⟨n, l, hl, hreq, ht⟩ := h.exists_level hr t
    obtain ⟨x, hmem, hs⟩ := forall₂_mem_left hb.nodes (LevelTable.mem_required.2 ⟨hl, hreq⟩)
    have hσ : σ l.var = some (τ t) := hστ t _ ⟨l, List.mem_of_getElem? hl, hreq, ht, rfl⟩
    have := (hnode ht.symm hσ hs).1 (hx x hmem)
    rwa [ht] at this
  · intro ht x hx
    obtain ⟨l, hmem, hs⟩ := forall₂_mem_right hb.nodes hx
    obtain ⟨hl, hreq⟩ := LevelTable.mem_required.1 hmem
    obtain ⟨t, htl, hσ⟩ := h.exists_reached hr hl hreq hστ
    refine (hnode htl hσ hs).2 ?_
    have := ht t
    rwa [htl] at this ⊢

/-- The match section asks of the variables what the criteria that it expresses ask of the tiers. -/
theorem matches_iff (h : Analysis q i p placed) (hr : p.frame.root.hops = [])
    (hστ : p.Agrees q.criteria σ τ) (hb : p.Expresses ds b)
    (hlabel : ∀ c ∈ ds, c.containedLabel? = none)
    (he : b.edges = p.table.required.filterMap fun l => p.edge? l.2) :
    b.Matches G I σ ↔ p.frame.Means q.criteria p.corpus? G I τ ds := by
  have hwritten := h.agrees_as_written hr hστ
  have hnodes := h.nodes_iff (I := I) hr hστ hb
  have hedges := he ▸ h.edges_iff hr hστ
  have hconstraints := forall_iff_of_forall₂ (Q := fun k => k.Holds G I σ) hb.constraints
    fun c hc k _ hk => (Plan.Says.holds_iff (I := I) hk
      (hlabel c (List.mem_filter.1 hc).1) hwritten).symm
  have hfilters := forall_iff_of_forall₂ (Q := fun x => x.Holds G I σ) hb.filters
    fun c hc x _ hx => (Plan.Says.holds_iff (I := I) hx
      (hlabel c (List.mem_filter.1 hc).1) hwritten).symm
  refine ⟨?_, ?_⟩
  · intro hm
    have ht := hnodes.1 hm.nodes
    refine ⟨fun t => (ht t).1, hedges.1 hm.edges, fun c hc => ?_⟩
    cases hs : c.site p.frame with
    | constraints => exact hconstraints.2 hm.constraints c (List.mem_filter.2 ⟨hc, by simp [hs]⟩)
    | filters => exact hfilters.2 hm.filters c (List.mem_filter.2 ⟨hc, by simp [hs]⟩)
    | node a =>
      obtain ⟨l, hl, rfl⟩ := List.mem_map.1 (hb.located c hc a hs)
      obtain ⟨hl, hreq⟩ := LevelTable.mem_required.1 hl
      obtain ⟨t, htl, -⟩ := h.exists_reached hr hl hreq hστ
      exact (ht t).2 c (List.mem_filter.2 ⟨hc, by simp [hs, htl]⟩)
  · intro hm
    refine ⟨hnodes.2 fun t => ⟨hm.tokens t, fun c hc => ?_⟩, hedges.2 hm.hops,
      hconstraints.1 fun c hc => ?_, hfilters.1 fun c hc => ?_⟩ <;>
    exact hm.criteria c (List.mem_filter.1 hc).1

/-! Assignments -/

theorem mem_tokenVars_iff (hb : p.Expresses q.criteria b) {v : String} :
    v ∈ b.tokenVars ↔ ∃ t, p.Names t v := by
  rw [Body.tokenVars, List.mem_map]
  refine ⟨?_, ?_⟩
  · rintro ⟨x, hx, rfl⟩
    obtain ⟨⟨n, l⟩, hl, hs⟩ := forall₂_mem_right hb.nodes hx
    obtain ⟨hl, hreq⟩ := LevelTable.mem_required.1 hl
    exact ⟨l.tier, l, List.mem_of_getElem? hl, hreq, rfl, hs.var.symm⟩
  · rintro ⟨t, l, hl, hreq, -, rfl⟩
    obtain ⟨n, hn⟩ := List.mem_iff_getElem?.1 hl
    obtain ⟨x, hx, hs⟩ := forall₂_mem_left hb.nodes (LevelTable.mem_required.2 ⟨hn, hreq⟩)
    exact ⟨x, hx, hs.var⟩

/-- The tiers that need a token and the variables of the pattern are the same, one to one. -/
theorem exists_equiv (h : Analysis q i p placed) (hr : p.frame.root.hops = [])
    (hb : p.Expresses q.criteria b) :
    ∃ e : {t // p.frame.Reached q.criteria t} ≃ {v // v ∈ b.tokenVars}, ∀ t, p.Names t.1 (e t).1 := by
  choose name hname using fun t : {t // p.frame.Reached q.criteria t} =>
    (h.reached_iff_names hr).1 t.2
  have hmem (t : {t // p.frame.Reached q.criteria t}) : name t ∈ b.tokenVars :=
    (mem_tokenVars_iff hb).2 ⟨t.1, hname t⟩
  have hinj : Function.Injective fun t => (⟨name t, hmem t⟩ : {v // v ∈ b.tokenVars}) := by
    intro t u htu
    exact Subtype.ext ((h.names_inj (hname t) (hname u)).2 (congrArg Subtype.val htu))
  have hsurj : Function.Surjective fun t => (⟨name t, hmem t⟩ : {v // v ∈ b.tokenVars}) := by
    rintro ⟨v, hv⟩
    obtain ⟨t, ht⟩ := (mem_tokenVars_iff hb).1 hv
    have hreached := (h.reached_iff_names hr).2 ⟨v, ht⟩
    exact ⟨⟨t, hreached⟩, Subtype.ext ((h.names_inj (hname ⟨t, hreached⟩) ht).1 rfl)⟩
  exact ⟨Equiv.ofBijective _ ⟨hinj, hsurj⟩, hname⟩

theorem agrees_comp (h : Analysis q i p placed)
    {e : {t // p.frame.Reached q.criteria t} ≃ {v // v ∈ b.tokenVars}}
    (he : ∀ t, p.Names t.1 (e t).1) (σ : {v // v ∈ b.tokenVars} → G.Node) :
    p.Agrees q.criteria (assigned σ) (σ ∘ e) := by
  intro t v hv
  obtain rfl : (e t).1 = v := (h.names_inj (he t) hv).1 rfl
  exact dif_pos (e t).2

end Analysis

end TierQuery
