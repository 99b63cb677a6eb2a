import TierQuery.Proofs.CanonicalForms
import TierQuery.Proofs.Steps
import TierQuery.Proofs.Success

/-! Speakers. A way ends at a speaker: no neighbour and no level above is reached from there. But
whether a node can contain another is decided by the name of its level, and a speaker goes by the
name `speaker`. Where a hierarchy has a level of that name above others, a speaker is taken for it. -/

namespace TierQuery

open Json (Value)

variable {π : Type}

/-- The node is reached by a hop to a speaker. -/
def Body.IsSpeaker (b : Body π) (var : String) : Prop :=
  ∃ e ∈ b.allEdges, e.child = var ∧ e.relation = .spokenBy

/-- A query in the hierarchy that searches for the tokens of a level, with its statement. -/
structure Hierarchy.Compiles (h : Hierarchy) (q : Query) (i : Intent) (s : Statement) : Prop where
  hierarchy : q.hierarchy = h
  find : q.find.hops = []
  statement : q.compile i = .ok s

/-- A way ends at a speaker, and where a speaker is tested for what it contains, it is taken for a
level of the hierarchy. -/
structure Plan.EndsAtSpeakers (p : Plan) (b : Body π) : Prop where
  nodes : ∀ l ∈ p.table.levels, b.IsSpeaker l.var ↔ l.tier.isSpeaker = true
  edges : ∀ e ∈ b.allEdges, ¬ b.IsSpeaker e.parent
  contained : ∀ k ∈ b.constraints.filterMap Constraint.test?, b.IsSpeaker k.container →
    ∃ lower, p.frame.hierarchy.StepsUp lower "speaker" k.depth

theorem Tier.isSpeaker_iff {a : Tier} :
    a.isSpeaker = true ↔ a.hops.getLast? = some .speaker := beq_iff_eq

theorem Tier.name_of_isSpeaker {a : Tier} (h : a.isSpeaker = true) : a.name = "speaker" := by
  have hsplit : a.hops.dropLast ++ [.speaker] = a.hops :=
    List.dropLast_append_getLast? _ (isSpeaker_iff.1 h)
  rw [name, ← hsplit, List.foldl_append]
  rfl

theorem Plan.relation_eq_spokenBy_iff {p : Plan} {a : Tier} {hop : Hop} :
    p.relation a hop = .spokenBy ↔ hop = .speaker := by
  cases hop <;> simp [relation]

namespace Analysis

variable {q : Query} {i : Intent} {p : Plan} {placed : List (Mention × Tier)} {b : Body Literal}

/-- The nodes reached by a hop to a speaker are those of the tiers that end in one. -/
theorem isSpeaker_var_iff (h : Analysis q i p placed) (hr : p.frame.root.hops = [])
    (hb : p.body q i = .ok b) {l : Level} (hl : l ∈ p.table.levels) :
    (Statement.ofBody b).body.IsSpeaker l.var ↔ l.tier.isSpeaker = true := by
  constructor
  · rintro ⟨e, he, hchild, hrelation⟩
    obtain ⟨k, -, l', hl', hop, -, hhop, rfl⟩ := (h.mem_allEdges hr hb).1 he
    obtain rfl : l' = l := h.level_of_var hl' hl hchild
    obtain rfl := Plan.relation_eq_spokenBy_iff.1 hrelation
    exact Tier.isSpeaker_iff.2 hhop
  · intro hs
    have hlast := Tier.isSpeaker_iff.1 hs
    obtain ⟨n, hn⟩ := List.mem_iff_getElem?.1 hl
    have hh : l.tier.hops ≠ [] := by
      intro hh
      rw [hh] at hlast
      cases hlast
    obtain ⟨m, k, hop, -, hk, hkt, -, hhop, -⟩ := h.edge?_eq hr hn hh
    obtain rfl : hop = .speaker := Option.some.inj (hhop.symm.trans hlast)
    have hedge := (h.mem_allEdges hr hb).2
      ⟨k, List.mem_of_getElem? hk, l, hl, .speaker, hkt, hhop, rfl⟩
    exact ⟨_, hedge, rfl, rfl⟩

/-- No hop follows the one to a speaker. -/
theorem not_isSpeaker_parent (h : Analysis q i p placed) (hr : p.frame.root.hops = [])
    (hb : p.body q i = .ok b) {e : Edge} (he : e ∈ (Statement.ofBody b).body.allEdges) :
    ¬ (Statement.ofBody b).body.IsSpeaker e.parent := by
  obtain ⟨k, hk, l, hl, hop, hkt, hhop, rfl⟩ := (h.mem_allEdges hr hb).1 he
  intro hs
  have hlast := Tier.isSpeaker_iff.1 ((h.isSpeaker_var_iff hr hb hk).1 hs)
  have hgrounded := h.grounded hr hl
  have hhops := (hgrounded.hops_above hr hhop).2
  rw [← hkt, ← List.dropLast_append_getLast? _ hlast, List.append_assoc] at hhops
  have hafter := Frame.walkable_speaker (hhops ▸ hgrounded.walkable)
  cases hafter

theorem endsAtSpeakers (h : Analysis q i p placed) (hr : p.frame.root.hops = [])
    (hb : p.body q i = .ok b) : p.EndsAtSpeakers (Statement.ofBody b).body where
  nodes _ hl := h.isSpeaker_var_iff hr hb hl
  edges _ he := h.not_isSpeaker_parent hr hb he
  contained k hk hs := by
    obtain ⟨c, -, hc⟩ := forall₂_mem_right (h.contained hb) hk
    obtain ⟨l, hl, -, hvar, hsteps⟩ := hc.container
    have hspeaker := (h.isSpeaker_var_iff hr hb hl).1 (hvar ▸ hs)
    exact ⟨_, Tier.name_of_isSpeaker hspeaker ▸ hsteps⟩

end Analysis

/-- What is reached over a speaker in one spelling ends at a speaker in every other. -/
theorem Frame.isSpeaker_of_canonical {f : Frame} {a c : Tier} (hc : f.canonical a = .ok c)
    (ha : a.isSpeaker = true) : c.isSpeaker = true := by
  obtain ⟨r, s, hrooted, -, hs, hlast⟩ := canonical_eq_ok_iff.1 hc
  obtain rfl := Discourse.apply_eq_ok hs
  have hr : r.hops.getLast? = some .speaker := by
    unfold rooted at hrooted
    split_ifs at hrooted
    · cases hrooted
      exact Tier.isSpeaker_iff.1 ha
    · cases hrooted
      exact List.mem_getLast?_cons (Tier.isSpeaker_iff.1 ha)
  rcases hlast with ⟨hnil, -⟩ | ⟨-, rfl⟩
  · replace hnil : r.hops = [] := hnil
    rw [hnil] at hr
    cases hr
  · exact Tier.isSpeaker_iff.2 hr

/-! A level named like speakers -/

/-- What the speaker of a token contains on the level of the token, by its label. -/
def Criterion.inSpeakerOf (level label : String) : Criterion :=
  let token := Tier.ofLevel level
  .contains (token.hop .speaker) (token.attribute .label) (.text label)

/-- Tokens of the level whose speaker contains a token of the level with the label. -/
def Query.ofSpeakersWith (h : Hierarchy) (level label : String) : Query :=
  (Query.ofFind h (Tier.ofLevel level)).filter (.inSpeakerOf level label)

theorem Discourse.labels_inSpeakerOf (root : Tier) (level label : String) :
    labels root (.inSpeakerOf level label) = [] := by
  have htiers : ∀ a ∈ (Criterion.inSpeakerOf level label).tiers, a.discourse = none := by
    intro a ha
    rcases List.mem_cons.1 (mem_distinct.1 ha) with rfl | ha
    · rfl
    · obtain rfl := List.mem_singleton.1 ha
      rfl
  rw [labels, List.append_eq_nil_iff]
  refine ⟨List.filterMap_eq_nil_iff.2 fun a ha => htiers a (List.mem_filter.1 ha).1, rfl⟩

theorem Frame.ofQuery_inSpeakerOf (h : Hierarchy) (level label : String) :
    ofQuery h (.ofLevel level) [.inSpeakerOf level label] = .ok ⟨h, .ofLevel level, none⟩ := by
  have hcollect : Discourse.collect (.ofLevel level) [.inSpeakerOf level label] = .ok none := by
    rw [Discourse.collect, List.flatMap_singleton, Discourse.labels_inSpeakerOf]
    rfl
  rw [ofQuery, hcollect]
  rfl

/-- The container goes by the name of a level above, which is all that is asked of it. -/
theorem Query.ofSpeakersWith_compiles {h : Hierarchy} {level : String} (label : String)
    (hl : h.isAbove "speaker" level = true) :
    ∃ s, h.Compiles (ofSpeakersWith h level label) .count s := by
  let f : Frame := ⟨h, .ofLevel level, none⟩
  let container := (Tier.ofLevel level).hop .speaker
  have hcontainer : f.canonical container = .ok container := by
    have hhops : container.hops ≠ [] := by simp [container, Tier.hop]
    exact Frame.canonical_eq_ok_iff.2 ⟨_, _, if_pos rfl, rfl, rfl, .inr ⟨hhops, rfl⟩⟩
  obtain ⟨s, hs⟩ : ∃ s, (ofSpeakersWith h level label).compile .count = .ok s := by
    refine compiles_iff.2
      ⟨rfl, f, Frame.ofQuery_inSpeakerOf h level label, fun a ha => ?_, fun c hc => ?_⟩
    · obtain rfl := List.mem_singleton.1 ha
      exact ⟨_, hcontainer⟩
    · obtain rfl := List.mem_singleton.1 hc
      have hlabel : Property.label ≠ .duration := by decide
      refine ⟨⟨hlabel, rfl, _, hcontainer, hl⟩, fun t _ _ hsite => ?_⟩
      replace hsite : Site.constraints = .node t := hsite
      cases hsite
  exact ⟨s, rfl, rfl, hs⟩

namespace Hierarchy.Compiles

variable {h : Hierarchy} {q : Query} {i : Intent} {s : Statement}

theorem exists_analysis (hs : h.Compiles q i s) : ∃ p placed b, Analysis q i p placed ∧
    p.frame.hierarchy = h ∧ p.frame.root.hops = [] ∧ p.body q i = .ok b ∧ s = .ofBody b := by
  obtain ⟨-, p, b, hp, hb, rfl⟩ := Query.compile_eq_ok_iff.1 hs.statement
  obtain ⟨placed, ha⟩ := Query.plan_eq_ok_iff.1 hp
  have hframe := (Frame.ofQuery_eq_ok ha.frame).1
  exact ⟨p, placed, b, ha, hframe.trans hs.hierarchy, ha.root_hops hs.find, hb, rfl⟩

theorem endsAtSpeakers (hs : h.Compiles q i s) :
    ∃ p, q.plan i = .ok p ∧ p.frame.hierarchy = h ∧ p.EndsAtSpeakers s.body := by
  obtain ⟨p, placed, b, ha, hh, hr, hb, rfl⟩ := hs.exists_analysis
  exact ⟨p, Query.plan_eq_ok_iff.2 ⟨placed, ha⟩, hh, ha.endsAtSpeakers hr hb⟩

/-- A speaker that a criterion has as its container is a container in the statement. -/
theorem exists_speaker_container (hs : h.Compiles q i s) {c : Tier × AttributePath}
    (hc : c ∈ q.criteria.filterMap Criterion.contained?) (hspeaker : c.1.isSpeaker = true) :
    ∃ k ∈ s.body.constraints.filterMap Constraint.test?, s.body.IsSpeaker k.container := by
  obtain ⟨p, placed, b, ha, -, hr, hb, rfl⟩ := hs.exists_analysis
  obtain ⟨k, hk, htests⟩ := forall₂_mem_left (ha.contained hb) hc
  obtain ⟨l, hl, hcanonical, hvar, -⟩ := htests.container
  have hspeaker' := Frame.isSpeaker_of_canonical hcanonical hspeaker
  exact ⟨k, hk, hvar ▸ (ha.isSpeaker_var_iff hr hb hl).2 hspeaker'⟩

end Hierarchy.Compiles

/-- Every way ends at a speaker. That no speaker is tested for what it contains is so in just those
hierarchies that have no level `speaker` above another. -/
theorem speakers_contain_nothing_iff (h : Hierarchy) :
    (∀ q i s, h.Compiles q i s →
        ∃ p, q.plan i = .ok p ∧ p.frame.hierarchy = h ∧ p.EndsAtSpeakers s.body) ∧
      ((∀ q i s, h.Compiles q i s →
          ∀ k ∈ s.body.constraints.filterMap Constraint.test?, ¬ s.body.IsSpeaker k.container) ↔
        ∀ lower, h.isAbove "speaker" lower = false) := by
  refine ⟨fun q i s hs => hs.endsAtSpeakers, fun hnone lower => ?_,
    fun hnone q i s hs k hk hspeaker => ?_⟩
  · rw [Bool.eq_false_iff]
    intro habove
    obtain ⟨s, hs⟩ := Query.ofSpeakersWith_compiles "" habove
    have hc : ((Tier.ofLevel lower).hop .speaker, (Tier.ofLevel lower).attribute .label)
        ∈ (Query.ofSpeakersWith h lower "").criteria.filterMap Criterion.contained? :=
      List.mem_singleton.2 rfl
    obtain ⟨k, hk, hspeaker⟩ := hs.exists_speaker_container hc (by simp [Tier.isSpeaker, Tier.hop])
    exact hnone _ _ s hs k hk hspeaker
  · obtain ⟨p, -, hh, hends⟩ := hs.endsAtSpeakers
    obtain ⟨lower, hsteps⟩ := hends.contained k hk hspeaker
    rw [hh] at hsteps
    have habove : h.isAbove "speaker" lower = true :=
      Hierarchy.isAbove_iff_distance?.2 ⟨_, hsteps.counted⟩
    simp [hnone lower] at habove

/-- Phones of Alice with the word `cat` in a container, in a hierarchy with a level `speaker`. -/
def Query.phonesOfAlice (container : Tier) : Query :=
  let phone := Tier.ofLevel "phone"
  ((Query.ofFind (.ofList ["phone", "word", "speaker"]) phone).filter
    (((phone.hop .speaker).attribute ⟨"name"⟩).compare .eq (.text "Alice"))).filter
    (.contains container ((Tier.ofLevel "word").attribute .label) (.text "cat"))

/-- The level is a node of its own, two levels up, and the word is looked for below that. -/
theorem phonesOfAlice_end_at_speakers :
    ∃ (s : Statement) (p : Plan),
      (Query.phonesOfAlice ((Tier.ofLevel "phone").hop (.up "speaker"))).compile .rows = .ok s ∧
      s.body.allEdges = [⟨"node_phone", "node_phone_speaker_2", .containedBy 2⟩,
        ⟨"node_phone", "node_phone_speaker", .spokenBy⟩] ∧
      (s.body.constraints.filterMap Constraint.test?).map (·.container) = ["node_phone_speaker_2"] ∧
      p.EndsAtSpeakers s.body := by
  obtain ⟨s, hs, he⟩ := exists_ok_of_toOption_map
    (x := (Query.phonesOfAlice ((Tier.ofLevel "phone").hop (.up "speaker"))).compile .rows)
    (g := fun s => (s.body.allEdges,
      (s.body.constraints.filterMap Constraint.test?).map (·.container)))
    (b := ([⟨"node_phone", "node_phone_speaker_2", .containedBy 2⟩,
      ⟨"node_phone", "node_phone_speaker", .spokenBy⟩], ["node_phone_speaker_2"]))
    (by decide +kernel)
  obtain ⟨hedges, htests⟩ := Prod.mk.inj he
  obtain ⟨hends, -⟩ := speakers_contain_nothing_iff (.ofList ["phone", "word", "speaker"])
  obtain ⟨p, -, -, hp⟩ := hends _ _ s ⟨rfl, rfl, hs⟩
  exact ⟨s, p, hs, hedges, htests, hp⟩

/-- With the speaker itself as the container the word is looked for below the speaker. -/
theorem speaker_contains_words :
    ∃ s : Statement,
      (Query.phonesOfAlice ((Tier.ofLevel "phone").hop .speaker)).compile .rows = .ok s ∧
      (s.body.constraints.filterMap Constraint.test?).map (fun k => (k.container, k.depth))
        = [("node_phone_speaker", 1)] ∧
      s.body.IsSpeaker "node_phone_speaker" := by
  obtain ⟨s, hs, he⟩ := exists_ok_of_toOption_map
    (x := (Query.phonesOfAlice ((Tier.ofLevel "phone").hop .speaker)).compile .rows)
    (g := fun s => (s.body.allEdges,
      (s.body.constraints.filterMap Constraint.test?).map (fun k => (k.container, k.depth))))
    (b := ([⟨"node_phone", "node_phone_speaker", .spokenBy⟩], [("node_phone_speaker", 1)]))
    (by decide +kernel)
  obtain ⟨hedges, htests⟩ := Prod.mk.inj he
  exact ⟨s, hs, htests, _, hedges ▸ List.mem_singleton.2 rfl, rfl, rfl⟩

end TierQuery
