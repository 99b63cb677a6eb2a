import TierQuery.Proofs.Scope

/-! The discourse that a query agrees on. It depends on which discourses are named for the searched-for
level, and not on the order in which they are named or on who names them. -/

namespace TierQuery.Discourse

/-- A discourse is named for the searched-for level: by the label of the searched-for type, by that of
a tier which mentions the level directly, or by a literal that its discourse equals or is one of. -/
inductive Named (find : Tier) (cs : List Criterion) : String → Prop
  | searchedFor {d : String} : find.discourse = some d → Named find cs d
  | mention {c : Criterion} {a : Tier} {d : String} : c ∈ cs → a ∈ c.tiers →
    a.origin = find.origin → a.hops = [] → a.discourse = some d → Named find cs d
  | equality {path : AttributePath} {d : String} :
    .comparison path .eq (.value (.text d)) ∈ cs → path.tier.origin = find.origin →
    path.tier.hops = [] → path.property = .discourse → Named find cs d
  | membership {path : AttributePath} {d : String} :
    .comparison path .isIn (.value (.array [.text d])) ∈ cs → path.tier.origin = find.origin →
    path.tier.hops = [] → path.property = .discourse → Named find cs d

theorem Named.mono {find : Tier} {cs cs' : List Criterion} {d : String} (h : Named find cs d)
    (hcs : cs ⊆ cs') : Named find cs' d := by
  cases h with
  | searchedFor hd => exact .searchedFor hd
  | mention hc ha ho hh hd => exact .mention (hcs hc) ha ho hh hd
  | equality hc ho hh hp => exact .equality (hcs hc) ho hh hp
  | membership hc ho hh hp => exact .membership (hcs hc) ho hh hp

theorem named_iff {find : Tier} {cs : List Criterion} {d : String} :
    Named find cs d ↔ d ∈ find.discourse.toList ++ cs.flatMap (labels find) := by
  rw [List.mem_append, Option.mem_toList, List.mem_flatMap]
  refine ⟨?_, ?_⟩
  · intro h
    cases h with
    | searchedFor hd => exact Or.inl hd
    | @mention c a _ hc ha ho hh hd =>
      refine Or.inr ⟨c, hc, List.mem_append_left _ (List.mem_filterMap.2 ⟨a, ?_, hd⟩)⟩
      exact List.mem_filter.2 ⟨ha, by simp [onRoot, ho, hh]⟩
    | equality hc ho hh hp =>
      refine Or.inr ⟨_, hc, List.mem_append_right _ (Option.mem_toList.2 ?_)⟩
      simp [rootLiteral?, onRoot, ho, hh, Criterion.discourseLiteral?, hp]
    | membership hc ho hh hp =>
      refine Or.inr ⟨_, hc, List.mem_append_right _ (Option.mem_toList.2 ?_)⟩
      simp [rootLiteral?, onRoot, ho, hh, Criterion.discourseLiteral?, hp, Json.Value.text?]
  · rintro (hd | ⟨c, hc, hd⟩)
    · exact .searchedFor hd
    · rcases List.mem_append.1 hd with hd | hd
      · obtain ⟨a, ha, hd⟩ := List.mem_filterMap.1 hd
        obtain ⟨ha, hroot⟩ := List.mem_filter.1 ha
        have hroot : a.origin = find.origin ∧ a.hops = [] := by simpa [onRoot] using hroot
        exact .mention hc ha hroot.1 hroot.2 hd
      · have hd := Option.mem_toList.1 hd
        cases c with
        | alignment kind a b => cases hd
        | contains container path v => cases hd
        | comparison path op operand =>
          rw [rootLiteral?] at hd
          split at hd
          · next hroot =>
            have hroot : path.tier.origin = find.origin ∧ path.tier.hops = [] := by
              simpa [onRoot] using hroot
            obtain ⟨path', hp, he | he⟩ := Criterion.discourseLiteral?_eq_some hd
            · cases he
              exact .equality hc hroot.1 hroot.2 hp
            · cases he
              exact .membership hc hroot.1 hroot.2 hp
          · cases hd

/-! Agreement -/

theorem foldlM_agree_eq_some_iff {names : List String} {scope : Option String} {d : String} :
    names.foldlM agree scope = .ok (some d) ↔
      d ∈ scope.toList ++ names ∧ ∀ d' ∈ scope.toList ++ names, d' = d := by
  induction names generalizing scope with
  | nil =>
    rw [List.foldlM_nil]
    cases scope with
    | none => simp [pure, Except.pure]
    | some s => simp [pure, Except.pure, eq_comm]
  | cons name names ih =>
    rw [List.foldlM_cons]
    cases scope with
    | none => exact ih
    | some s =>
      by_cases hs : s = name
      · subst hs
        have hstep : agree (some s) s = .ok (some s) := if_pos rfl
        rw [hstep]
        refine ih.trans ?_
        simp
      · have hstep : agree (some s) name = .error (.conflictingDiscourse s name) := if_neg hs
        rw [hstep]
        refine iff_of_false (fun h => by cases h) fun h => hs ?_
        exact (h.2 s (by simp)).trans (h.2 name (by simp)).symm

theorem foldlM_agree_eq_none_iff {names : List String} {scope : Option String} :
    names.foldlM agree scope = .ok none ↔ scope.toList ++ names = [] := by
  cases names with
  | nil =>
    rw [List.foldlM_nil]
    cases scope <;> simp [pure, Except.pure]
  | cons name names =>
    refine iff_of_false (fun h => ?_) (by simp)
    have hall := (foldlM_agree_eq_ok h).2 name List.mem_cons_self
    cases hall

variable {find : Tier} {cs cs' : List Criterion} {d : String}

/-- A discourse is collected when it is named and no other one is. -/
theorem collect_eq_some_iff :
    collect find cs = .ok (some d) ↔ Named find cs d ∧ ∀ d', Named find cs d' → d' = d := by
  simp only [named_iff]
  exact foldlM_agree_eq_some_iff

/-- Nothing is collected when nothing is named. -/
theorem collect_eq_none_iff : collect find cs = .ok none ↔ ∀ d, ¬ Named find cs d := by
  simp only [named_iff]
  rw [← List.eq_nil_iff_forall_not_mem]
  exact foldlM_agree_eq_none_iff

/-- There is no common discourse when two are named. -/
theorem collect_eq_error_iff :
    (∃ e, collect find cs = .error e) ↔ ∃ d d', Named find cs d ∧ Named find cs d' ∧ d ≠ d' := by
  refine ⟨?_, ?_⟩
  · rintro ⟨e, he⟩
    by_contra hsame
    have hsame : ∀ d d', Named find cs d → Named find cs d' → d' = d := fun d d' hd hd' => by
      by_contra hne
      exact hsame ⟨d', d, hd', hd, hne⟩
    by_cases hnone : ∃ d, Named find cs d
    · obtain ⟨d, hd⟩ := hnone
      have hok := collect_eq_some_iff.2 ⟨hd, fun d' => hsame d d' hd⟩
      rw [he] at hok
      cases hok
    · have hok := collect_eq_none_iff.2 (not_exists.1 hnone)
      rw [he] at hok
      cases hok
  · rintro ⟨d, d', hd, hd', hne⟩
    cases hc : collect find cs with
    | error e => exact ⟨e, rfl⟩
    | ok agreed =>
      cases agreed with
      | none => exact absurd hd (collect_eq_none_iff.1 hc d)
      | some s =>
        obtain ⟨-, hs⟩ := collect_eq_some_iff.1 hc
        exact absurd ((hs d hd).trans (hs d' hd').symm) hne

/-- Criteria in another order name the same discourses. -/
theorem collect_perm (h : cs.Perm cs') {scope : Option String} (hc : collect find cs = .ok scope) :
    collect find cs' = .ok scope := by
  have hnamed : ∀ d, Named find cs' d ↔ Named find cs d := fun d =>
    ⟨fun hd => hd.mono h.symm.subset, fun hd => hd.mono h.subset⟩
  cases scope with
  | none =>
    rw [collect_eq_none_iff] at hc ⊢
    exact fun d hd => hc d ((hnamed d).1 hd)
  | some s =>
    rw [collect_eq_some_iff] at hc ⊢
    exact ⟨(hnamed s).2 hc.1, fun d hd => hc.2 d ((hnamed d).1 hd)⟩

end TierQuery.Discourse
