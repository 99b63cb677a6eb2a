import TierQuery.Proofs.Order
import TierQuery.Proofs.Scope

/-! Canonical forms, and the spellings that lead to them. A canonical form is its own canonical form and
is found at its level, and a tier that is spelled from its own level or from the searched-for level
has the same one. -/

namespace TierQuery

/-! Canonical forms -/

namespace Discourse

theorem apply_self {scope : Option String} {a : Tier}
    (h : ∀ d, scope = some d → a.discourse = some d) : apply scope a = .ok a := by
  cases scope with
  | none => cases ha : a.discourse <;> simp [apply, ha]
  | some d => simp [apply, h d rfl]

end Discourse

namespace Frame

variable {f : Frame} {a c : Tier}

/-- How a tier in canonical form is made. It starts at the searched-for level, and only that level
itself has no hops. Every containment goes up from the level reached, a speaker is the end of the
way, and the tier is in the scope if there is one. -/
structure WellFormed (f : Frame) (c : Tier) : Prop where
  origin : c.origin = f.root.origin
  root : c.hops = [] → c = f.root
  upward : ∀ before u after, c.hops = before ++ .up u :: after →
    ∃ lo hi, f.hierarchy.position? (before.foldl Tier.levelAfter c.origin) = some lo ∧
      f.hierarchy.position? u = some hi ∧ lo < hi
  speaker : ∀ before after, c.hops = before ++ .speaker :: after → after = []
  label : ∀ d, f.scope = some d → c.discourse = some d

theorem walkable_speaker {h : Hierarchy} {l : Option String} {before after : List Hop}
    (hw : walkable h l (before ++ .speaker :: after) = true) : after = [] := by
  induction before generalizing l with
  | nil =>
    cases l with
    | none => simp [walkable] at hw
    | some l => cases after <;> simp_all [walkable]
  | cons hop hs ih =>
    cases l with
    | none => simp [walkable] at hw
    | some l =>
      cases hop with
      | following => exact ih hw
      | previous => exact ih hw
      | speaker => exact ih hw
      | up u =>
        simp only [List.cons_append, walkable, Bool.and_eq_true] at hw
        exact ih hw.2

theorem Grounded.wellFormed (h : f.Grounded c) (hd : ∀ d, f.scope = some d → c.discourse = some d) :
    f.WellFormed c := by
  refine ⟨h.origin, h.root, fun before u after hh => ?_, fun before after hh => ?_, hd⟩
  · have hw := h.walkable
    rw [hh, List.append_cons] at hw
    obtain ⟨n, hn⟩ := distance?_of_walkable (walkable_of_append hw)
    exact Hierarchy.isAbove_iff.1 (Hierarchy.isAbove_iff_distance?.2 ⟨n, hn⟩)
  · exact walkable_speaker (hh ▸ h.walkable)

/-- What is grounded and in the scope is canonical already. -/
theorem Grounded.canonical_self (h : f.Grounded c)
    (hd : ∀ d, f.scope = some d → c.discourse = some d) : f.canonical c = .ok c := by
  refine canonical_eq_ok_iff.2
    ⟨c, c, if_pos h.origin, h.walkable, Discourse.apply_self hd, ?_⟩
  by_cases hh : c.hops = []
  · obtain rfl : c = f.root := h.root hh
    exact Or.inl ⟨hh, by simp [bindRoot]⟩
  · exact Or.inr ⟨hh, rfl⟩

/-- A tier of another level has one canonical form with the same tier from the searched-for level. -/
theorem canonical_rebased (ho : a.origin ≠ f.root.origin) :
    f.canonical a = .ok c ↔ f.canonical (a.rebased f.root.origin) = .ok c := by
  have hrebased : f.rooted (a.rebased f.root.origin) = .ok (a.rebased f.root.origin) := if_pos rfl
  rw [canonical_eq_ok_iff, canonical_eq_ok_iff]
  refine ⟨?_, ?_⟩
  · rintro ⟨r, s, hr, h⟩
    rw [rooted, if_neg ho] at hr
    split at hr
    · cases hr
      exact ⟨_, s, hrebased, h⟩
    · cases hr
  · -- the first hop can be made only if the level of the tier is above
    rintro ⟨r, s, hr, hw, h⟩
    obtain rfl : a.rebased f.root.origin = r := Except.ok.inj (hrebased.symm.trans hr)
    have habove : f.hierarchy.isAbove a.origin f.root.origin = true := by
      have hup := hw
      simp only [Tier.rebased, walkable, Bool.and_eq_true] at hup
      exact hup.1
    exact ⟨_, s, by rw [rooted, if_neg ho, if_pos habove], hw, h⟩

end Frame

/-! The table of levels -/

namespace LevelTable

variable {f : Frame} {placed : List (Mention × Tier)} {h : Hierarchy} {find : Tier}
  {cs : List Criterion}

/-- The tier of a level is a canonical form. -/
theorem canonical_of_mem (hf : Frame.ofQuery h find cs = .ok f) (hr : f.root.hops = [])
    (hp : ∀ x ∈ placed, f.canonical x.1.tier = .ok x.2) {a : Tier} (ha : a ∈ tiersOf f placed) :
    f.canonical a = .ok a :=
  (grounded_of_mem hr hp ha).canonical_self fun _ hd => label_of_mem hf hp hd ha

/-- A canonical form is found at its level, whether or not it is also a spelling in the query. -/
theorem find?_canonical (hp : ∀ x ∈ placed, f.canonical x.1.tier = .ok x.2) {a : Tier}
    (ha : f.canonical a = .ok a) {n : LevelId} (hn : (tiersOf f placed)[n]? = some a) :
    (ofPlaced f placed).find? a = some n := by
  by_cases hx : ∃ x ∈ placed, x.1.tier = a
  · -- then it is a spelling of itself
    obtain ⟨x, hx, rfl⟩ := hx
    obtain ⟨m, hm, ht⟩ := find?_spelling hp hx
    have hxa : x.1.tier = x.2 := Except.ok.inj (ha.symm.trans (hp x hx))
    rw [← index?_eq_some_iff nodup_tiersOf] at hn ht
    rw [hm, ← ht, ← hxa, hn]
  · have hnone : (ofPlaced f placed).spellings.find? (·.1 == a) = none := by
      simpa [ofPlaced] using hx
    have hindex : (levelsOf f placed).findIdx? (·.tier == a) = index? (tiersOf f placed) a := by
      rw [index?, ← map_tier_levelsOf, List.findIdx?_map]
      rfl
    simp only [find?, hnone]
    exact hindex.trans ((index?_eq_some_iff nodup_tiersOf).2 hn)

end LevelTable

/-! Spellings -/

/-- Spellings of one tier: the same one, or one from its own level and one by a hop from the level
`level` to that first. -/
inductive Tier.Respelled (level : String) : Tier → Tier → Prop
  | same (a : Tier) : Respelled level a a
  | rebased {a : Tier} : a.origin ≠ level → Respelled level a (a.rebased level)
  | bare {a : Tier} : a.origin ≠ level → Respelled level (a.rebased level) a

namespace Tier.Respelled

variable {level : String} {a b : Tier}

theorem symm (h : a.Respelled level b) : b.Respelled level a := by
  cases h with
  | same => exact .same a
  | rebased ho => exact .bare ho
  | bare ho => exact .rebased ho

theorem canonical_iff {f : Frame} (h : a.Respelled f.root.origin b) {t : Tier} :
    f.canonical a = .ok t ↔ f.canonical b = .ok t := by
  cases h with
  | same => exact Iff.rfl
  | rebased ho => exact Frame.canonical_rebased ho
  | bare ho => exact (Frame.canonical_rebased ho).symm

/-- A mention of the searched-for level has one spelling. -/
theorem onRoot {root : Tier} (h : a.Respelled root.origin b) :
    a = b ∨ Discourse.onRoot root a = false ∧ Discourse.onRoot root b = false := by
  cases h with
  | same => exact Or.inl rfl
  | rebased ho =>
    exact Or.inr ⟨by simp [Discourse.onRoot, ho], by simp [Discourse.onRoot, Tier.rebased]⟩
  | bare ho =>
    exact Or.inr ⟨by simp [Discourse.onRoot, Tier.rebased], by simp [Discourse.onRoot, ho]⟩

theorem onRoot_eq {root : Tier} (h : a.Respelled root.origin b) :
    Discourse.onRoot root a = Discourse.onRoot root b := by
  rcases h.onRoot with rfl | ⟨ha, hb⟩
  · rfl
  · rw [ha, hb]

theorem filter_onRoot {root : Tier} (h : a.Respelled root.origin b) :
    [a].filter (Discourse.onRoot root) = [b].filter (Discourse.onRoot root) := by
  rcases h.onRoot with rfl | ⟨ha, hb⟩
  · rfl
  · simp [ha, hb]

end Tier.Respelled

end TierQuery
