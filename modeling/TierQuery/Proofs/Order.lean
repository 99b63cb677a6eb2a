import TierQuery.Proofs.Canonical

/-! The order of the nodes in a pattern. Levels higher in the hierarchy come first, then those with
fewer hops, and the ones that are left come in the order in which the query mentions them. -/

namespace TierQuery

/-! Stable sorting -/

section Sorting

variable {α : Type} {r : α → α → Bool} {R : α → α → Prop}

/-- `a` precedes `b`, or neither precedes the other and `R` has `a` before `b`. -/
def SortedBefore (r : α → α → Bool) (R : α → α → Prop) (a b : α) : Prop :=
  r a b = true ∨ r b a = false ∧ R a b

variable (htrans : ∀ a b c, r a b = true → r b c = true → r a c = true)
  (hneg : ∀ a b c, r a b = false → r b c = false → r a c = false)

include htrans hneg

theorem pairwise_insertBefore {x : α} {ys : List α} (hx : ∀ y ∈ ys, R x y)
    (hys : ys.Pairwise (SortedBefore r R)) :
    (LevelTable.insertBefore (!r · x) x ys).Pairwise (SortedBefore r R) := by
  induction ys with
  | nil => exact List.pairwise_singleton _ _
  | cons y ys ih =>
    obtain ⟨hy, hys'⟩ := List.pairwise_cons.1 hys
    unfold LevelTable.insertBefore
    split
    · next hyx =>
      have hyx : r y x = false := by simpa using hyx
      refine List.pairwise_cons.2 ⟨?_, hys⟩
      intro z hz
      refine Or.inr ⟨?_, hx z hz⟩
      -- what comes after `y` does not precede `x` either
      rcases List.mem_cons.1 hz with rfl | hz
      · exact hyx
      · rcases hy z hz with hyz | ⟨hzy, -⟩
        · cases hzx : r z x with
          | false => rfl
          | true => exact absurd (htrans y z x hyz hzx) (by simp [hyx])
        · exact hneg z y x hzy hyx
    · next hyx =>
      have hyx : r y x = true := by simpa using hyx
      have ih := ih (fun z hz => hx z (List.mem_cons_of_mem _ hz)) hys'
      refine List.pairwise_cons.2 ⟨?_, ih⟩
      intro z hz
      rcases List.mem_cons.1 ((LevelTable.insertBefore_perm _ _ _).mem_iff.1 hz) with rfl | hz
      · exact Or.inl hyx
      · exact hy z hz

theorem pairwise_stableSort {xs : List α} (h : xs.Pairwise R) :
    (LevelTable.stableSort r xs).Pairwise (SortedBefore r R) := by
  induction xs with
  | nil => exact List.Pairwise.nil
  | cons x xs ih =>
    obtain ⟨hx, hxs⟩ := List.pairwise_cons.1 h
    apply pairwise_insertBefore htrans hneg _ (ih hxs)
    intro y hy
    exact hx y ((LevelTable.stableSort_perm _ _).mem_iff.1 hy)

end Sorting

/-! First mention -/

/-- Without repetitions, what an earlier entry contributes comes earlier. -/
theorem pairwise_distinct_flatMap {α β : Type} [DecidableEq α] (g : β → List α) (xs : List β) :
    (distinct (xs.flatMap g)).Pairwise fun a b =>
      xs.findIdx (a ∈ g ·) ≤ xs.findIdx (b ∈ g ·) := by
  induction xs with
  | nil => exact List.Pairwise.nil
  | cons x xs ih =>
    rw [List.flatMap_cons, distinct_append]
    simp only [List.findIdx_cons]
    refine List.pairwise_append.2 ⟨?_, ?_, ?_⟩
    · apply List.pairwise_iff_forall_sublist.2
      intro a b hab
      have ha : a ∈ g x := mem_distinct.1 (hab.subset (by simp))
      simp [ha]
    · apply (ih.filter _).imp_of_mem
      intro a b ha hb hab
      have ha : a ∉ g x := by simpa using (List.mem_filter.1 ha).2
      have hb : b ∉ g x := by simpa using (List.mem_filter.1 hb).2
      simpa [ha, hb] using hab
    · intro a ha b _
      have ha : a ∈ g x := mem_distinct.1 ha
      simp [ha]

/-- No two tiers of a chain have as many hops. -/
theorem Tier.eq_of_mem_chain {a t u : Tier} (ht : t ∈ a.chain) (hu : u ∈ a.chain)
    (h : t.depth = u.depth) : t = u := by
  rcases Tier.mem_chain.1 ht with rfl | ⟨n, -, hn, rfl⟩
  · rcases Tier.mem_chain.1 hu with rfl | ⟨m, -, hm, rfl⟩
    · rfl
    · rw [Tier.depth_cut] at h
      omega
  · rcases Tier.mem_chain.1 hu with rfl | ⟨m, -, hm, rfl⟩
    · rw [Tier.depth_cut] at h
      omega
    · rw [Tier.depth_cut, Tier.depth_cut] at h
      obtain rfl : n = m := by omega
      rfl

theorem Hierarchy.distance?_eq_some_iff {h : Hierarchy} {lower upper : String} {n : Nat} :
    h.distance? lower upper = some n ↔
      ∃ lo hi, h.position? lower = some lo ∧ h.position? upper = some hi ∧ lo < hi ∧ n = hi - lo := by
  unfold distance?
  cases h.position? lower with
  | none => simp
  | some lo =>
    cases h.position? upper with
    | none => simp
    | some hi => by_cases hlt : lo < hi <;> simp [hlt, eq_comm]

theorem Hierarchy.isAbove_iff_distance? {h : Hierarchy} {upper lower : String} :
    h.isAbove upper lower = true ↔ ∃ n, h.distance? lower upper = some n :=
  Option.isSome_iff_exists

theorem Hierarchy.isAbove_iff {h : Hierarchy} {upper lower : String} :
    h.isAbove upper lower = true ↔
      ∃ lo hi, h.position? lower = some lo ∧ h.position? upper = some hi ∧ lo < hi := by
  simp only [isAbove_iff_distance?, distance?_eq_some_iff]
  refine ⟨?_, ?_⟩
  · rintro ⟨n, lo, hi, hlo, hhi, hlt, -⟩
    exact ⟨lo, hi, hlo, hhi, hlt⟩
  · rintro ⟨lo, hi, hlo, hhi, hlt⟩
    exact ⟨hi - lo, lo, hi, hlo, hhi, hlt, rfl⟩

namespace Frame

/-- The spelling `a` mentions the tier `t`: it is its canonical form or on the way there. -/
def mentions (f : Frame) (t a : Tier) : Bool := (f.canonical a).toOption.any (t ∈ ·.chain)

/-- Which of the spellings mentions the tier first. -/
def firstMention (f : Frame) (spellings : List Tier) (t : Tier) : Nat :=
  spellings.findIdx (f.mentions t)

/-- The position in the hierarchy, if the hierarchy has the searched-for level at all. -/
def height (f : Frame) (t : Tier) : Nat := (t.position? f.hierarchy).getD 0

/-- Pattern order: by height from above, then by hops, then by first mention. -/
def Before (f : Frame) (spellings : List Tier) (t u : Tier) : Prop :=
  f.height u < f.height t ∨ f.height t = f.height u ∧
    (t.depth < u.depth ∨ t.depth = u.depth ∧
      f.firstMention spellings t < f.firstMention spellings u)

/-! Positions -/

/-- Hops never lead down, so that the position is at least that of the origin. -/
theorem position?_of_walkable {h : Hierarchy} {a : Tier}
    (hw : walkable h (some a.origin) a.hops = true) :
    h.position? a.origin = none ∧ a.position? h = none ∨
      ∃ r n, h.position? a.origin = some r ∧ a.position? h = some n ∧ r ≤ n := by
  have start (o : String) : h.position? o = none ∧ h.position? o = none ∨
      ∃ r n, h.position? o = some r ∧ h.position? o = some n ∧ r ≤ n := by
    cases h.position? o with
    | none => simp
    | some r => simp
  obtain ⟨o, hs, d, ts, ks⟩ := a
  induction hs generalizing o with
  | nil => exact start o
  | cons hop hs ih =>
    cases hop with
    | following => exact ih o hw
    | previous => exact ih o hw
    | speaker =>
      -- nothing follows a speaker
      cases hs with
      | nil => exact start o
      | cons _ _ => simp [walkable] at hw
    | up u =>
      simp only [walkable, Bool.and_eq_true] at hw
      obtain ⟨lo, hi, ho, hu, hlt⟩ := Hierarchy.isAbove_iff.1 hw.1
      have hp : Tier.position? h ⟨o, .up u :: hs, d, ts, ks⟩
          = Tier.position? h ⟨u, hs, d, ts, ks⟩ := by
        simp [Tier.position?, hu]
      rw [hp]
      rcases ih u hw.2 with ⟨hnone, -⟩ | ⟨r, n, hr, hn, hle⟩
      · simp [hu] at hnone
      · obtain rfl : hi = r := Option.some.inj (hu.symm.trans hr)
        exact Or.inr ⟨lo, n, ho, hn, by omega⟩

/-- Of a grounded tier the table has the height above the root. -/
theorem height_eq {f : Frame} (hr : f.root.hops = []) {t : Tier} (ht : f.Grounded t) :
    f.height t = LevelTable.positionAbove f t + f.height f.root := by
  have hroot : f.root.position? f.hierarchy = f.hierarchy.position? t.origin := by
    rw [Tier.position?, hr, ht.origin]
    rfl
  unfold height LevelTable.positionAbove
  rw [hroot]
  rcases position?_of_walkable ht.walkable with ⟨ho, hp⟩ | ⟨r, n, ho, hp, hle⟩
  · simp [ho, hp]
  · simp only [ho, hp, Option.getD_some]
    omega

end Frame

/-! The table -/

namespace LevelTable

variable {f : Frame} {placed : List (Mention × Tier)}

theorem position_of_mem {l : Level} (h : l ∈ levelsOf f placed) :
    l.position = positionAbove f l.tier := by
  obtain ⟨n, hn⟩ := List.mem_iff_getElem?.1 h
  obtain ⟨a, name, -, -, rfl⟩ := getElem?_levelsOf.1 hn
  rfl

theorem firstMention_eq (hp : ∀ x ∈ placed, f.canonical x.1.tier = .ok x.2) (t : Tier) :
    f.firstMention (placed.map (·.1.tier)) t = placed.findIdx (t ∈ ·.2.chain) := by
  induction placed with
  | nil => rfl
  | cons x xs ih =>
    have hx : f.mentions t x.1.tier = decide (t ∈ x.2.chain) := by
      simp [Frame.mentions, hp x List.mem_cons_self, Except.toOption]
    have ih := ih fun y hy => hp y (List.mem_cons_of_mem _ hy)
    rw [Frame.firstMention] at ih ⊢
    rw [List.map_cons, List.findIdx_cons, List.findIdx_cons, hx, ih]

/-- Two tiers with as many hops are not mentioned first in the same place. -/
theorem eq_of_findIdx_eq {t u : Tier} (hd : t.depth = u.depth) (ht : ∃ x ∈ placed, t ∈ x.2.chain)
    (h : placed.findIdx (t ∈ ·.2.chain) = placed.findIdx (u ∈ ·.2.chain)) : t = u := by
  have hlt : placed.findIdx (t ∈ ·.2.chain) < placed.length :=
    List.findIdx_lt_length_of_exists (by simpa using ht)
  have htm := List.findIdx_getElem (w := hlt)
  have hum := List.findIdx_getElem (w := h ▸ hlt)
  simp only [← h, decide_eq_true_eq] at htm hum
  exact Tier.eq_of_mem_chain htm hum hd

/-- Of the tiers with as many hops, the table has the one mentioned first first. -/
theorem pairwise_tiersOf (hr : f.root.hops = [])
    (hp : ∀ x ∈ placed, f.canonical x.1.tier = .ok x.2) :
    (tiersOf f placed).Pairwise fun t u => t.depth = u.depth →
      f.firstMention (placed.map (·.1.tier)) t < f.firstMention (placed.map (·.1.tier)) u := by
  have hle : (tiersOf f placed).Pairwise fun t u => t = f.root ∨
      placed.findIdx (t ∈ ·.2.chain) ≤ placed.findIdx (u ∈ ·.2.chain) := by
    rw [tiersOf, Tier.chain_eq_singleton hr, List.singleton_append, distinct]
    refine List.pairwise_cons.2 ⟨fun _ _ => Or.inl rfl, ?_⟩
    exact ((pairwise_distinct_flatMap (·.2.chain) placed).filter _).imp Or.inr
  apply (hle.and nodup_tiersOf).imp_of_mem
  intro t u ht hu hlt hd
  obtain ⟨hle, hne⟩ := hlt
  rw [firstMention_eq hp, firstMention_eq hp]
  have htroot : t ≠ f.root := by
    rintro rfl
    -- the root is the only tier without hops
    have hu0 : u.hops = [] := by
      rw [Tier.depth, hr, List.length_nil] at hd
      exact List.length_eq_zero_iff.1 hd.symm
    exact hne ((grounded_of_mem hr hp hu).root hu0).symm
  have hmem : ∃ x ∈ placed, t ∈ x.2.chain := by
    refine (mem_tiersOf.1 ht).resolve_left fun h => htroot ?_
    rwa [Tier.chain_eq_singleton hr, List.mem_singleton] at h
  have hne := fun he => hne (eq_of_findIdx_eq hd hmem he)
  exact Nat.lt_of_le_of_ne (hle.resolve_left htroot) hne

/-! Required levels -/

theorem precedes_iff {x y : LevelId × Level} :
    precedes x y = true ↔ y.2.position < x.2.position ∨
      x.2.position = y.2.position ∧ x.2.tier.depth < y.2.tier.depth := by
  simp [precedes]

theorem precedes_eq_false_iff {x y : LevelId × Level} :
    precedes x y = false ↔ x.2.position < y.2.position ∨
      x.2.position = y.2.position ∧ y.2.tier.depth ≤ x.2.tier.depth := by
  rw [← Bool.not_eq_true, precedes_iff]
  omega

/-- The required levels are in pattern order. -/
theorem pairwise_required {t : LevelTable} (ht : t.levels = levelsOf f placed)
    (hr : f.root.hops = []) (hp : ∀ x ∈ placed, f.canonical x.1.tier = .ok x.2) :
    (t.required.map (·.2.tier)).Pairwise (f.Before (placed.map (·.1.tier))) := by
  have hindexed : t.indexed.map (·.2.tier) = tiersOf f placed := by
    rw [← map_tier_levelsOf, ← ht, ← t.map_snd_indexed, List.map_map]
    rfl
  have hfirst := List.pairwise_map.1 (hindexed ▸ pairwise_tiersOf hr hp)
  have hsorted := pairwise_stableSort (r := precedes)
    (fun a b c hab hbc => by rw [precedes_iff] at *; omega)
    (fun a b c hab hbc => by rw [precedes_eq_false_iff] at *; omega)
    (hfirst.filter (·.2.required))
  apply List.pairwise_map.2 (hsorted.imp_of_mem _)
  intro x y hx hy hxy
  have hheight (z : LevelId × Level) (hz : z ∈ t.required) :
      f.height z.2.tier = z.2.position + f.height f.root := by
    have hl : z.2 ∈ levelsOf f placed := ht ▸ List.mem_of_getElem? (mem_required.1 hz).1
    rw [position_of_mem hl]
    refine f.height_eq hr (grounded_of_mem hr hp ?_)
    exact map_tier_levelsOf ▸ List.mem_map_of_mem hl
  rw [Frame.Before, hheight x hx, hheight y hy]
  rcases hxy with hxy | ⟨hyx, hfirst⟩
  · rw [precedes_iff] at hxy
    omega
  · rw [precedes_eq_false_iff] at hyx
    omega

end LevelTable

end TierQuery
