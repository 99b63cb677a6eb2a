import Mathlib.Order.Defs.Unbundled
import TierQuery.Proofs.Order
import TierQuery.Proofs.RoundTrip

/-! Positions in a hierarchy. A level is known by its name, and the steps between two levels are
counted by their positions, which is right where every name stands once. Built from a list of names,
a hierarchy has no name twice. Read as JSON it is the list as it stands, and past a name that stands
there twice the steps are too many. -/

namespace TierQuery

open Json (Value)
open Json.Shape

/-! First positions -/

/-- What comes earlier without repetitions is found earlier with them. -/
theorem pairwise_idxOf_distinct {α : Type} [DecidableEq α] (as : List α) :
    (distinct as).Pairwise fun a b => as.idxOf a < as.idxOf b := by
  induction as with
  | nil => exact List.Pairwise.nil
  | cons x as ih =>
    have hlater {a : α} (ha : a ≠ x) : (x :: as).idxOf a = as.idxOf a + 1 :=
      List.idxOf_cons_ne as ha.symm
    refine List.pairwise_cons.2 ⟨fun b hb => ?_, (ih.filter _).imp_of_mem fun ha hb hab => ?_⟩
    · have hb : b ≠ x := by simpa using (List.mem_filter.1 hb).2
      rw [List.idxOf_cons_self, hlater hb]
      omega
    · rw [hlater (by simpa using (List.mem_filter.1 ha).2),
        hlater (by simpa using (List.mem_filter.1 hb).2)]
      omega

/-- Numbers that grow along a list grow by one at least from each entry to the next. -/
theorem add_le_of_pairwise {α : Type} {f : α → Nat} {as : List α}
    (h : as.Pairwise fun a b => f a < f b) {i k : Nat} {a b : α} (ha : as[i]? = some a)
    (hb : as[i + k]? = some b) : f a + k ≤ f b := by
  induction k generalizing b with
  | zero =>
    obtain rfl : a = b := Option.some.inj (ha.symm.trans hb)
    exact Nat.le_refl _
  | succ k ih =>
    obtain ⟨hlt, rfl⟩ := List.getElem?_eq_some_iff.1 hb
    have hprev : i + k < as.length := by omega
    have hstep := List.pairwise_iff_getElem.1 h (i + k) (i + (k + 1)) hprev hlt (by omega)
    have hrest := ih (List.getElem?_eq_getElem hprev)
    omega

namespace Hierarchy

variable {h : Hierarchy} {a b lower upper : String} {i m n : Nat} {names : List String}

theorem position?_eq_some_iff : h.position? a = some i ↔ a ∈ h.levels ∧ h.levels.idxOf a = i := by
  rw [position?, List.findIdx?_eq_some_iff_findIdx_eq]
  refine and_congr_left ?_
  rintro rfl
  exact List.idxOf_lt_length_iff

theorem getElem?_of_position? (hi : h.position? a = some i) : h.levels[i]? = some a := by
  obtain ⟨ha, rfl⟩ := position?_eq_some_iff.1 hi
  exact List.getElem?_idxOf ha

theorem position?_of_mem (ha : a ∈ h.levels) : h.position? a = some (h.levels.idxOf a) :=
  position?_eq_some_iff.2 ⟨ha, rfl⟩

/-! Chains of levels -/

/-- A way from one level up to another, level by level, with the steps that it takes in all. -/
inductive Climbs (h : Hierarchy) : String → String → Nat → Prop
  | one {lower upper : String} {n : Nat} :
    h.distance? lower upper = some n → h.Climbs lower upper n
  | next {lower between upper : String} {m n : Nat} :
    h.distance? lower between = some m → h.Climbs between upper n → h.Climbs lower upper (m + n)

theorem Climbs.distance? (hc : h.Climbs lower upper n) : h.distance? lower upper = some n := by
  induction hc with
  | one hd => exact hd
  | next hd _ ih =>
    obtain ⟨lo, mid, hlo, hmid, hlt, rfl⟩ := distance?_eq_some_iff.1 hd
    obtain ⟨mid', hi, hmid', hhi, hlt', rfl⟩ := distance?_eq_some_iff.1 ih
    obtain rfl : mid = mid' := Option.some.inj (hmid.symm.trans hmid')
    exact distance?_eq_some_iff.2 ⟨lo, hi, hlo, hhi, by omega, by omega⟩

theorem isAbove_trans {c : String} (hab : h.isAbove b a = true) (hbc : h.isAbove c b = true) :
    h.isAbove c a = true := by
  obtain ⟨m, hm⟩ := isAbove_iff_distance?.1 hab
  obtain ⟨n, hn⟩ := isAbove_iff_distance?.1 hbc
  exact isAbove_iff_distance?.2 ⟨m + n, (Climbs.next hm (.one hn)).distance?⟩

theorem isAbove_irrefl : ¬ h.isAbove a a = true := by
  intro ha
  obtain ⟨lo, hi, hlo, hhi, hlt⟩ := isAbove_iff.1 ha
  exact absurd (Option.some.inj (hlo.symm.trans hhi)) (by omega)

theorem eq_of_not_isAbove (ha : a ∈ h.levels) (hb : b ∈ h.levels) (hab : ¬ h.isAbove b a = true)
    (hba : ¬ h.isAbove a b = true) : a = b := by
  have hle : ¬ h.levels.idxOf a < h.levels.idxOf b := fun hlt =>
    hab (isAbove_iff.2 ⟨_, _, position?_of_mem ha, position?_of_mem hb, hlt⟩)
  have hge : ¬ h.levels.idxOf b < h.levels.idxOf a := fun hlt =>
    hba (isAbove_iff.2 ⟨_, _, position?_of_mem hb, position?_of_mem ha, hlt⟩)
  exact (List.idxOf_inj ha).1 (by omega)

/-- The steps add up along every chain, and of two levels one is above the other. -/
structure OrdersLevels (h : Hierarchy) : Prop where
  sums : ∀ (lower upper : String) (n : Nat),
    h.Climbs lower upper n → h.distance? lower upper = some n
  order : IsStrictTotalOrder {a // a ∈ h.levels} fun a b => h.isAbove b a = true

/-- This holds of every list of names, since a name that stands twice is found at one position. -/
theorem ordersLevels (h : Hierarchy) : h.OrdersLevels where
  sums _ _ _ hc := hc.distance?
  order :=
    { trichotomous := fun a b hab hba => Subtype.ext (eq_of_not_isAbove a.2 b.2 hab hba)
      irrefl := fun _ => isAbove_irrefl
      trans := fun _ _ _ => isAbove_trans }

/-! Positions of the entries -/

/-- An entry is found where it stands, so that the steps between two entries are the difference of
their positions. -/
structure CountsByPosition (h : Hierarchy) : Prop where
  position : ∀ (i : Nat) (a : String), h.levels[i]? = some a → h.position? a = some i
  distance : ∀ (i j : Nat) (a b : String), h.levels[i]? = some a → h.levels[j]? = some b →
    h.distance? a b = if i < j then some (j - i) else none

theorem countsByPosition_iff : h.CountsByPosition ↔ h.levels.Nodup := by
  constructor
  · intro hc
    refine List.pairwise_iff_getElem.2 fun i j hi hj hlt he => ?_
    have hposition := hc.position i h.levels[i] (List.getElem?_eq_getElem hi)
    have hposition' := hc.position j h.levels[i] (he ▸ List.getElem?_eq_getElem hj)
    exact absurd (Option.some.inj (hposition.symm.trans hposition')) (by omega)
  · intro hd
    have hposition (i : Nat) (a : String) (ha : h.levels[i]? = some a) :
        h.position? a = some i := by
      obtain ⟨hi, rfl⟩ := List.getElem?_eq_some_iff.1 ha
      exact position?_eq_some_iff.2 ⟨List.getElem_mem hi, hd.idxOf_getElem i hi⟩
    refine ⟨hposition, fun i j a b ha hb => ?_⟩
    simp only [distance?, hposition i a ha, hposition j b hb]

/-- The levels are the names, each once, in the order in which they first occur. -/
structure ListsOnce (h : Hierarchy) (names : List String) : Prop where
  once : h.levels.Nodup
  same : ∀ a, a ∈ h.levels ↔ a ∈ names
  first : h.levels.Pairwise fun a b => names.idxOf a < names.idxOf b

theorem listsOnce_ofList (names : List String) : (ofList names).ListsOnce names where
  once := nodup_distinct names
  same _ := mem_distinct
  first := pairwise_idxOf_distinct names

theorem ofList_eq_iff : (⟨names⟩ : Hierarchy) = ofList names ↔ names.Nodup := by
  refine ⟨fun he => ?_, fun hn => (congrArg mk (distinct_eq_self hn)).symm⟩
  exact (congrArg (·.levels.Nodup) he).mpr (nodup_distinct names)

theorem listsOnce_mk_iff : (⟨names⟩ : Hierarchy).ListsOnce names ↔ names.Nodup :=
  ⟨fun hl => hl.once, fun hn => ofList_eq_iff.2 hn ▸ listsOnce_ofList names⟩

/-! The names as they stand -/

/-- Names that stand in between twice only add steps. -/
theorem distance?_ofList (hd : (ofList names).distance? lower upper = some n) :
    ∃ m, (⟨names⟩ : Hierarchy).distance? lower upper = some m ∧ n ≤ m := by
  obtain ⟨lo, hi, hlo, hhi, hlt, rfl⟩ := distance?_eq_some_iff.1 hd
  have hposition {a : String} {i : Nat} (ha : (ofList names).position? a = some i) :
      (⟨names⟩ : Hierarchy).position? a = some (names.idxOf a) :=
    position?_of_mem (h := ⟨names⟩) (mem_distinct.1 (position?_eq_some_iff.1 ha).1)
  have hhi' : (distinct names)[lo + (hi - lo)]? = some upper := by
    rw [Nat.add_sub_cancel' hlt.le]
    exact getElem?_of_position? hhi
  have hle := add_le_of_pairwise (pairwise_idxOf_distinct names) (getElem?_of_position? hlo) hhi'
  refine ⟨names.idxOf upper - names.idxOf lower, ?_, by omega⟩
  exact distance?_eq_some_iff.2 ⟨_, _, hposition hlo, hposition hhi, by omega, rfl⟩

/-- Which level is above which does not depend on repetitions. -/
theorem isAbove_ofList : (ofList names).isAbove upper lower = isAbove ⟨names⟩ upper lower := by
  have hof {l u : String} (hu : (ofList names).isAbove u l = true) :
      isAbove ⟨names⟩ u l = true := by
    obtain ⟨n, hn⟩ := isAbove_iff_distance?.1 hu
    obtain ⟨m, hm, -⟩ := distance?_ofList hn
    exact isAbove_iff_distance?.2 ⟨m, hm⟩
  refine Bool.eq_iff_iff.2 ⟨hof, fun hu => ?_⟩
  obtain ⟨lo, hi, hlo, hhi, -⟩ := isAbove_iff.1 hu
  have hlower := mem_distinct.2 (position?_eq_some_iff.1 hlo).1
  have hupper := mem_distinct.2 (position?_eq_some_iff.1 hhi).1
  by_contra hnot
  have hnot' : ¬ (ofList names).isAbove lower upper = true := fun hl =>
    isAbove_irrefl (isAbove_trans (hof hl) hu)
  obtain rfl : lower = upper := eq_of_not_isAbove hlower hupper hnot hnot'
  exact isAbove_irrefl hu

end Hierarchy

/-- Built from names a hierarchy has each name once and counts its steps by position. Read as JSON it
does so exactly where no name stands twice. Any hierarchy orders its levels, and either way the
names are in the same order, with no fewer steps where they are read. -/
theorem levels_count_by_position_iff (names : List String) :
    (Hierarchy.ofList names).ListsOnce names ∧ (Hierarchy.ofList names).CountsByPosition ∧
      (∀ h : Hierarchy, h.OrdersLevels) ∧
      ∃ read, Hierarchy.ofJson (textList names) = .ok read ∧
        (read = .ofList names ↔ names.Nodup) ∧ (read.ListsOnce names ↔ names.Nodup) ∧
        (read.CountsByPosition ↔ names.Nodup) ∧
        ∀ lower upper, (Hierarchy.ofList names).isAbove upper lower = read.isAbove upper lower ∧
          ∀ n, (Hierarchy.ofList names).distance? lower upper = some n →
            ∃ m, read.distance? lower upper = some m ∧ n ≤ m := by
  have hread : Hierarchy.ofJson (textList names) = .ok ⟨names⟩ := by
    have hnames : sequence string (.array (names.map .text)) = .ok names :=
      sequence_map Value.text (fun _ => rfl) names
    rw [Hierarchy.ofJson, textList, hnames]
    rfl
  refine ⟨Hierarchy.listsOnce_ofList names,
    Hierarchy.countsByPosition_iff.2 (nodup_distinct names), Hierarchy.ordersLevels, _, hread,
    Hierarchy.ofList_eq_iff, Hierarchy.listsOnce_mk_iff, Hierarchy.countsByPosition_iff, ?_⟩
  exact fun _ _ => ⟨Hierarchy.isAbove_ofList, fun _ => Hierarchy.distance?_ofList⟩

/-- A list with phones in it twice is read with both, and then there are three steps, not two, from
phones up to utterances. -/
theorem repeated_level_is_counted_twice :
    ∃ read, Hierarchy.ofJson (textList ["phone", "word", "phone", "utterance"]) = .ok read ∧
      read.levels[2]? = some "phone" ∧ read.position? "phone" = some 0 ∧
      read.distance? "phone" "utterance" = some 3 ∧
      (Hierarchy.ofList ["phone", "word", "phone", "utterance"]).levels
        = ["phone", "word", "utterance"] ∧
      (Hierarchy.ofList ["phone", "word", "phone", "utterance"]).distance? "phone" "utterance"
        = some 2 := by
  refine ⟨⟨["phone", "word", "phone", "utterance"]⟩, rfl, rfl, ?_⟩
  decide +kernel

end TierQuery
