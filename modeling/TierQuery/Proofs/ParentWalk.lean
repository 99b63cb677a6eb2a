import TierQuery.Proofs.Projection
import TierQuery.Proofs.Writing

/-! The way back from a level, from parent to parent. Every level but the first comes after its
parent, so each way leads to the first level. There it ends when the type searched for has no hops.
When it has hops, the first level is its own parent, and no way ends. -/

namespace TierQuery

namespace LevelTable

/-- The level `k` steps back from `n`, if there are as many. -/
def back (t : LevelTable) : Nat → LevelId → Option LevelId
  | 0, n => some n
  | k + 1, n => (t.parentOf n).bind (t.back k)

/-- Every level comes after its parent, only the searched-for level has none, and the way back from
any level ends after fewer steps than there are levels. -/
structure ParentsPrecede (f : Frame) (t : LevelTable) : Prop where
  smaller : ∀ n m, t.parentOf n = some m → m < n
  top : ∀ (n : LevelId) (l : Level), t.levels[n]? = some l → l.parent? = none → l.tier = f.root
  ends : ∀ n < t.levels.length, ∃ k < t.levels.length, ∃ m,
    t.back k n = some m ∧ t.parentOf m = none

theorem back_succ (t : LevelTable) (k : Nat) (n : LevelId) :
    t.back (k + 1) n = (t.back k n).bind t.parentOf := by
  induction k generalizing n with
  | zero => cases h : t.parentOf n <;> simp [back, h]
  | succ k ih =>
    rw [back]
    cases h : t.parentOf n with
    | none => simp [back, h]
    | some m => rw [Option.bind_some, ih, back, h, Option.bind_some]

theorem lt_length_of_parentOf {t : LevelTable} {n m : LevelId} (h : t.parentOf n = some m) :
    n < t.levels.length := by
  by_contra hge
  rw [parentOf, List.getElem?_eq_none (Nat.le_of_not_lt hge)] at h
  cases h

section ofPlaced

variable {f : Frame} {placed : List (Mention × Tier)} {n : LevelId} {a : Tier}

theorem exists_tier (h : n < (ofPlaced f placed).levels.length) :
    ∃ a, (tiersOf f placed)[n]? = some a := by
  have hlength : n < (tiersOf f placed).length := by
    rw [← map_tier_levelsOf, List.length_map]
    exact h
  exact ⟨_, List.getElem?_eq_getElem hlength⟩

theorem eq_of_tier {m : LevelId} (hm : (tiersOf f placed)[m]? = some a)
    (hn : (tiersOf f placed)[n]? = some a) : m = n := by
  have hm' := (index?_eq_some_iff nodup_tiersOf).2 hm
  have hn' := (index?_eq_some_iff nodup_tiersOf).2 hn
  exact Option.some.inj (hm'.symm.trans hn')

/-! One step -/

theorem parentOf_ofPlaced (h : (tiersOf f placed)[n]? = some a) :
    (ofPlaced f placed).parentOf n = parentId? (tiersOf f placed) a := by
  obtain ⟨l, hl, rfl⟩ := getElem?_tiersOf_iff.1 h
  have hlevel : (ofPlaced f placed).levels[n]? = some l := hl
  rw [parentOf, hlevel, Option.bind_some]
  obtain ⟨a, name, -, -, rfl⟩ := getElem?_levelsOf.1 hl
  rfl

/-- One step back: nowhere without hops, to the first level behind a single hop, and otherwise to the
tier before the last hop, which has an earlier level. -/
theorem parentOf_cases (h : (tiersOf f placed)[n]? = some a) :
    (a.depth = 0 ∧ (ofPlaced f placed).parentOf n = none) ∨
    (a.depth = 1 ∧ (ofPlaced f placed).parentOf n = some 0) ∨
    (1 < a.depth ∧ ∃ m < n, (ofPlaced f placed).parentOf n = some m ∧
      (tiersOf f placed)[m]? = some (a.cut (a.depth - 1))) := by
  rw [parentOf_ofPlaced h, parentId?]
  rcases Nat.eq_zero_or_pos a.depth with h0 | hpos
  · left
    have hp : a.parent? = none := by
      simp [Tier.parent?, List.length_eq_zero_iff.1 h0]
    exact ⟨h0, by rw [hp]⟩
  right
  have hp : a.parent? = some (a.cut (a.depth - 1)) :=
    Tier.parent?_eq_some_iff.2 ⟨Tier.hops_ne_nil_iff.2 hpos, rfl⟩
  have hdepth : (a.cut (a.depth - 1)).hops.length = a.depth - 1 := by
    have := a.depth_cut (a.depth - 1)
    rw [Tier.depth] at this
    omega
  rw [hp]
  by_cases hone : a.depth = 1
  · left
    have hhops : (a.cut (a.depth - 1)).hops = [] := List.length_eq_zero_iff.1 (by omega)
    exact ⟨hone, by simp [hhops]⟩
  · right
    have hhops : (a.cut (a.depth - 1)).hops ≠ [] := List.length_pos_iff.1 (by omega)
    have hmem := parentsFirst_tiersOf n a _ h hp hhops
    obtain ⟨m, hlt, hm⟩ := List.mem_take_iff_getElem.1 hmem
    have hm' := List.getElem?_eq_some_iff.2 ⟨Nat.lt_of_lt_of_le hlt (Nat.min_le_right _ _), hm⟩
    refine ⟨by omega, m, Nat.lt_of_lt_of_le hlt (Nat.min_le_left _ _), ?_, hm'⟩
    simpa [hhops] using (index?_eq_some_iff nodup_tiersOf).2 hm'

/-- Only the searched-for level may be without hops, and then it is the first. -/
theorem first_of_depth_zero (hp : ∀ x ∈ placed, f.canonical x.1.tier = .ok x.2)
    (h : (tiersOf f placed)[n]? = some a) (h0 : a.depth = 0) : n = 0 ∧ a = f.root := by
  have hhops : a.hops = [] := List.length_eq_zero_iff.1 h0
  have hself (c : Tier) (hc : a ∈ c.chain) : a = c := by
    by_cases hne : c.hops = []
    · simpa [Tier.chain_eq_singleton hne] using hc
    · exact absurd hhops (Tier.hops_of_mem_chain hne hc)
  have hroot : a = f.root := by
    rcases mem_tiersOf.1 (List.mem_of_getElem? h) with hc | ⟨x, hx, hc⟩
    · exact hself _ hc
    · obtain rfl := hself _ hc
      by_contra hne
      exact Frame.hops_of_canonical (hp x hx) hne hhops
  subst hroot
  exact ⟨eq_of_tier h (tiersOf_zero hhops), rfl⟩

theorem parentOf_zero (f : Frame) (placed : List (Mention × Tier)) :
    (ofPlaced f placed).parentOf 0 = if f.root.hops = [] then none else some 0 := by
  have hdepth : f.root.base.depth = min 1 f.root.depth := by
    unfold Tier.base
    split_ifs
    · omega
    · exact f.root.depth_cut 1
  have hzero : f.root.hops = [] ↔ f.root.depth = 0 := List.length_eq_zero_iff.symm
  have hbase : (tiersOf f placed)[0]? = some f.root.base := tiersOf_base
  rcases parentOf_cases hbase with h | h | h
  · rw [h.2, if_pos (hzero.2 (by omega))]
  · rw [h.2, if_neg (fun e => by have := hzero.1 e; omega)]
  · omega

/-- Every level but the first has a parent, and comes after it. -/
theorem exists_parent (hp : ∀ x ∈ placed, f.canonical x.1.tier = .ok x.2)
    (h : n < (ofPlaced f placed).levels.length) (hn : 0 < n) :
    ∃ m < n, (ofPlaced f placed).parentOf n = some m := by
  obtain ⟨a, ha⟩ := exists_tier h
  rcases parentOf_cases ha with ⟨h0, -⟩ | ⟨-, hm⟩ | ⟨-, m, hlt, hm, -⟩
  · exact absurd (first_of_depth_zero hp ha h0).1 (Nat.pos_iff_ne_zero.1 hn)
  · exact ⟨0, hn, hm⟩
  · exact ⟨m, hlt, hm⟩

/-! The whole way -/

/-- Every way leads to the first level. -/
theorem exists_back_zero (hp : ∀ x ∈ placed, f.canonical x.1.tier = .ok x.2)
    (h : n < (ofPlaced f placed).levels.length) :
    ∃ k ≤ n, (ofPlaced f placed).back k n = some 0 := by
  induction n using Nat.strongRecOn with
  | ind n ih =>
    rcases Nat.eq_zero_or_pos n with rfl | hn
    · exact ⟨0, Nat.le_refl 0, rfl⟩
    · obtain ⟨m, hlt, hm⟩ := exists_parent hp h hn
      obtain ⟨k, hk, hback⟩ := ih m hlt (Nat.lt_trans hlt h)
      refine ⟨k + 1, Nat.succ_le_of_lt (Nat.lt_of_le_of_lt hk hlt), ?_⟩
      rw [back, hm, Option.bind_some, hback]

/-- The first level is never left when it is its own parent. -/
theorem back_zero (hr : f.root.hops ≠ []) (k : Nat) : (ofPlaced f placed).back k 0 = some 0 := by
  induction k with
  | zero => rfl
  | succ k ih => rw [back_succ, ih, Option.bind_some, parentOf_zero, if_neg hr]

theorem isSome_back (hp : ∀ x ∈ placed, f.canonical x.1.tier = .ok x.2) (hr : f.root.hops ≠ [])
    (h : n < (ofPlaced f placed).levels.length) (k : Nat) :
    ((ofPlaced f placed).back k n).isSome := by
  induction k generalizing n with
  | zero => rfl
  | succ k ih =>
    rcases Nat.eq_zero_or_pos n with rfl | hn
    · rw [back_zero hr]
      rfl
    · obtain ⟨m, hlt, hm⟩ := exists_parent hp h hn
      rw [back, hm, Option.bind_some]
      exact ih (Nat.lt_trans hlt h)

theorem parentsPrecede_iff (hp : ∀ x ∈ placed, f.canonical x.1.tier = .ok x.2) :
    (ofPlaced f placed).ParentsPrecede f ↔ f.root.hops = [] := by
  refine ⟨fun h => ?_, fun hr => ⟨fun n m hm => ?_, fun n l hl hnone => ?_, fun n hn => ?_⟩⟩
  · by_contra hr
    exact Nat.lt_irrefl 0 (h.smaller 0 0 (by rw [parentOf_zero, if_neg hr]))
  · have hn := lt_length_of_parentOf hm
    rcases Nat.eq_zero_or_pos n with rfl | hpos
    · rw [parentOf_zero, if_pos hr] at hm
      cases hm
    · obtain ⟨k, hlt, hk⟩ := exists_parent hp hn hpos
      rwa [Option.some.inj (hm.symm.trans hk)]
  · have ha : (tiersOf f placed)[n]? = some l.tier := getElem?_tiersOf_iff.2 ⟨l, hl, rfl⟩
    have hparent : (ofPlaced f placed).parentOf n = none := by
      rw [parentOf, hl, Option.bind_some, hnone]
    rcases parentOf_cases ha with ⟨h0, -⟩ | ⟨-, hm⟩ | ⟨-, m, -, hm, -⟩
    · exact (first_of_depth_zero hp ha h0).2
    · rw [hparent] at hm
      cases hm
    · rw [hparent] at hm
      cases hm
  · obtain ⟨k, hk, hback⟩ := exists_back_zero hp hn
    exact ⟨k, Nat.lt_of_le_of_lt hk hn, 0, hback, by rw [parentOf_zero, if_pos hr]⟩

/-! What has to be there -/

/-- A parent is required when the level is. -/
theorem parent_required {m : LevelId} {p : Tier} (ha : (tiersOf f placed)[n]? = some a)
    (hm : (ofPlaced f placed).parentOf n = some m) (hb : (tiersOf f placed)[m]? = some p)
    (hreq : a ∈ requiredOf f placed) : p ∈ requiredOf f placed := by
  rcases parentOf_cases ha with ⟨-, hm'⟩ | ⟨-, hm'⟩ | ⟨hd, k, -, hm', hk⟩
  · rw [hm'] at hm
    cases hm
  · obtain rfl := Option.some.inj (hm.symm.trans hm')
    obtain rfl := Option.some.inj (tiersOf_base.symm.trans hb)
    obtain ⟨rest, hrest⟩ := f.root.chain_eq_base_cons
    exact mem_requiredOf.2 (Or.inl (hrest ▸ List.mem_cons_self))
  · obtain rfl := Option.some.inj (hm.symm.trans hm')
    obtain rfl := Option.some.inj (hk.symm.trans hb)
    have hdepth : 0 < (a.cut (a.depth - 1)).depth := by rw [Tier.depth_cut]; omega
    refine parent_mem_requiredOf hreq (Tier.parent?_eq_some_iff.2 ⟨?_, rfl⟩) ?_
    · exact Tier.hops_ne_nil_iff.2 (by omega)
    · exact Tier.hops_ne_nil_iff.2 hdepth

/-- Whatever the way back from a required level passes is required. -/
theorem back_required {j : LevelId} {b : Tier} (hj : (tiersOf f placed)[j]? = some b)
    (hreq : b ∈ requiredOf f placed) {k : Nat} (hk : (ofPlaced f placed).back k j = some n)
    (ha : (tiersOf f placed)[n]? = some a) : a ∈ requiredOf f placed := by
  induction k generalizing n a with
  | zero =>
    obtain rfl := Option.some.inj hk
    rwa [Option.some.inj (ha.symm.trans hj)]
  | succ k ih =>
    rw [back_succ] at hk
    obtain ⟨m, hm, hn⟩ := Option.bind_eq_some_iff.1 hk
    obtain ⟨c, hc⟩ := exists_tier (lt_length_of_parentOf hn)
    exact parent_required hc hn ha (ih hm hc)

/-- The way back passes every prefix of the tier that it starts from. -/
theorem exists_back_of_mem_chain {j : LevelId} {b : Tier} (hj : (tiersOf f placed)[j]? = some b)
    (ha : a ∈ b.chain) :
    ∃ n k, (tiersOf f placed)[n]? = some a ∧ (ofPlaced f placed).back k j = some n := by
  refine Tier.chain_induction (P := fun a => ∃ n k, (tiersOf f placed)[n]? = some a ∧
    (ofPlaced f placed).back k j = some n) (fun x p hx hp hh => ?_) ⟨j, 0, hj, rfl⟩ ha
  obtain ⟨n, k, hn, hk⟩ := hx
  obtain ⟨hx, rfl⟩ := Tier.parent?_eq_some_iff.1 hp
  have hdepth : 0 < (x.cut (x.depth - 1)).depth := Tier.hops_ne_nil_iff.1 hh
  rw [Tier.depth_cut] at hdepth
  rcases parentOf_cases hn with ⟨h0, -⟩ | ⟨h1, -⟩ | ⟨-, m, -, hm, htier⟩
  · omega
  · omega
  · exact ⟨m, k + 1, htier, by rw [back_succ, hk, Option.bind_some, hm]⟩

theorem required_iff_back (hp : ∀ x ∈ placed, f.canonical x.1.tier = .ok x.2) {l : Level}
    (hl : (ofPlaced f placed).levels[n]? = some l) :
    l.required = true ↔ l.tier ∈ f.root.chain ∨
      ∃ m ∈ placed.map Prod.fst, m.binding = true ∧ ∃ j k,
        (ofPlaced f placed).find? m.tier = some j ∧ (ofPlaced f placed).back k j = some n := by
  have hn : (tiersOf f placed)[n]? = some l.tier := getElem?_tiersOf_iff.2 ⟨l, hl, rfl⟩
  rw [required_iff hl]
  constructor
  · intro hreq
    refine (mem_requiredOf.1 hreq).imp_right ?_
    rintro ⟨x, hx, hbinding, hchain⟩
    obtain ⟨j, hfind, hj⟩ := find?_spelling hp hx
    obtain ⟨n', k, hn', hk⟩ := exists_back_of_mem_chain hj hchain
    rw [eq_of_tier hn' hn] at hk
    exact ⟨x.1, List.mem_map_of_mem hx, hbinding, j, k, hfind, hk⟩
  · rintro (hchain | ⟨m, hm, hbinding, j, k, hfind, hk⟩)
    · exact mem_requiredOf.2 (Or.inl hchain)
    · obtain ⟨x, hx, rfl⟩ := List.mem_map.1 hm
      obtain ⟨j', hfind', hj⟩ := find?_spelling hp hx
      obtain rfl := Option.some.inj (hfind'.symm.trans hfind)
      have hreq : x.2 ∈ requiredOf f placed :=
        mem_requiredOf.2 (Or.inr ⟨x, hx, hbinding, x.2.self_mem_chain⟩)
      exact back_required hj hreq hk hn

end ofPlaced

end LevelTable

/-- Parents come first and every way back ends exactly when the type searched for has no hops. When it
has hops, the first level is its own parent, and the ways, which all lead there, never end. Whatever
is searched for, the levels that have to be there are those on the way to it and those on the ways
back from what the criteria mention. -/
theorem ways_back_end_iff {f : Frame} {r : References} {t : LevelTable}
    (h : LevelTable.resolve f r = .ok t) :
    (t.ParentsPrecede f ↔ f.root.hops = []) ∧
    (∀ n < t.levels.length, 0 < n → ∃ m < n, t.parentOf n = some m) ∧
    (∀ n < t.levels.length, ∃ k < t.levels.length, t.back k n = some 0) ∧
    (f.root.hops ≠ [] → t.parentOf 0 = some 0 ∧
      ∀ n < t.levels.length, ∀ k, (t.back k n).isSome) ∧
    ∀ (n : LevelId) (l : Level), t.levels[n]? = some l →
      (l.required = true ↔ l.tier ∈ f.root.chain ∨ ∃ m ∈ r.mentions, m.binding = true ∧
        ∃ j k, t.find? m.tier = some j ∧ t.back k j = some n) := by
  obtain ⟨placed, ⟨hmentions, hp⟩, rfl⟩ := LevelTable.resolve_eq_ok_iff.1 h
  refine ⟨LevelTable.parentsPrecede_iff hp, fun n hn hpos => LevelTable.exists_parent hp hn hpos,
    fun n hn => ?_, fun hr => ⟨?_, fun n hn k => LevelTable.isSome_back hp hr hn k⟩,
    fun n l hl => ?_⟩
  · obtain ⟨k, hk, hback⟩ := LevelTable.exists_back_zero hp hn
    exact ⟨k, Nat.lt_of_le_of_lt hk hn, hback⟩
  · rw [LevelTable.parentOf_zero, if_neg hr]
  · rw [← hmentions]
    exact LevelTable.required_iff_back hp hl

/-- The words after those of the phones, by their label, and who speaks them. -/
def References.nextWords : References :=
  let word := ((Tier.ofLevel "phone").hop (.up "word")).hop .following
  ⟨[(word.attribute .label).compare .eq (.text "the")],
    [(word.hop .speaker).attribute ⟨"name"⟩], [], [], []⟩

theorem nextWords_are_behind_their_parents :
    ∃ t, LevelTable.resolve ⟨⟨["phone", "word"]⟩, .ofLevel "phone", none⟩ .nextWords = .ok t ∧
      t.levels.map (·.parent?) = [none, some 0, some 1, some 2] ∧
      t.ParentsPrecede ⟨⟨["phone", "word"]⟩, .ofLevel "phone", none⟩ := by
  obtain ⟨t, ht, hparents⟩ := exists_ok_of_toOption_map
    (x := LevelTable.resolve ⟨⟨["phone", "word"]⟩, .ofLevel "phone", none⟩ .nextWords)
    (g := fun t => t.levels.map (·.parent?)) (b := [none, some 0, some 1, some 2])
    (by decide +kernel)
  exact ⟨t, ht, hparents, (ways_back_end_iff ht).1.2 rfl⟩

/-- In a search for the phones that come next, these are reached from themselves. -/
theorem next_phone_is_its_own_parent :
    ∃ f t, Frame.ofQuery ⟨["phone", "word"]⟩ ((Tier.ofLevel "phone").hop .following) [] = .ok f ∧
      LevelTable.resolve f ⟨[], [], [], [], []⟩ = .ok t ∧ t.parentOf 0 = some 0 ∧
      ¬ t.ParentsPrecede f := by
  obtain ⟨t, ht, hparent⟩ := exists_ok_of_toOption_map
    (x := LevelTable.resolve ⟨⟨["phone", "word"]⟩, (Tier.ofLevel "phone").hop .following, none⟩
      ⟨[], [], [], [], []⟩)
    (g := fun t => t.parentOf 0) (b := some 0) (by decide +kernel)
  refine ⟨_, t, by decide +kernel, ht, hparent, fun h => ?_⟩
  exact Nat.lt_irrefl 0 (h.smaller 0 0 hparent)

end TierQuery
