import Mathlib.Data.List.Forall2
import Mathlib.Data.List.Induction
import TierQuery.Proofs.Names

/-! The table of levels. Every tier that a query refers to has one level, each level comes after the
level it is reached from, and what is only returned leaves the levels of the criteria as they are. -/

namespace TierQuery

section Distinct

variable {α : Type} [DecidableEq α]

@[simp] theorem mem_distinct {x : α} {as : List α} : x ∈ distinct as ↔ x ∈ as := by
  induction as with
  | nil => simp [distinct]
  | cons a as ih =>
    by_cases h : x = a
    · simp [distinct, h]
    · simp [distinct, ih, h]

theorem nodup_distinct (as : List α) : (distinct as).Nodup := by
  induction as with
  | nil => exact List.nodup_nil
  | cons a as ih =>
    refine List.nodup_cons.2 ⟨by simp, ih.filter _⟩

theorem distinct_append (as bs : List α) :
    distinct (as ++ bs) = distinct as ++ (distinct bs).filter (· ∉ as) := by
  induction as with
  | nil => simp [distinct]
  | cons a as ih =>
    simp only [List.cons_append, distinct, ih, List.filter_append, List.filter_filter,
      List.mem_cons, not_or]
    congr 2
    apply List.filter_congr
    intro x _
    simp

theorem distinct_concat (as : List α) (a : α) :
    distinct (as ++ [a]) = if a ∈ as then distinct as else distinct as ++ [a] := by
  rw [distinct_append]
  by_cases h : a ∈ as <;> simp [distinct, h]

theorem distinct_eq_self {as : List α} (h : as.Nodup) : distinct as = as := by
  induction as with
  | nil => rfl
  | cons a as ih =>
    obtain ⟨ha, has⟩ := List.nodup_cons.1 h
    have hkept : as.filter (· ≠ a) = as := by
      rw [List.filter_eq_self]
      intro x hx
      simpa using ne_of_mem_of_not_mem hx ha
    rw [distinct, ih has, hkept]

/-- What a list already begins with is not added to it. -/
theorem distinct_append_distinct (as bs : List α) :
    distinct (as ++ distinct (as ++ bs)) = distinct (as ++ bs) := by
  have hfirst : (distinct as).filter (· ∉ as) = [] := by
    simp [List.filter_eq_nil_iff]
  rw [distinct_append, distinct_eq_self (nodup_distinct _), distinct_append as bs,
    List.filter_append, hfirst, List.nil_append, List.filter_filter]
  simp only [Bool.and_self]

theorem distinct_append_congr {as as' bs bs' : List α} (ha : distinct as = distinct as')
    (hb : distinct bs = distinct bs') : distinct (as ++ bs) = distinct (as' ++ bs') := by
  have hmem (x : α) : x ∈ as ↔ x ∈ as' := by rw [← mem_distinct, ha, mem_distinct]
  rw [distinct_append, distinct_append, ha, hb]
  simp only [hmem]

theorem distinct_flatMap_congr {β γ : Type} {g : β → List α} {g' : γ → List α} {xs : List β}
    {ys : List γ} (h : List.Forall₂ (fun x y => distinct (g x) = distinct (g' y)) xs ys) :
    distinct (xs.flatMap g) = distinct (ys.flatMap g') := by
  induction h with
  | nil => rfl
  | cons hxy _ ih =>
    rw [List.flatMap_cons, List.flatMap_cons]
    exact distinct_append_congr hxy ih

/-- A repetition adds nothing. -/
theorem distinct_flatMap_pair {β : Type} [DecidableEq β] (g : β → List α) (a b : β) :
    distinct ((distinct [a, b]).flatMap g) = distinct (g a ++ g b) := by
  by_cases h : b = a
  · subst h
    have hnone : (distinct (g b)).filter (· ∉ g b) = [] := by simp
    rw [distinct_append, hnone]
    simp [distinct]
  · simp [distinct, h]

theorem filter_distinct (P : α → Bool) (as : List α) :
    (distinct as).filter P = distinct (as.filter P) := by
  induction as with
  | nil => rfl
  | cons a as ih =>
    rw [distinct, List.filter_cons, List.filter_cons]
    cases ha : P a with
    | true =>
      rw [if_pos rfl, if_pos rfl, distinct, ← ih, List.filter_filter, List.filter_filter]
      simp only [Bool.and_comm]
    | false =>
      have hne (x : α) (hx : P x = true) : x ≠ a := by
        rintro rfl
        rw [ha] at hx
        cases hx
      rw [if_neg Bool.false_ne_true, if_neg Bool.false_ne_true, ← ih, List.filter_filter]
      refine List.filter_congr fun x _ => ?_
      cases hx : P x with
      | true => simp [hne x hx]
      | false => rfl

end Distinct

section Traversal

variable {ε α β : Type}

theorem bind_eq_ok_iff {x : Except ε α} {g : α → Except ε β} {b : β} :
    x >>= g = .ok b ↔ ∃ a, x = .ok a ∧ g a = .ok b := by
  cases x <;> simp [bind, Except.bind]

theorem exists_ok_of_isOk {x : Except ε α} (h : x.isOk = true) : ∃ a, x = .ok a := by
  cases x with
  | error e => cases h
  | ok a => exact ⟨a, rfl⟩

theorem exists_ok_of_toOption_map {x : Except ε α} {g : α → β} {b : β}
    (h : x.toOption.map g = some b) : ∃ a, x = .ok a ∧ g a = b := by
  cases x with
  | error e => cases h
  | ok a => exact ⟨a, rfl, Option.some.inj h⟩

/-- A traversal succeeds when every step does, with the results of the steps. -/
theorem mapM_eq_ok_iff {g : α → Except ε β} {xs : List α} {ys : List β} :
    xs.mapM g = .ok ys ↔ List.Forall₂ (fun x y => g x = .ok y) xs ys := by
  induction xs generalizing ys with
  | nil =>
    rw [List.mapM_nil, List.forall₂_nil_left_iff]
    exact ⟨fun h => by cases h; rfl, fun h => h ▸ rfl⟩
  | cons x xs ih =>
    rw [List.mapM_cons, bind_eq_ok_iff, List.forall₂_cons_left_iff]
    refine ⟨?_, ?_⟩
    · rintro ⟨y, hy, h⟩
      obtain ⟨zs, hzs, hz⟩ := bind_eq_ok_iff.1 h
      cases hz
      exact ⟨y, zs, hy, ih.1 hzs, rfl⟩
    · rintro ⟨y, zs, hy, hzs, rfl⟩
      exact ⟨y, hy, bind_eq_ok_iff.2 ⟨zs, ih.2 hzs, rfl⟩⟩

/-- A traversal whose results record what they come from. -/
theorem mapM_eq_ok_iff_map {g : α → Except ε β} {source : β → α} {Q : β → Prop}
    (h : ∀ x y, g x = .ok y ↔ source y = x ∧ Q y) {xs : List α} {ys : List β} :
    xs.mapM g = .ok ys ↔ ys.map source = xs ∧ ∀ y ∈ ys, Q y := by
  rw [mapM_eq_ok_iff]
  induction xs generalizing ys with
  | nil => cases ys <;> simp
  | cons x xs ih =>
    cases ys with
    | nil => simp
    | cons y ys =>
      refine List.forall₂_cons.trans ((and_congr (h x y) ih).trans ?_)
      rw [List.map_cons, List.cons.injEq, List.forall_mem_cons]
      exact and_and_and_comm

theorem forall₂_mem_left {R : α → β → Prop} {xs : List α} {ys : List β}
    (h : List.Forall₂ R xs ys) {x : α} (hx : x ∈ xs) : ∃ y ∈ ys, R x y := by
  induction h with
  | nil => simp at hx
  | cons hxy _ ih =>
    rcases List.mem_cons.1 hx with rfl | hx
    · exact ⟨_, List.mem_cons_self, hxy⟩
    · obtain ⟨y, hy, hR⟩ := ih hx
      exact ⟨y, List.mem_cons_of_mem _ hy, hR⟩

theorem forall₂_mem_right {R : α → β → Prop} {xs : List α} {ys : List β}
    (h : List.Forall₂ R xs ys) {y : β} (hy : y ∈ ys) : ∃ x ∈ xs, R x y :=
  forall₂_mem_left h.flip hy

/-- A relation between the entries of two lists may use that they are entries. -/
theorem forall₂_with_mem {R : α → β → Prop} {xs : List α} {ys : List β}
    (h : List.Forall₂ R xs ys) : List.Forall₂ (fun x y => x ∈ xs ∧ R x y) xs ys :=
  (List.forall₂_and_left (p := (· ∈ xs)) _ _).2 ⟨fun _ hx => hx, h⟩

theorem forall_iff_of_forall₂ {R : α → β → Prop} {P : α → Prop} {Q : β → Prop} {xs : List α}
    {ys : List β} (h : List.Forall₂ R xs ys) (hPQ : ∀ x ∈ xs, ∀ y ∈ ys, R x y → (P x ↔ Q y)) :
    (∀ x ∈ xs, P x) ↔ ∀ y ∈ ys, Q y := by
  refine ⟨?_, ?_⟩
  · intro hP y hy
    obtain ⟨x, hx, hR⟩ := forall₂_mem_right h hy
    exact (hPQ x hx y hy hR).1 (hP x hx)
  · intro hQ x hx
    obtain ⟨y, hy, hR⟩ := forall₂_mem_left h hx
    exact (hPQ x hx y hy hR).2 (hQ y hy)

theorem map_eq_of_forall₂ {γ : Type} {f : α → γ} {g : β → γ} {xs : List α} {ys : List β}
    (h : List.Forall₂ (fun x y => g y = f x) xs ys) : ys.map g = xs.map f := by
  induction h with
  | nil => rfl
  | cons hxy _ ih => rw [List.map_cons, List.map_cons, hxy, ih]

/-- Results that are all there. -/
theorem forall₂_filterMap_id {R : α → β → Prop} {xs : List α} {ys : List (Option β)}
    (h : List.Forall₂ (fun x y? => ∃ y, y? = some y ∧ R x y) xs ys) :
    List.Forall₂ R xs (ys.filterMap id) := by
  induction h with
  | nil => exact .nil
  | cons hxy _ ih =>
    obtain ⟨y, rfl, hR⟩ := hxy
    exact .cons hR ih

theorem exists_mapM_eq_ok {g : α → Except ε β} {R : α → β → Prop} {xs : List α}
    (h : ∀ x ∈ xs, ∃ y, g x = .ok y ∧ R x y) :
    ∃ ys, xs.mapM g = .ok ys ∧ List.Forall₂ R xs ys := by
  induction xs with
  | nil => exact ⟨[], rfl, .nil⟩
  | cons x xs ih =>
    obtain ⟨y, hy, hR⟩ := h x List.mem_cons_self
    obtain ⟨ys, hys, hRs⟩ := ih fun x hx => h x (List.mem_cons_of_mem _ hx)
    refine ⟨y :: ys, ?_, .cons hR hRs⟩
    rw [List.mapM_cons, hy, hys]
    rfl

theorem mapM_eq_of_forall₂ {γ : Type} {g : α → Except ε β} {g' : γ → Except ε β} {xs : List α}
    {ys : List γ} (h : List.Forall₂ (fun x y => g x = g' y) xs ys) : xs.mapM g = ys.mapM g' := by
  induction h with
  | nil => rfl
  | cons hxy _ ih => rw [List.mapM_cons, List.mapM_cons, hxy, ih]

theorem mapM_congr {g g' : α → Except ε β} {xs : List α} (h : ∀ x ∈ xs, g x = g' x) :
    xs.mapM g = xs.mapM g' :=
  mapM_eq_of_forall₂ (List.forall₂_same.2 h)

end Traversal

namespace Tier

/-- The tier after the first `n` hops. -/
def cut (a : Tier) (n : Nat) : Tier := { a.withoutSubsets with hops := a.hops.take n }

theorem chain_eq (a : Tier) :
    a.chain = ((List.range (a.depth - 1)).map fun n => a.cut (n + 1)) ++ [a] := rfl

theorem parent?_eq_some_iff {a p : Tier} :
    a.parent? = some p ↔ a.hops ≠ [] ∧ p = a.cut (a.depth - 1) := by
  have hd : a.hops.dropLast = a.hops.take (a.depth - 1) := List.dropLast_eq_take
  unfold parent?
  by_cases h : a.hops = []
  · simp [h]
  · rw [if_neg (by simpa using h), hd, Option.some_inj]
    exact ⟨fun e => ⟨h, e.symm⟩, fun e => e.2.symm⟩

@[simp] theorem depth_cut (a : Tier) (n : Nat) : (a.cut n).depth = min n a.depth := by
  simp [cut, depth]

theorem hops_ne_nil_iff {a : Tier} : a.hops ≠ [] ↔ 0 < a.depth := List.length_pos_iff.symm

theorem cut_cut (a : Tier) {m n : Nat} (h : m ≤ n) : (a.cut n).cut m = a.cut m := by
  simp [cut, withoutSubsets, List.take_take, Nat.min_eq_left h]

theorem mem_chain {a x : Tier} :
    x ∈ a.chain ↔ x = a ∨ ∃ n, 0 < n ∧ n < a.depth ∧ x = a.cut n := by
  simp only [chain_eq, List.mem_append, List.mem_map, List.mem_range, List.mem_singleton]
  refine ⟨?_, ?_⟩
  · rintro (⟨n, hn, rfl⟩ | rfl)
    · exact Or.inr ⟨n + 1, by omega, by omega, rfl⟩
    · exact Or.inl rfl
  · rintro (rfl | ⟨n, h0, hn, rfl⟩)
    · exact Or.inr rfl
    · exact Or.inl ⟨n - 1, by omega, by rw [Nat.sub_add_cancel h0]⟩

theorem self_mem_chain (a : Tier) : a ∈ a.chain := mem_chain.2 (Or.inl rfl)

theorem chain_eq_singleton {a : Tier} (h : a.hops = []) : a.chain = [a] := by
  simp [chain_eq, depth, h]

theorem parent?_cut {a : Tier} {n : Nat} (h : n + 1 ≤ a.depth) :
    (a.cut (n + 1)).parent? = some (a.cut n) := by
  have hd : (a.cut (n + 1)).depth = n + 1 := by rw [depth_cut, Nat.min_eq_left h]
  refine parent?_eq_some_iff.2 ⟨hops_ne_nil_iff.2 (by omega), ?_⟩
  rw [hd, Nat.add_sub_cancel, cut_cut a (by omega)]

/-- A chain is closed under going back. -/
theorem parent_mem_chain {a x p : Tier} (hx : x ∈ a.chain) (hp : x.parent? = some p)
    (hh : p.hops ≠ []) : p ∈ a.chain := by
  obtain ⟨-, rfl⟩ := parent?_eq_some_iff.1 hp
  have h0 : 0 < (x.cut (x.depth - 1)).depth := List.length_pos_iff.2 hh
  rw [depth_cut] at h0
  rcases mem_chain.1 hx with rfl | ⟨n, hn, hlt, rfl⟩
  · exact mem_chain.2 (Or.inr ⟨_, by omega, by omega, rfl⟩)
  · rw [depth_cut] at h0 ⊢
    rw [cut_cut a (by omega)]
    exact mem_chain.2 (Or.inr ⟨_, by omega, by omega, rfl⟩)

/-- What passes from a tier to the one it is reached from holds along its chain. -/
theorem chain_induction {P : Tier → Prop} {t a : Tier}
    (back : ∀ x p, P x → x.parent? = some p → p.hops ≠ [] → P p) (ht : P t) (ha : a ∈ t.chain) :
    P a := by
  rcases mem_chain.1 ha with rfl | ⟨n, h0, hn, rfl⟩
  · exact ht
  · -- one hop less at a time
    obtain ⟨k, hk⟩ : ∃ k, n + k + 1 = t.depth := ⟨t.depth - n - 1, by omega⟩
    clear ha hn
    induction k generalizing n with
    | zero =>
      refine back t _ ht (parent?_eq_some_iff.2 ⟨hops_ne_nil_iff.2 (by omega), ?_⟩) ?_
      · congr 1
        omega
      · exact hops_ne_nil_iff.2 (by rw [depth_cut]; omega)
    | succ k ih =>
      refine back _ _ (ih (n + 1) (by omega) (by omega)) (parent?_cut (by omega)) ?_
      exact hops_ne_nil_iff.2 (by rw [depth_cut]; omega)

end Tier

/-- Every tier of the list comes after the one it is reached from, unless that is the origin. -/
def ParentsFirst (as : List Tier) : Prop :=
  ∀ n a p, as[n]? = some a → a.parent? = some p → p.hops ≠ [] → p ∈ as.take n

namespace ParentsFirst

theorem nil : ParentsFirst [] := by
  intro n a p h
  simp at h

theorem append {as bs : List Tier} (ha : ParentsFirst as) (hb : ParentsFirst bs) :
    ParentsFirst (as ++ bs) := by
  intro n a p hn hp hh
  rcases Nat.lt_or_ge n as.length with hlt | hge
  · rw [List.getElem?_append_left hlt] at hn
    rw [List.take_append_of_le_length (Nat.le_of_lt hlt)]
    exact ha n a p hn hp hh
  · rw [List.getElem?_append_right hge] at hn
    have := hb _ a p hn hp hh
    rw [List.take_append]
    exact List.mem_append_right _ this

theorem concat_iff {as : List Tier} {a : Tier} :
    ParentsFirst (as ++ [a]) ↔
      ParentsFirst as ∧ ∀ p, a.parent? = some p → p.hops ≠ [] → p ∈ as := by
  refine ⟨?_, ?_⟩
  · intro h
    refine ⟨fun n b p hn hp hh => ?_, fun p hp hh => ?_⟩
    · have hlt := (List.getElem?_eq_some_iff.1 hn).1
      have := h n b p (by rwa [List.getElem?_append_left hlt]) hp hh
      rwa [List.take_append_of_le_length (Nat.le_of_lt hlt)] at this
    · simpa using h as.length a p (by simp) hp hh
  · rintro ⟨ha, hp⟩ n b p hn hb hh
    rcases Nat.lt_or_ge n as.length with hlt | hge
    · rw [List.getElem?_append_left hlt] at hn
      rw [List.take_append_of_le_length (Nat.le_of_lt hlt)]
      exact ha n b p hn hb hh
    · have hn0 : n = as.length := by
        have := (List.getElem?_eq_some_iff.1 hn).1
        simp only [List.length_append, List.length_singleton] at this
        omega
      subst hn0
      have hb' : b = a := by simpa using hn.symm
      subst hb'
      simpa using hp p hb hh

theorem chain (a : Tier) : ParentsFirst a.chain := by
  intro n b p hn hp hh
  obtain ⟨-, rfl⟩ := Tier.parent?_eq_some_iff.1 hp
  have hpos : 0 < (b.cut (b.depth - 1)).depth := List.length_pos_iff.2 hh
  rw [Tier.depth_cut] at hpos
  have hlen : a.chain.length = a.depth - 1 + 1 := by simp [Tier.chain_eq]
  have hcut (m : Nat) (hm : m < a.depth - 1) : a.chain[m]? = some (a.cut (m + 1)) := by
    simp [Tier.chain_eq, List.getElem?_append, hm]
  -- in both cases the parent is the cut one place earlier
  have key (m : Nat) (hm : m < n) (hlt : m < a.depth - 1) (e : b.cut (b.depth - 1) = a.cut (m + 1)) :
      b.cut (b.depth - 1) ∈ a.chain.take n := by
    rw [e]
    exact List.mem_of_getElem? (by rw [List.getElem?_take_of_lt hm]; exact hcut m hlt)
  have hn' := (List.getElem?_eq_some_iff.1 hn).1
  rcases Nat.lt_or_ge n (a.depth - 1) with hlt | hge
  · rw [hcut n hlt] at hn
    obtain rfl : a.cut (n + 1) = b := by simpa using hn
    rw [Tier.depth_cut] at hpos
    apply key (n - 1) (by omega) (by omega)
    rw [Tier.depth_cut, Tier.cut_cut a (by omega)]
    congr 1
    omega
  · have hn0 : n = a.depth - 1 := by omega
    subst hn0
    obtain rfl : a = b := by simpa [Tier.chain_eq] using hn
    apply key (a.depth - 1 - 1) (by omega) (by omega)
    congr 1
    omega

theorem flatMap_chain {β : Type} (g : β → Tier) (xs : List β) :
    ParentsFirst (xs.flatMap fun x => (g x).chain) := by
  induction xs with
  | nil => exact nil
  | cons x xs ih => exact (chain (g x)).append ih

theorem distinct {as : List Tier} (h : ParentsFirst as) : ParentsFirst (distinct as) := by
  induction as using List.reverseRecOn with
  | nil => exact nil
  | append_singleton as a ih =>
    obtain ⟨ha, hp⟩ := concat_iff.1 h
    rw [distinct_concat]
    split
    · exact ih ha
    · exact concat_iff.2 ⟨ih ha, fun p hq hh => mem_distinct.2 (hp p hq hh)⟩

end ParentsFirst

/-- The tier that a tier with hops is reached from. -/
def Frame.above (f : Frame) (a : Tier) : Tier :=
  if a.depth ≤ 1 then f.root else a.cut (a.depth - 1)

namespace LevelTable

variable {f : Frame} {placed : List (Mention × Tier)}

theorem nodup_tiersOf : (tiersOf f placed).Nodup := nodup_distinct _

theorem parentsFirst_tiersOf : ParentsFirst (tiersOf f placed) :=
  ((ParentsFirst.chain f.root).append (ParentsFirst.flatMap_chain Prod.snd placed)).distinct

theorem mem_tiersOf {a : Tier} :
    a ∈ tiersOf f placed ↔ a ∈ f.root.chain ∨ ∃ x ∈ placed, a ∈ x.2.chain := by
  simp [tiersOf]

theorem mem_requiredOf {a : Tier} :
    a ∈ requiredOf f placed ↔
      a ∈ f.root.chain ∨ ∃ x ∈ placed, x.1.binding = true ∧ a ∈ x.2.chain := by
  simp [requiredOf, and_assoc]

theorem root_mem_tiersOf : f.root ∈ tiersOf f placed :=
  mem_tiersOf.2 (Or.inl f.root.self_mem_chain)

theorem parent_mem_tiersOf {a p : Tier} (ha : a ∈ tiersOf f placed) (hp : a.parent? = some p)
    (hh : p.hops ≠ []) : p ∈ tiersOf f placed := by
  rcases mem_tiersOf.1 ha with h | ⟨x, hx, h⟩
  · exact mem_tiersOf.2 (Or.inl (Tier.parent_mem_chain h hp hh))
  · exact mem_tiersOf.2 (Or.inr ⟨x, hx, Tier.parent_mem_chain h hp hh⟩)

theorem requiredOf_subset {a : Tier} (h : a ∈ requiredOf f placed) : a ∈ tiersOf f placed := by
  rcases mem_requiredOf.1 h with h | ⟨x, hx, -, h⟩
  · exact mem_tiersOf.2 (Or.inl h)
  · exact mem_tiersOf.2 (Or.inr ⟨x, hx, h⟩)

theorem parent_mem_requiredOf {a p : Tier} (ha : a ∈ requiredOf f placed) (hp : a.parent? = some p)
    (hh : p.hops ≠ []) : p ∈ requiredOf f placed := by
  rcases mem_requiredOf.1 ha with h | ⟨x, hx, hb, h⟩
  · exact mem_requiredOf.2 (Or.inl (Tier.parent_mem_chain h hp hh))
  · exact mem_requiredOf.2 (Or.inr ⟨x, hx, hb, Tier.parent_mem_chain h hp hh⟩)

theorem root_mem_requiredOf : f.root ∈ requiredOf f placed :=
  mem_requiredOf.2 (Or.inl f.root.self_mem_chain)

theorem tiersOf_zero (hr : f.root.hops = []) : (tiersOf f placed)[0]? = some f.root := by
  simp [tiersOf, Tier.chain_eq_singleton hr, distinct]

theorem index?_eq_some_iff {as : List Tier} (h : as.Nodup) {a : Tier} {n : LevelId} :
    index? as a = some n ↔ as[n]? = some a := by
  rw [index?, List.findIdx?_eq_some_iff_getElem, List.getElem?_eq_some_iff]
  refine ⟨?_, ?_⟩
  · rintro ⟨hn, ha, -⟩
    exact ⟨hn, by simpa using ha⟩
  · rintro ⟨hn, rfl⟩
    refine ⟨hn, by simp, fun m hm => ?_⟩
    have : as[m] ≠ as[n] := fun e => by
      have := h.getElem_inj_iff.1 e
      omega
    simpa using this

/-! The entries -/

theorem getElem?_levelsOf {n : LevelId} {l : Level} :
    (levelsOf f placed)[n]? = some l ↔ ∃ a name, (tiersOf f placed)[n]? = some a ∧
      (freshNames ((tiersOf f placed).map Tier.stem))[n]? = some name ∧
      l = levelOf f placed (tiersOf f placed) a name := by
  rw [levelsOf, List.getElem?_zipWith_eq_some]
  simp only [eq_comm]

theorem length_freshNames_tiersOf (f : Frame) (placed : List (Mention × Tier)) :
    (freshNames ((tiersOf f placed).map Tier.stem)).length = (tiersOf f placed).length := by
  rw [length_freshNames, List.length_map]

theorem map_tier_levelsOf : (levelsOf f placed).map (·.tier) = tiersOf f placed := by
  have h := List.map_fst_zip (Nat.le_of_eq (length_freshNames_tiersOf f placed).symm)
  rw [levelsOf, List.map_zipWith]
  simpa [List.zip, List.map_zipWith, levelOf] using h

/-- A tier of the table has its level. -/
theorem getElem?_tiersOf_iff {n : LevelId} {a : Tier} :
    (tiersOf f placed)[n]? = some a ↔ ∃ l, (levelsOf f placed)[n]? = some l ∧ l.tier = a := by
  rw [← map_tier_levelsOf, List.getElem?_map, Option.map_eq_some_iff]

theorem map_var_levelsOf :
    (levelsOf f placed).map (·.var)
      = (freshNames ((tiersOf f placed).map Tier.stem)).map ("node_" ++ ·) := by
  have h := List.map_snd_zip (Nat.le_of_eq (length_freshNames_tiersOf f placed))
  rw [levelsOf, List.map_zipWith, ← congrArg (List.map ("node_" ++ ·)) h]
  simp [List.zip, List.map_zipWith, levelOf]

theorem typeVar_of_mem {l : Level} (h : l ∈ levelsOf f placed) :
    ∃ name, l.var = "node_" ++ name ∧ l.typeVar = "type_" ++ name := by
  obtain ⟨n, hn⟩ := List.mem_iff_getElem?.1 h
  obtain ⟨a, name, -, -, rfl⟩ := getElem?_levelsOf.1 hn
  exact ⟨name, rfl, rfl⟩

theorem nodup_vars : ((levelsOf f placed).map (·.var)).Nodup := by
  rw [map_var_levelsOf]
  exact (nodup_freshNames _).map fun x y h => String.append_right_inj _ |>.1 h

theorem eq_of_var_eq {l k : Level} (hl : l ∈ levelsOf f placed) (hk : k ∈ levelsOf f placed)
    (h : l.var = k.var) : l = k :=
  List.inj_on_of_nodup_map nodup_vars hl hk h

/-- No token variable is a type variable. -/
theorem var_ne_typeVar {l m : Level} (hl : l ∈ levelsOf f placed) (hm : m ∈ levelsOf f placed) :
    l.var ≠ m.typeVar := by
  obtain ⟨x, hx, -⟩ := typeVar_of_mem hl
  obtain ⟨y, -, hy⟩ := typeVar_of_mem hm
  rw [hx, hy]
  intro h
  have := congrArg (fun s => s.toList.head?) h
  simp at this

theorem required_iff {n : LevelId} {l : Level} (h : (levelsOf f placed)[n]? = some l) :
    l.required = true ↔ l.tier ∈ requiredOf f placed := by
  obtain ⟨a, name, -, -, rfl⟩ := getElem?_levelsOf.1 h
  simp [levelOf]

/-- A level with hops is reached from an earlier one, which is required if it is. -/
theorem parent_of_getElem? (hr : f.root.hops = []) {n : LevelId} {l : Level}
    (h : (levelsOf f placed)[n]? = some l) (hh : l.tier.hops ≠ []) :
    ∃ m k, l.parent? = some m ∧ m < n ∧ (levelsOf f placed)[m]? = some k ∧
      k.tier = f.above l.tier ∧ (l.required = true → k.required = true) := by
  obtain ⟨a, name, ha, -, rfl⟩ := getElem?_levelsOf.1 h
  have hp : a.parent? = some (a.cut (a.depth - 1)) := Tier.parent?_eq_some_iff.2 ⟨hh, rfl⟩
  have hdepth : 0 < a.depth := List.length_pos_iff.2 hh
  by_cases hc : (a.cut (a.depth - 1)).hops = []
  · obtain ⟨k, hk, hkt⟩ := getElem?_tiersOf_iff.1 (tiersOf_zero hr)
    have hd : a.depth ≤ 1 := by
      have := congrArg List.length hc
      simp only [← Tier.depth.eq_1, Tier.depth_cut, List.length_nil] at this
      omega
    refine ⟨0, k, by simp [levelOf, parentId?, hp, hc], ?_, hk, ?_, fun _ => ?_⟩
    · rcases Nat.eq_zero_or_pos n with rfl | hn
      · rw [tiersOf_zero hr, Option.some_inj] at ha
        exact absurd (ha ▸ hr) hh
      · exact hn
    · simp [hkt, levelOf, Frame.above, hd]
    · exact (required_iff hk).2 (hkt ▸ root_mem_requiredOf)
  · have hm := parentsFirst_tiersOf n a _ ha hp hc
    obtain ⟨m, hlt, hm⟩ := List.mem_take_iff_getElem.1 hm
    have hm' := List.getElem?_eq_some_iff.2 ⟨Nat.lt_of_lt_of_le hlt (Nat.min_le_right _ _), hm⟩
    obtain ⟨k, hk, hkt⟩ := getElem?_tiersOf_iff.1 hm'
    have hd : ¬ a.depth ≤ 1 := by
      have := List.length_pos_iff.2 hc
      rw [← Tier.depth.eq_1, Tier.depth_cut] at this
      omega
    refine ⟨m, k, ?_, Nat.lt_of_lt_of_le hlt (Nat.min_le_left _ _), hk, ?_, fun hq => ?_⟩
    · simpa [levelOf, parentId?, hp, hc] using (index?_eq_some_iff nodup_tiersOf).2 hm'
    · simp [hkt, levelOf, Frame.above, hd]
    · rw [required_iff h] at hq
      exact (required_iff hk).2 (hkt ▸ parent_mem_requiredOf hq hp hc)

/-! Spellings -/

/-- A spelling leads to the level of its canonical form. -/
theorem find?_spelling {x : Mention × Tier}
    (hp : ∀ y ∈ placed, f.canonical y.1.tier = .ok y.2) (hx : x ∈ placed) :
    ∃ n, (ofPlaced f placed).find? x.1.tier = some n ∧ (tiersOf f placed)[n]? = some x.2 := by
  have hsome : ((ofPlaced f placed).spellings.find? (·.1 == x.1.tier)).isSome := by
    rw [List.find?_isSome]
    exact ⟨_, List.mem_map_of_mem hx, by simp⟩
  obtain ⟨s, hs⟩ := Option.isSome_iff_exists.1 hsome
  obtain ⟨y, hy, rfl⟩ := List.mem_map.1 (List.mem_of_find?_eq_some hs)
  have hxy : y.1.tier = x.1.tier := by simpa using List.find?_some hs
  have hcanon : y.2 = x.2 := by
    have := (hp y hy).symm.trans (hxy ▸ hp x hx)
    simpa using this
  have hmem : y.2 ∈ tiersOf f placed := mem_tiersOf.2 (Or.inr ⟨y, hy, y.2.self_mem_chain⟩)
  obtain ⟨n, hn⟩ := List.mem_iff_getElem?.1 hmem
  refine ⟨n, ?_, hcanon ▸ hn⟩
  simp only [find?, hs, (index?_eq_some_iff nodup_tiersOf).2 hn, Option.getD_some]

theorem lookup_spelling {x : Mention × Tier}
    (hp : ∀ y ∈ placed, f.canonical y.1.tier = .ok y.2) (hx : x ∈ placed) :
    ∃ n l, lookup f (ofPlaced f placed) x.1.tier = .ok (n, l) ∧
      (levelsOf f placed)[n]? = some l ∧ l.tier = x.2 ∧
      (x.1.binding = true → l.required = true) := by
  obtain ⟨n, hn, ht⟩ := find?_spelling hp hx
  obtain ⟨l, hl, hlt⟩ := getElem?_tiersOf_iff.1 ht
  refine ⟨n, l, ?_, hl, hlt, fun hb => (required_iff hl).2 ?_⟩
  · simp only [lookup, hn]
    rw [show (ofPlaced f placed).levels[n]? = some l from hl]
  · exact mem_requiredOf.2 (Or.inr ⟨x, hx, hb, hlt ▸ x.2.self_mem_chain⟩)

/-! Pattern order -/

theorem insertBefore_perm {α : Type} (after : α → Bool) (x : α) (ys : List α) :
    (insertBefore after x ys).Perm (x :: ys) := by
  induction ys with
  | nil => exact List.Perm.refl _
  | cons y ys ih =>
    unfold insertBefore
    split
    · exact List.Perm.refl _
    · exact (ih.cons y).trans (List.Perm.swap x y ys)

theorem stableSort_perm {α : Type} (r : α → α → Bool) (xs : List α) :
    (stableSort r xs).Perm xs := by
  induction xs with
  | nil => exact List.Perm.refl _
  | cons x xs ih => exact (insertBefore_perm _ _ _).trans (ih.cons x)

theorem map_snd_indexed (t : LevelTable) : t.indexed.map Prod.snd = t.levels := by
  rw [indexed, List.map_map]
  exact List.zipIdx_map_fst 0 t.levels

theorem mem_indexed {t : LevelTable} {n : LevelId} {l : Level} :
    (n, l) ∈ t.indexed ↔ t.levels[n]? = some l := by
  simp [indexed, List.mem_map, List.mem_zipIdx_iff_getElem?]

theorem mem_required {t : LevelTable} {n : LevelId} {l : Level} :
    (n, l) ∈ t.required ↔ t.levels[n]? = some l ∧ l.required = true := by
  rw [required, (stableSort_perm _ _).mem_iff, List.mem_filter, mem_indexed]

theorem mem_optional {t : LevelTable} {n : LevelId} {l : Level} :
    (n, l) ∈ t.optional ↔ t.levels[n]? = some l ∧ l.required = false := by
  rw [optional, List.mem_filter, mem_indexed]
  simp

theorem level_of_mem_required {t : LevelTable} {l : LevelId × Level} (h : l ∈ t.required) :
    l.2 ∈ t.levels :=
  List.mem_of_getElem? (mem_required.1 h).1

theorem level_of_mem_optional {t : LevelTable} {l : LevelId × Level} (h : l ∈ t.optional) :
    l.2 ∈ t.levels :=
  List.mem_of_getElem? (mem_optional.1 h).1

theorem required_append_optional_perm (t : LevelTable) :
    (t.required ++ t.optional).Perm t.indexed :=
  ((stableSort_perm _ _).append_right _).trans (List.filter_append_perm _ _)

end LevelTable

end TierQuery
