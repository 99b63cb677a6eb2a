import TierQuery.Proofs.Levels

/-! Canonical forms start at the searched-for level and are made of hops that the hierarchy allows,
and so are all their prefixes. -/

namespace TierQuery

theorem Discourse.apply_eq_ok {scope : Option String} {a b : Tier} (h : apply scope a = .ok b) :
    b = a.withDiscourse (scope.or a.discourse) := by
  unfold apply at h
  split at h
  · next ha => cases h; simp [ha]
  · next own d ha =>
    split at h
    · next hd => cases h; subst hd; simp [Tier.withDiscourse, ← ha]
    · cases h
  · cases h
    simp [Tier.withDiscourse]

theorem Frame.ofQuery_eq_ok {h : Hierarchy} {find : Tier} {cs : List Criterion} {f : Frame}
    (hf : ofQuery h find cs = .ok f) :
    f.hierarchy = h ∧ f.root = find.withDiscourse f.root.discourse := by
  obtain ⟨scope, -, hf⟩ := bind_eq_ok_iff.1 hf
  obtain ⟨root, hr, hf⟩ := bind_eq_ok_iff.1 hf
  cases hf
  refine ⟨rfl, ?_⟩
  rw [Discourse.apply_eq_ok hr]
  rfl

namespace Frame

theorem walkable_of_append {h : Hierarchy} {l : Option String} {hs gs : List Hop}
    (hw : walkable h l (hs ++ gs) = true) : walkable h l hs = true := by
  induction hs generalizing l with
  | nil => cases l <;> simp [walkable]
  | cons hop hs ih =>
    cases l with
    | none => simp [walkable] at hw
    | some l =>
      cases hop with
      | following => exact ih hw
      | previous => exact ih hw
      | speaker => exact ih hw
      | up u =>
        simp only [List.cons_append, walkable, Bool.and_eq_true] at hw ⊢
        exact ⟨hw.1, ih hw.2⟩

/-- A containment hop goes a definite number of levels up from where the hops before it lead. -/
theorem distance?_of_walkable {h : Hierarchy} {l u : String} {hs : List Hop}
    (hw : walkable h (some l) (hs ++ [.up u]) = true) :
    ∃ n, h.distance? (hs.foldl Tier.levelAfter l) u = some n := by
  induction hs generalizing l with
  | nil =>
    simp only [List.nil_append, walkable, Bool.and_true, Hierarchy.isAbove] at hw
    exact Option.isSome_iff_exists.1 hw
  | cons hop hs ih =>
    cases hop with
    | following => exact ih hw
    | previous => exact ih hw
    | up v =>
      simp only [List.cons_append, walkable, Bool.and_eq_true] at hw
      exact ih hw.2
    | speaker =>
      -- nothing follows a speaker
      cases hs <;> simp [walkable] at hw

/-- A tier that starts at the searched-for level and can be walked to. -/
structure Grounded (f : Frame) (a : Tier) : Prop where
  origin : a.origin = f.root.origin
  walkable : walkable f.hierarchy (some a.origin) a.hops = true
  root : a.hops = [] → a = f.root

variable {f : Frame}

theorem grounded_root (hr : f.root.hops = []) : f.Grounded f.root :=
  ⟨rfl, by rw [hr, Frame.walkable], fun _ => rfl⟩

theorem rooted_eq_ok {a r : Tier} (h : f.rooted a = .ok r) :
    r.origin = f.root.origin ∧ r.discourse = a.discourse := by
  unfold rooted at h
  split at h
  · next ho =>
    cases h
    exact ⟨ho, rfl⟩
  · split at h
    · cases h
      exact ⟨rfl, rfl⟩
    · cases h

theorem bindRoot_eq_ok {s c : Tier} (h : f.bindRoot s = .ok c) :
    c = f.root ∧ s.discourse = f.root.discourse := by
  unfold bindRoot at h
  split at h
  · next hb =>
    cases h
    exact ⟨rfl, hb.2⟩
  · cases h

/-- A canonical form is walked to from the searched-for level and is in the scope, and without hops it
is that level itself. -/
theorem canonical_eq_ok_iff {a c : Tier} : f.canonical a = .ok c ↔
    ∃ r s, f.rooted a = .ok r ∧ Frame.walkable f.hierarchy (some r.origin) r.hops = true ∧
      Discourse.apply f.scope r = .ok s ∧
      (s.hops = [] ∧ f.bindRoot s = .ok c ∨ s.hops ≠ [] ∧ s = c) := by
  have hlast (s : Tier) : (if s.hops = [] then f.bindRoot s else .ok s) = .ok c ↔
      s.hops = [] ∧ f.bindRoot s = .ok c ∨ s.hops ≠ [] ∧ s = c := by
    by_cases hh : s.hops = [] <;> simp [hh]
  rw [canonical, bind_eq_ok_iff]
  refine exists_congr fun r => ?_
  cases hw : Frame.walkable f.hierarchy (some r.origin) r.hops with
  | true => simp [bind_eq_ok_iff, hlast]
  | false => simp

theorem grounded_of_canonical (hr : f.root.hops = []) {a c : Tier} (h : f.canonical a = .ok c) :
    f.Grounded c := by
  obtain ⟨r, s, hrooted, hw, hs, ⟨-, hb⟩ | ⟨hh, rfl⟩⟩ := canonical_eq_ok_iff.1 h
  · rw [(bindRoot_eq_ok hb).1]
    exact grounded_root hr
  · obtain rfl := Discourse.apply_eq_ok hs
    exact ⟨(rooted_eq_ok hrooted).1, hw, fun e => absurd e hh⟩

theorem Grounded.of_mem_chain {a x : Tier} (h : f.Grounded a) (hx : x ∈ a.chain) :
    f.Grounded x := by
  rcases Tier.mem_chain.1 hx with rfl | ⟨n, h0, hn, rfl⟩
  · exact h
  · refine ⟨h.origin, ?_, fun e => ?_⟩
    · have := h.walkable
      rw [← List.take_append_drop n a.hops] at this
      exact walkable_of_append this
    · have : (a.cut n).depth = 0 := by rw [Tier.depth, e, List.length_nil]
      rw [Tier.depth_cut] at this
      omega

/-- Going back from a grounded tier, the containment hop can be counted. -/
theorem Grounded.distance?_above (hr : f.root.hops = []) {a : Tier} {u : String}
    (h : f.Grounded a) (hu : a.hops.getLast? = some (.up u)) :
    ∃ n, f.hierarchy.distance? (f.above a).name u = some n := by
  have hsplit : a.hops = a.hops.dropLast ++ [.up u] := by
    rw [List.dropLast_append_getLast? _ hu]
  have hname : (f.above a).name = a.hops.dropLast.foldl Tier.levelAfter a.origin := by
    unfold above
    split
    · next hd =>
      have : a.hops.dropLast = [] := by
        apply List.length_eq_zero_iff.1
        rw [List.length_dropLast, ← Tier.depth.eq_1]
        omega
      rw [Tier.name, hr, this, h.origin]
    · rw [Tier.name, List.dropLast_eq_take]
      rfl
  rw [hname]
  exact distance?_of_walkable (hsplit ▸ h.walkable)

end Frame

/-- All levels of a query are grounded. -/
theorem LevelTable.grounded_of_mem {f : Frame} {placed : List (Mention × Tier)}
    (hr : f.root.hops = []) (hp : ∀ x ∈ placed, f.canonical x.1.tier = .ok x.2) {a : Tier}
    (h : a ∈ tiersOf f placed) : f.Grounded a := by
  rcases mem_tiersOf.1 h with h | ⟨x, hx, h⟩
  · exact (Frame.grounded_root hr).of_mem_chain h
  · exact (Frame.grounded_of_canonical hr (hp x hx)).of_mem_chain h

end TierQuery
