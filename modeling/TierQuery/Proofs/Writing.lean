import TierQuery.Proofs.Scoping

/-! Where a write goes. It goes to the first level of the table, and the prefixes of the searched-for
type have their levels before the type itself. So the tokens written are the tokens searched for as
long as no prefix is in the way, and those of a prefix otherwise. -/

namespace TierQuery

variable {π : Type}

namespace Tier

/-- Where the chain of a tier starts: at the tier itself if it has no prefix. -/
def base (a : Tier) : Tier := if a.depth ≤ 1 then a else a.cut 1

theorem base_eq_self_iff {a : Tier} : a.base = a ↔ a.depth ≤ 1 := by
  unfold base
  split
  · next h => simp [h]
  · next h =>
    refine ⟨fun e => ?_, fun h' => absurd h' h⟩
    have := congrArg depth e
    rw [depth_cut] at this
    omega

theorem chain_eq_base_cons (a : Tier) : ∃ rest, a.chain = a.base :: rest := by
  unfold base
  split
  · next h =>
    have h0 : a.depth - 1 = 0 := by omega
    exact ⟨[], by simp [chain_eq, h0]⟩
  · next h =>
    obtain ⟨n, hn⟩ : ∃ n, a.depth - 1 = n + 1 := ⟨a.depth - 2, by omega⟩
    rw [chain_eq, hn, List.range_succ_eq_map]
    exact ⟨_, rfl⟩

end Tier

namespace LevelTable

variable {f : Frame} {placed : List (Mention × Tier)}

theorem tiersOf_base : (tiersOf f placed)[0]? = some f.root.base := by
  obtain ⟨rest, h⟩ := f.root.chain_eq_base_cons
  simp [tiersOf, h, distinct]

end LevelTable

/-- The tail makes the changes of `m` on the token of the level and on its type node, and on nothing
else. -/
def Tail.Writes (l : Level) (m : Mutation) : Tail π → Prop
  | select _ _ => False
  | set link? assignments =>
    m.delete = false ∧ (∀ k, link? = some k → k.var = l.var ∧ k.node.var = l.typeVar) ∧
      assignments.map (fun a => (a.var, a.key))
        = m.typeProperties.names.map (l.typeVar, ·) ++ m.tokenProperties.names.map (l.var, ·)
  | delete var => m.delete = true ∧ var = l.var

theorem Plan.map_assignments (var : String) (properties : Bindings) :
    (assignments var properties).map (fun a => (a.var, a.key)) = properties.names.map (var, ·) := by
  simp [assignments, Bindings.names]

theorem Plan.writes_mutationTail (p : Plan) (m : Mutation) :
    (p.mutationTail m).Writes p.table.root m := by
  unfold mutationTail
  by_cases hd : m.delete = true
  · rw [if_pos hd]
    exact ⟨hd, rfl⟩
  · rw [if_neg hd]
    refine ⟨by simpa using hd, fun k hk => ?_, ?_⟩
    · split at hk
      · cases hk
        exact ⟨rfl, rfl⟩
      · cases hk
    · rw [List.map_append, map_assignments, map_assignments]

theorem Bindings.names_ne_nil_iff {b : Bindings} : b.names ≠ [] ↔ b.isEmpty = false := by
  simp [names, isEmpty]

/-- The levels of a table have different variables, so a write that changes something is a write to
one of them. -/
theorem LevelTable.eq_of_writes {f : Frame} {placed : List (Mention × Tier)} {l k : Level}
    (hl : l ∈ levelsOf f placed) (hk : k ∈ levelsOf f placed) {m : Mutation} {t : Tail π}
    (hm : m.isEmpty = false) (htl : t.Writes l m) (htk : t.Writes k m) : l = k := by
  cases t with
  | select items order => exact htl.elim
  | delete var => exact eq_of_var_eq hl hk (htl.2.symm.trans htk.2)
  | set link? assignments =>
    obtain ⟨hd, -, hal⟩ := htl
    obtain ⟨-, -, hak⟩ := htk
    obtain ⟨htype, htoken⟩ := List.append_inj (hal.symm.trans hak) (by simp)
    have hupdates : m.typeProperties.names ≠ [] ∨ m.tokenProperties.names ≠ [] := by
      rw [Bindings.names_ne_nil_iff, Bindings.names_ne_nil_iff, ← Bool.not_eq_true,
        ← Decidable.imp_iff_not_or]
      simpa [Mutation.isEmpty, Mutation.updates, hd] using hm
    rcases hupdates with h | h
    · obtain ⟨key, keys, he⟩ := List.exists_cons_of_ne_nil h
      rw [he] at htype
      have hvar : l.typeVar = k.typeVar := by simpa using congrArg List.head? htype
      exact eq_of_var_eq hl hk (var_eq_of_typeVar_eq hl hk hvar)
    · obtain ⟨key, keys, he⟩ := List.exists_cons_of_ne_nil h
      rw [he] at htoken
      exact eq_of_var_eq hl hk (by simpa using congrArg List.head? htoken)

/-! Numbering leaves the target of a write as it is -/

theorem Assignment.yields_target (a : Assignment Literal) :
    Yields (a.replace Literal.number) fun a' => (a'.var, a'.key) = (a.var, a.key) :=
  (Yields.trivial _).bind fun _ _ => .pure rfl

theorem Tail.yields_writes (t : Tail Literal) (l : Level) (m : Mutation) :
    Yields (t.replace Literal.number) fun t' => t'.Writes l m ↔ t.Writes l m := by
  cases t with
  | select items order => exact (Yields.trivial _).bind fun _ _ => .pure Iff.rfl
  | set link? assignments =>
    refine (Yields.mapM Assignment.yields_target assignments).bind fun as has => .pure ?_
    simp only [Writes, has]
  | delete var => exact .pure Iff.rfl

theorem Statement.writes_ofBody (b : Body Literal) (l : Level) (m : Mutation) :
    (Statement.ofBody b).body.tail.Writes l m ↔ b.tail.Writes l m :=
  b.tail.yields_writes l m _

theorem Query.isEmpty_mutation {q : Query} (h : q.validate .mutation = .ok ()) :
    q.mutation.isEmpty = false := by
  by_contra he
  have he : q.mutation.isEmpty = true := by simpa using he
  simp [validate, checkMutation, he] at h

/-- A write goes to the first level, which is that of the searched-for type under the scope exactly
when this type has no prefix: with one hop or none. -/
theorem write_reaches_searched_for_level_iff {q : Query} {s : Statement}
    (hs : q.mutationStatement = .ok s) :
    ∃ p, q.plan .mutation = .ok p ∧
      Frame.ofQuery q.hierarchy q.find q.criteria = .ok p.frame ∧
      s.body.tail.Writes p.table.root q.mutation ∧ p.table.root.tier = p.frame.root.base ∧
      ∃ l ∈ p.table.levels, l.tier = p.frame.root ∧
        (s.body.tail.Writes l q.mutation ↔ q.find.depth ≤ 1) := by
  obtain ⟨hv, p, b, hp, hb, rfl⟩ := Query.compile_eq_ok_iff.1 hs
  obtain ⟨placed, h⟩ := Query.plan_eq_ok_iff.1 hp
  have htail : b.tail = p.mutationTail q.mutation :=
    (Except.ok.inj (Plan.body_eq_ok_iff.1 hb).2.2).symm
  have hroot : (Statement.ofBody b).body.tail.Writes p.table.root q.mutation := by
    rw [Statement.writes_ofBody, htail]
    exact p.writes_mutationTail q.mutation
  have hmap : p.table.levels.map (·.tier) = LevelTable.tiersOf p.frame placed := by
    rw [h.levels_eq, LevelTable.map_tier_levelsOf]
  have hmem : p.table.root ∈ p.table.levels := List.head_mem _
  have hbase : p.table.root.tier = p.frame.root.base := by
    have h0 : p.table.levels[0]? = some p.table.root := by
      rw [← List.head?_eq_getElem?]
      exact List.head?_eq_some_head p.table.nonempty
    have htier : (p.table.levels.map (·.tier))[0]? = some p.frame.root.base :=
      hmap ▸ LevelTable.tiersOf_base
    simpa [h0] using htier
  have hdepth : p.frame.root.depth = q.find.depth := by
    rw [(Frame.ofQuery_eq_ok h.frame).2]
    rfl
  obtain ⟨l, hl, hlt⟩ : ∃ l ∈ p.table.levels, l.tier = p.frame.root := by
    rw [← List.mem_map, hmap]
    exact LevelTable.requiredOf_subset LevelTable.root_mem_requiredOf
  refine ⟨p, hp, h.frame, hroot, hbase, l, hl, hlt, ?_⟩
  rw [← hdepth, ← Tier.base_eq_self_iff, ← hbase, ← hlt]
  refine ⟨fun hw => ?_, fun ht => ?_⟩
  · rw [LevelTable.eq_of_writes (h.levels_eq ▸ hmem) (h.levels_eq ▸ hl)
      (Query.isEmpty_mutation hv) hroot hw]
  · obtain ⟨n, hn⟩ := List.mem_iff_getElem?.1 hl
    obtain ⟨k, hk⟩ := List.mem_iff_getElem?.1 hmem
    rw [← (h.level_unique hk hn ht).2]
    exact hroot

/-- A deletion of the phones that come next: one hop. -/
def Query.deleteNextPhone : Query :=
  (Query.ofFind (.ofList ["phone", "word", "utterance"])
    ((Tier.ofLevel "phone").hop .following)).withDelete

/-- A deletion of their words: two hops. -/
def Query.deleteNextWord : Query :=
  (Query.ofFind (.ofList ["phone", "word", "utterance"])
    (((Tier.ofLevel "phone").hop .following).hop (.up "word"))).withDelete

theorem deleteNextPhone_reaches_its_phones :
    ∃ s p l, Query.deleteNextPhone.mutationStatement = .ok s ∧
      Query.deleteNextPhone.plan .mutation = .ok p ∧ l ∈ p.table.levels ∧
      l.tier = p.frame.root ∧ s.body.tail.Writes l Query.deleteNextPhone.mutation := by
  obtain ⟨s, hs⟩ :=
    exists_ok_of_isOk (x := Query.deleteNextPhone.mutationStatement) (by decide +kernel)
  obtain ⟨p, hp, -, -, -, l, hl, ht, hw⟩ := write_reaches_searched_for_level_iff hs
  exact ⟨s, p, l, hs, hp, hl, ht, hw.2 (by decide)⟩

/-- Here the prefix comes before the type: the phones are deleted, and the words stay. -/
theorem deleteNextWord_deletes_phones :
    ∃ s p l, Query.deleteNextWord.mutationStatement = .ok s ∧
      Query.deleteNextWord.plan .mutation = .ok p ∧ l ∈ p.table.levels ∧ l.tier = p.frame.root ∧
      l.var = "node_phone_following_word" ∧ s.body.tail = .delete "node_phone_following" ∧
      ¬ s.body.tail.Writes l Query.deleteNextWord.mutation := by
  obtain ⟨s, hs, htail⟩ := exists_ok_of_toOption_map
    (x := Query.deleteNextWord.mutationStatement) (g := (·.body.tail))
    (b := .delete "node_phone_following") (by decide +kernel)
  obtain ⟨p, hp, hfound⟩ := exists_ok_of_toOption_map
    (x := Query.deleteNextWord.plan .mutation)
    (g := fun p => (p.table.levels.find? (·.tier = p.frame.root)).map (·.var))
    (b := some "node_phone_following_word") (by decide +kernel)
  obtain ⟨l, hl, hvar⟩ := Option.map_eq_some_iff.1 hfound
  refine ⟨s, p, l, hs, hp, List.mem_of_find?_eq_some hl, ?_, hvar, htail, ?_⟩
  · simpa using List.find?_some hl
  · rw [htail]
    rintro ⟨-, h⟩
    rw [hvar] at h
    revert h
    decide

end TierQuery
