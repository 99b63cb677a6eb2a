import Mathlib.Data.Finset.Dedup
import TierQuery.Proofs.Fragments
import TierQuery.Proofs.Scoping

/-! The variables of a pattern. They stand in a statement as they are, so each has to be a plain
identifier, whatever the levels are called, and two nodes under one variable would be one node. Many
names lead to one stem, and a numbered stem may be the stem of another level, so a number is
searched for that no level before has. -/

namespace TierQuery

/-- The search for a name that is not taken, at its `n`-th candidate, ends at a name: the candidate
itself, or what the search ends at from the next one. -/
inductive SearchEnds (taken : Finset String) (stem : String) : Nat → String → Prop
  | free {n : Nat} : numbered stem n ∉ taken → SearchEnds taken stem n (numbered stem n)
  | next {n : Nat} {name : String} :
    numbered stem n ∈ taken → SearchEnds taken stem (n + 1) name → SearchEnds taken stem n name

theorem SearchEnds.notMem {taken : Finset String} {stem name : String} {n : Nat}
    (h : SearchEnds taken stem n name) : name ∉ taken := by
  induction h with
  | free hfree => exact hfree
  | next _ _ ih => exact ih

theorem searchEnds_of_first {taken : Finset String} {stem : String} {n k : Nat}
    (hfree : numbered stem (n + k) ∉ taken) (htaken : ∀ i < k, numbered stem (n + i) ∈ taken) :
    SearchEnds taken stem n (numbered stem (n + k)) := by
  induction k generalizing n with
  | zero => exact .free hfree
  | succ k ih =>
    have hshift (i : Nat) : n + 1 + i = n + (i + 1) := by omega
    refine .next (htaken 0 (by omega)) ?_
    rw [← hshift k]
    refine ih (by rwa [hshift]) fun i hi => ?_
    rw [hshift]
    exact htaken (i + 1) (by omega)

theorem searchEnds_freshName {taken : Finset String} {names : List String}
    (h : ∀ name, name ∈ taken ↔ name ∈ names) (stem : String) :
    SearchEnds taken stem 0 (freshName names stem) := by
  obtain ⟨n, hn, hfree, hfirst⟩ := freshName_eq_numbered names stem
  rw [hn, ← Nat.zero_add n]
  refine searchEnds_of_first ?_ fun i hi => ?_
  · rw [Nat.zero_add, h]
    exact hfree
  · rw [Nat.zero_add, h]
    exact hfirst i hi

/-- In front of all names, a text in front of the stem changes nothing in a search. -/
theorem SearchEnds.prepend {taken taken' : Finset String} {text stem name : String} {n : Nat}
    (h : ∀ x, text ++ x ∈ taken' ↔ x ∈ taken) (hs : SearchEnds taken stem n name) :
    SearchEnds taken' (text ++ stem) n (text ++ name) := by
  have hnumbered (n : Nat) : text ++ numbered stem n = numbered (text ++ stem) n := by
    cases n with
    | zero => rfl
    | succ n => simp only [numbered, String.append_assoc]
  induction hs with
  | free hfree =>
    rw [hnumbered]
    refine .free ?_
    rw [← hnumbered, h]
    exact hfree
  | next htaken _ ih =>
    refine .next ?_ ih
    rw [← hnumbered, h]
    exact htaken

/-! Plain names -/

namespace Identifier

/-- An identifier in front goes on with all of the text. -/
def Continues (s : String) : Prop := ∀ c ∈ s.toList, isTail c = true

theorem continues_underscore : Continues "_" := by
  intro c hc
  obtain rfl := List.mem_singleton.1 hc
  rfl

theorem Continues.append {s t : String} (hs : Continues s) (ht : Continues t) :
    Continues (s ++ t) := by
  intro c hc
  rw [String.toList_append] at hc
  exact (List.mem_append.1 hc).elim (hs c) (ht c)

theorem isPlain_append {s t : String} (hs : isPlain s = true) (ht : Continues t) :
    isPlain (s ++ t) = true := by
  obtain ⟨c, cs, hcs, hc, htail⟩ := isPlain_iff.1 hs
  refine isPlain_iff.2 ⟨c, cs ++ t.toList, by rw [String.toList_append, hcs]; rfl, hc, ?_⟩
  intro d hd
  exact (List.mem_append.1 hd).elim (htail d) (ht d)

theorem continues_snakeCase (s : String) : Continues (snakeCase s) :=
  isTail_of_isPlain (isFragment_snakeCase s).plain

theorem continues_joinWith {sep : String} (hsep : Continues sep) {ss : List String}
    (h : ∀ s ∈ ss, Continues s) : Continues (joinWith sep ss) := by
  induction ss with
  | nil => intro c hc; cases hc
  | cons s ss ih =>
    obtain ⟨hs, hss⟩ := List.forall_mem_cons.1 h
    cases ss with
    | nil => exact hs
    | cons t ts => exact (hs.append hsep).append (ih hss)

theorem continues_numbered {stem : String} (h : Continues stem) (n : Nat) :
    Continues (numbered stem n) := by
  cases n with
  | zero => exact h
  | succ n =>
    refine (h.append continues_underscore).append fun c hc => ?_
    rw [Nat.toString_eq_repr, Nat.toList_repr] at hc
    have hdigit : c.isDigit = true := Nat.isDigit_of_mem_toDigits (by omega) (by omega) hc
    simp [isTail, Char.isAlphanum, hdigit]

end Identifier

open Identifier (Continues)

theorem Tier.continues_stem (a : Tier) : Continues a.stem := by
  refine Identifier.continues_joinWith Identifier.continues_underscore fun s hs => ?_
  rcases List.mem_cons.1 hs with rfl | hs
  · exact Identifier.continues_snakeCase _
  · obtain ⟨hop, -, rfl⟩ := List.mem_map.1 hs
    exact Identifier.continues_snakeCase _

namespace LevelTable

/-- The variables of the nodes, and then those of their types. -/
def allVars (t : LevelTable) : List String := t.levels.map (·.var) ++ t.levels.map (·.typeVar)

/-- Every level has variables of its own, which are plain. That of its node is the first candidate
that no level before has, and that of its type goes by the same name. -/
structure NamesApart (t : LevelTable) : Prop where
  plain : ∀ v ∈ t.allVars, Identifier.isPlain v = true
  distinct : t.allVars.Nodup
  first : ∀ (n : LevelId) (l : Level), t.levels[n]? = some l →
    SearchEnds ((t.levels.take n).map (·.var)).toFinset ("node_" ++ l.tier.stem) 0 l.var ∧
      ∃ name, l.var = "node_" ++ name ∧ l.typeVar = "type_" ++ name

variable {f : Frame} {placed : List (Mention × Tier)}

/-- A level goes by the name that is fresh among those of the levels before it. -/
theorem name_of_getElem? {n : LevelId} {l : Level} (h : (levelsOf f placed)[n]? = some l) :
    ∃ names : List String, ((levelsOf f placed).take n).map (·.var) = names.map ("node_" ++ ·) ∧
      l.var = "node_" ++ freshName names l.tier.stem ∧
      l.typeVar = "type_" ++ freshName names l.tier.stem := by
  obtain ⟨a, name, ha, hname, rfl⟩ := getElem?_levelsOf.1 h
  have hstem : ((tiersOf f placed).map Tier.stem)[n]? = some a.stem := by
    rw [List.getElem?_map, ha, Option.map_some]
  obtain rfl := Option.some.inj ((getElem?_freshNames hstem).symm.trans hname)
  refine ⟨(freshNames ((tiersOf f placed).map Tier.stem)).take n, ?_, rfl, rfl⟩
  rw [List.map_take, map_var_levelsOf, List.map_take]

theorem continues_name {l : Level} (h : l ∈ levelsOf f placed) :
    ∃ name, Continues name ∧ l.var = "node_" ++ name ∧ l.typeVar = "type_" ++ name := by
  obtain ⟨n, hn⟩ := List.mem_iff_getElem?.1 h
  obtain ⟨names, -, hvar, htypeVar⟩ := name_of_getElem? hn
  obtain ⟨k, hk, -⟩ := freshName_eq_numbered names l.tier.stem
  refine ⟨_, ?_, hvar, htypeVar⟩
  rw [hk]
  exact Identifier.continues_numbered l.tier.continues_stem k

theorem nodup_typeVars : ((levelsOf f placed).map (·.typeVar)).Nodup := by
  have hvars : ((levelsOf f placed).map (·.var)).Nodup := nodup_vars
  refine List.pairwise_map.2 ((List.pairwise_map.1 hvars).imp_of_mem fun hl hm hne he => ?_)
  exact hne (var_eq_of_typeVar_eq hl hm he)

theorem namesApart_ofPlaced (f : Frame) (placed : List (Mention × Tier)) :
    (ofPlaced f placed).NamesApart where
  plain v hv := by
    rcases List.mem_append.1 hv with hv | hv
    · obtain ⟨l, hl, rfl⟩ := List.mem_map.1 hv
      obtain ⟨name, hname, hvar, -⟩ := continues_name hl
      rw [hvar]
      exact Identifier.isPlain_append (by decide) hname
    · obtain ⟨l, hl, rfl⟩ := List.mem_map.1 hv
      obtain ⟨name, hname, -, htypeVar⟩ := continues_name hl
      rw [htypeVar]
      exact Identifier.isPlain_append (by decide) hname
  distinct := by
    refine List.nodup_append.2 ⟨nodup_vars, nodup_typeVars, fun v hv w hw => ?_⟩
    obtain ⟨l, hl, rfl⟩ := List.mem_map.1 hv
    obtain ⟨m, hm, rfl⟩ := List.mem_map.1 hw
    exact var_ne_typeVar hl hm
  first n l hl := by
    obtain ⟨names, htaken, hvar, htypeVar⟩ := name_of_getElem? hl
    refine ⟨?_, _, hvar, htypeVar⟩
    rw [hvar]
    have hends : SearchEnds names.toFinset l.tier.stem 0 (freshName names l.tier.stem) :=
      searchEnds_freshName (fun x => List.mem_toFinset) _
    refine hends.prepend fun x => ?_
    have hmem : "node_" ++ x ∈ names.map ("node_" ++ ·) ↔ x ∈ names :=
      List.mem_map_of_injective fun _ _ => (String.append_right_inj _).1
    rw [List.mem_toFinset, List.mem_toFinset, ← hmem, ← htaken]
    rfl

end LevelTable

/-- Whatever the levels are called, their variables are plain identifiers that differ, and whatever
is taken, the search for a name ends with one that is free. -/
theorem variables_are_fresh_identifiers {f : Frame} {r : References} {t : LevelTable}
    (h : LevelTable.resolve f r = .ok t) :
    t.NamesApart ∧ ∀ (taken : Finset String) (stem : String), ∃ name,
      SearchEnds taken stem 0 name ∧ name ∉ taken := by
  obtain ⟨placed, -, rfl⟩ := LevelTable.resolve_eq_ok_iff.1 h
  refine ⟨LevelTable.namesApart_ofPlaced f placed, fun taken stem => ?_⟩
  have hends : SearchEnds taken stem 0 (freshName taken.toList stem) :=
    searchEnds_freshName (fun x => Finset.mem_toList.symm) stem
  exact ⟨_, hends, hends.notMem⟩

/-- New words, stressed words and the level `Word  2`. The first two have one stem, and with its
number the second is called what the third has for its stem. -/
def References.wordsOfOneStem : References :=
  let word := (Tier.ofLevel "phone").hop (.up "word")
  ⟨[], [(word.withTypeSubset "new").attribute .label,
    (word.withTokenSubset "stressed").attribute .label,
    ((Tier.ofLevel "phone").hop (.up "Word  2")).attribute .label], [], [], []⟩

theorem wordsOfOneStem_have_variables_of_their_own :
    ∃ t, LevelTable.resolve ⟨⟨["phone", "word", "Word  2"]⟩, .ofLevel "phone", none⟩ .wordsOfOneStem
        = .ok t ∧
      t.levels.map (·.var)
        = ["node_phone", "node_phone_word", "node_phone_word_2", "node_phone_word_2_2"] ∧
      t.NamesApart := by
  obtain ⟨t, ht, hvars⟩ := exists_ok_of_toOption_map
    (x := LevelTable.resolve ⟨⟨["phone", "word", "Word  2"]⟩, .ofLevel "phone", none⟩
      .wordsOfOneStem)
    (g := fun t => t.levels.map (·.var))
    (b := ["node_phone", "node_phone_word", "node_phone_word_2", "node_phone_word_2_2"])
    (by decide +kernel)
  exact ⟨t, ht, hvars, (variables_are_fresh_identifiers ht).1⟩

end TierQuery
