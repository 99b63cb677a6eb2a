import Mathlib.Data.List.Nodup
import Mathlib.Data.List.Perm.Subperm
import Std.Data.String.ToNat
import TierQuery.LevelTable
import TierQuery.Statement.Parameters

/-! Numbered names. Two numbers never give one name behind the same stem, so a free candidate for a
variable is always found, and the number at the end of a parameter tells it from all others. -/

namespace TierQuery

theorem underscore_notMem_toString (n : Nat) : '_' ∉ (toString n).toList := by
  simp

theorem toString_nat_injective {m n : Nat} (h : toString m = toString n) : m = n :=
  Nat.repr_injective h

/-- The text behind the last underscore. -/
theorem eq_of_append_underscore {xs ys ds es : List Char} (hd : '_' ∉ ds) (he : '_' ∉ es)
    (h : xs ++ '_' :: ds = ys ++ '_' :: es) : ds = es := by
  have hr : ds.reverse ++ '_' :: xs.reverse = es.reverse ++ '_' :: ys.reverse := by
    simpa using congrArg List.reverse h
  have htake (zs ts : List Char) (hz : '_' ∉ zs) :
      (zs.reverse ++ '_' :: ts).takeWhile (· ≠ '_') = zs.reverse := by
    rw [List.takeWhile_append_of_pos]
    · simp
    · intro c hc
      have : c ≠ '_' := fun e => hz (by simpa [e] using hc)
      simpa using this
  have := congrArg (List.takeWhile (· ≠ '_')) hr
  rw [htake ds _ hd, htake es _ he] at this
  exact List.reverse_injective this

theorem parameterName_injective {a b : String} {m n : Nat}
    (h : parameterName a m = parameterName b n) : m = n := by
  apply toString_nat_injective
  apply String.toList_injective
  have hlist : (Identifier.snakeCase a).toList ++ '_' :: (toString m).toList
      = (Identifier.snakeCase b).toList ++ '_' :: (toString n).toList := by
    simpa [parameterName] using congrArg String.toList h
  exact eq_of_append_underscore (underscore_notMem_toString m) (underscore_notMem_toString n) hlist

theorem numbered_injective (stem : String) : Function.Injective (numbered stem) := by
  have hlen (n : Nat) : stem ≠ stem ++ "_" ++ toString n := by
    intro h
    have := congrArg String.length h
    simp only [String.length_append] at this
    have h1 : "_".length = 1 := rfl
    omega
  intro m n h
  match m, n with
  | 0, 0 => rfl
  | 0, n + 1 => exact absurd h (hlen _)
  | m + 1, 0 => exact absurd h.symm (hlen _)
  | m + 1, n + 1 =>
    have hs : toString (m + 2) = toString (n + 2) := by
      apply String.toList_injective
      simpa [numbered] using congrArg String.toList h
    have := toString_nat_injective hs
    omega

/-- Among one more candidate than there are names taken, one is free. -/
theorem exists_free (taken : List String) (stem : String) :
    ∃ n ≤ taken.length, numbered stem n ∉ taken := by
  by_contra hall
  push Not at hall
  have hsub : (List.range (taken.length + 1)).map (numbered stem) ⊆ taken := by
    intro c hc
    obtain ⟨n, hn, rfl⟩ := List.mem_map.1 hc
    exact hall n (Nat.lt_succ_iff.1 (List.mem_range.1 hn))
  have hnd : ((List.range (taken.length + 1)).map (numbered stem)).Nodup :=
    List.nodup_range.map (numbered_injective stem)
  have hle := (List.subperm_of_subset hnd hsub).length_le
  rw [List.length_map, List.length_range] at hle
  omega

/-- The fresh name is the first candidate that is free. -/
theorem freshName_eq_numbered (taken : List String) (stem : String) :
    ∃ n, freshName taken stem = numbered stem n ∧ numbered stem n ∉ taken ∧
      ∀ k < n, numbered stem k ∈ taken := by
  rw [freshName, List.find?_map]
  cases h : (List.range (taken.length + 1)).find? ((!taken.contains ·) ∘ numbered stem) with
  | none =>
    exfalso
    obtain ⟨n, hn, hfree⟩ := exists_free taken stem
    have htaken := List.find?_eq_none.1 h n (List.mem_range.2 (by omega))
    simp [hfree] at htaken
  | some n =>
    obtain ⟨hfree, -, hlt⟩ := List.find?_range_eq_some.1 h
    exact ⟨n, rfl, by simpa using hfree, fun k hk => by simpa using hlt k hk⟩

theorem freshName_notMem (taken : List String) (stem : String) : freshName taken stem ∉ taken := by
  obtain ⟨n, hn, hfree, -⟩ := freshName_eq_numbered taken stem
  rw [hn]
  exact hfree

theorem nodup_foldl_freshName (stems : List String) {taken : List String} (h : taken.Nodup) :
    (stems.foldl (fun taken stem => taken ++ [freshName taken stem]) taken).Nodup := by
  induction stems generalizing taken with
  | nil => exact h
  | cons s ss ih =>
    apply ih
    rw [List.nodup_append]
    refine ⟨h, List.nodup_singleton _, fun a ha b hb => ?_⟩
    rw [List.mem_singleton.1 hb]
    exact fun e => freshName_notMem taken s (e ▸ ha)

theorem nodup_freshNames (stems : List String) : (freshNames stems).Nodup :=
  nodup_foldl_freshName stems List.nodup_nil

theorem prefix_foldl_freshName (stems taken : List String) :
    taken <+: stems.foldl (fun taken stem => taken ++ [freshName taken stem]) taken := by
  induction stems generalizing taken with
  | nil => exact List.prefix_refl _
  | cons s ss ih => exact (List.prefix_append taken _).trans (ih _)

/-- Later stems leave earlier names as they are. -/
theorem freshNames_prefix_append (stems later : List String) :
    freshNames stems <+: freshNames (stems ++ later) := by
  unfold freshNames
  rw [List.foldl_append]
  exact prefix_foldl_freshName later _

theorem freshNames_concat (stems : List String) (stem : String) :
    freshNames (stems ++ [stem]) = freshNames stems ++ [freshName (freshNames stems) stem] := by
  rw [freshNames, List.foldl_append]
  rfl

theorem take_freshNames (stems : List String) (n : Nat) :
    (freshNames stems).take n = freshNames (stems.take n) := by
  have hprefix := freshNames_prefix_append (stems.take n) (stems.drop n)
  rw [List.take_append_drop] at hprefix
  rw [List.prefix_iff_eq_take.1 hprefix, length_freshNames, List.length_take, List.take_eq_take_iff,
    length_freshNames]
  omega

/-- Every name is fresh among the names before it. -/
theorem getElem?_freshNames {stems : List String} {n : Nat} {stem : String}
    (h : stems[n]? = some stem) :
    (freshNames stems)[n]? = some (freshName ((freshNames stems).take n) stem) := by
  have hconcat : stems.take (n + 1) = stems.take n ++ [stem] := by
    rw [List.take_add_one, h, Option.toList_some]
  have hlen : (freshNames (stems.take n)).length = n := by
    have hn := (List.getElem?_eq_some_iff.1 h).1
    rw [length_freshNames, List.length_take]
    omega
  calc (freshNames stems)[n]?
      = ((freshNames stems).take (n + 1))[n]? := by rw [List.getElem?_take_of_lt n.lt_succ_self]
    _ = (freshNames (stems.take n) ++ [freshName (freshNames (stems.take n)) stem])[n]? := by
        rw [take_freshNames, hconcat, freshNames_concat]
    _ = some (freshName ((freshNames stems).take n) stem) := by
        rw [List.getElem?_append_right (Nat.le_of_eq hlen), hlen, Nat.sub_self, take_freshNames]
        rfl

end TierQuery
