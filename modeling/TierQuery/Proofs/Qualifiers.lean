import TierQuery.Proofs.DottedPaths

/-! Which qualifiers of a dotted path count. Every segment may carry them, but a hop leaves the
subsets of the tier before it behind. So two paths are read as one tier exactly when they go the same
way and the last segments carry the same subsets: those of an earlier segment are read, and then
forgotten. -/

namespace TierQuery

theorem NameSet.mem_foldl_insert {n : String} {ns : List String} {s : NameSet} :
    n ∈ (ns.foldl insert s).names ↔ n ∈ s.names ∨ n ∈ ns := by
  induction ns generalizing s with
  | nil => simp
  | cons m ns ih => rw [List.foldl_cons, ih, insert, mem_insertName, List.mem_cons]; tauto

theorem NameSet.mem_ofList {n : String} {ns : List String} : n ∈ (ofList ns).names ↔ n ∈ ns :=
  mem_foldl_insert.trans (or_iff_right List.not_mem_nil)

namespace DottedPath

/-! The way of a path -/

/-- The hop that a segment behind the first one names. -/
def hopNamed (name : String) : Hop :=
  if name = "following" then .following
  else if name = "previous" then .previous
  else if name = "speaker" then .speaker
  else .up name

theorem segment_hopNamed (name : String) : (hopNamed name).segment = name := by
  unfold hopNamed
  split_ifs with hfollowing hprevious hspeaker
  · exact hfollowing.symm
  · exact hprevious.symm
  · exact hspeaker.symm
  · rfl

theorem hopNamed_injective : Function.Injective hopNamed :=
  Function.LeftInverse.injective segment_hopNamed

theorem step_some (a : Tier) (name : String) : step (some a) name = a.hop (hopNamed name) := by
  unfold step hopNamed
  split_ifs <;> rfl

/-! Segments -/

namespace Segment

def typeSubsets (w : Segment) : NameSet :=
  .ofList ((w.qualifiers.filter (·.mark = ':')).map (String.ofList ·.name))

def tokenSubsets (w : Segment) : NameSet :=
  .ofList ((w.qualifiers.filter (·.mark = '+')).map (String.ofList ·.name))

/-- What the qualifiers say, whatever their order and repetition. -/
def subsets (w : Segment) : NameSet × NameSet := (w.typeSubsets, w.tokenSubsets)

/-- Qualifiers narrow a tier without subsets to theirs, and leave its way as it is. -/
theorem foldl_qualify {w : Segment} (h : w.WellFormed) (a : Tier) :
    w.qualifiers.foldl qualify a.withoutSubsets
      = { a with typeSubsets := w.typeSubsets, tokenSubsets := w.tokenSubsets } := by
  have hmem := mem_foldl_qualify w.qualifiers a.withoutSubsets
  have hempty (n : String) : n ∉ NameSet.empty.names := List.not_mem_nil
  refine Tier.eq_of_withoutSubsets (foldl_qualify_path _ _) ?_ ?_
  · refine NameSet.eq_of_mem_iff fun n => (hmem n).1.trans ?_
    simp [typeSubsets, NameSet.mem_ofList, Tier.withoutSubsets, hempty, and_assoc]
  · refine NameSet.eq_of_mem_iff fun n => (hmem n).2.trans ?_
    -- of a well-formed segment, what is no type subset is a token subset
    have hplus : ∀ q ∈ w.qualifiers, q.mark ≠ ':' ↔ q.mark = '+' := by
      intro q hq
      rcases (h.qualifiers q hq).1 with hmark | hmark <;> simp [hmark]
    simp only [tokenSubsets, NameSet.mem_ofList, Tier.withoutSubsets, hempty, false_or,
      List.mem_map, List.mem_filter, decide_eq_true_eq, and_assoc]
    exact exists_congr fun q => and_congr_right fun hq => and_congr_left' (hplus q hq)

/-- A first segment is an origin with its subsets. -/
theorem place_none {w : Segment} (h : w.WellFormed) :
    w.place none = ⟨String.ofList w.name, [], none, w.typeSubsets, w.tokenSubsets⟩ :=
  foldl_qualify h (.ofLevel (String.ofList w.name))

/-- A later one is a hop with its subsets, and nothing is left of the subsets before it. -/
theorem place_some {w : Segment} (h : w.WellFormed) (a : Tier) :
    w.place (some a) = { a with
      hops := a.hops ++ [hopNamed (String.ofList w.name)]
      typeSubsets := w.typeSubsets
      tokenSubsets := w.tokenSubsets } := by
  rw [place, step_some]
  exact foldl_qualify h (a.hop (hopNamed (String.ofList w.name)))

end Segment

/-- The tier at the end of a path: the names say where it is, the last segment what it is. -/
def tierOf (w : Segment) (ws : List Segment) : Tier where
  origin := String.ofList w.name
  hops := ws.map fun v => hopNamed (String.ofList v.name)
  discourse := none
  typeSubsets := (ws.getLastD w).typeSubsets
  tokenSubsets := (ws.getLastD w).tokenSubsets

theorem tierOf_concat {w v : Segment} {ws : List Segment} (h : v.WellFormed) :
    v.place (some (tierOf w ws)) = tierOf w (ws ++ [v]) := by
  rw [Segment.place_some h]
  simp [tierOf]

theorem foldl_place {w : Segment} {ws : List Segment} (hw : w.WellFormed)
    (hws : ∀ v ∈ ws, v.WellFormed) :
    (w :: ws).foldl (fun a? v => some (v.place a?)) none = some (tierOf w ws) := by
  induction ws using List.reverseRecOn with
  | nil => exact congrArg some (Segment.place_none hw)
  | append_singleton ws v ih =>
    have hv : v.WellFormed := hws v (by simp)
    rw [← List.cons_append, List.foldl_append, ih fun u hu => hws u (by simp [hu]),
      ← tierOf_concat hv]
    rfl

/-! Paths -/

/-- The segments of a path. -/
def segmentsOf (s : String) : List Segment := (s.toList.splitOn '.').map Segment.ofText

/-- Where a path goes, whatever narrows it on the way. -/
def namesOf (s : String) : List (List Char) := (segmentsOf s).map (·.name)

/-- The subsets that the segments of a path carry. -/
def subsetsOf (s : String) : List (NameSet × NameSet) := (segmentsOf s).map Segment.subsets

theorem exists_tierOf {s : String} {a : Tier} (h : Tier.ofDotted s = .ok a) :
    ∃ w ws, segmentsOf s = w :: ws ∧ a = tierOf w ws := by
  have hpieces : ∀ piece ∈ s.toList.splitOn '.', IsSegment piece :=
    Tier.exists_ofDotted_iff.1 ⟨a, h⟩
  have hwell : ∀ v ∈ segmentsOf s, v.WellFormed := by
    intro v hv
    obtain ⟨piece, hpiece, rfl⟩ := List.mem_map.1 hv
    exact isSegment_iff.1 (hpieces piece hpiece)
  have htext : (segmentsOf s).map Segment.text = s.toList.splitOn '.' := by
    rw [segmentsOf, List.map_map]
    exact List.map_id'' Segment.text_ofText _
  rw [Tier.ofDotted_eq_ok_iff, ← htext, tier?_text hwell] at h
  match hs : segmentsOf s with
  | [] => exact absurd (List.map_eq_nil_iff.1 hs) (List.splitOn_ne_nil '.' _)
  | w :: ws =>
    rw [hs] at h hwell
    obtain ⟨hw, hws⟩ := List.forall_mem_cons.1 hwell
    rw [foldl_place hw hws] at h
    exact ⟨w, ws, rfl, (Option.some.inj h).symm⟩

theorem tierOf_eq_iff {v w : Segment} {vs ws : List Segment} :
    tierOf v vs = tierOf w ws ↔
      (v :: vs).map (·.name) = (w :: ws).map (·.name) ∧
        (vs.getLastD v).subsets = (ws.getLastD w).subsets := by
  have hhops (us : List Segment) : us.map (fun u => hopNamed (String.ofList u.name))
      = (us.map (·.name)).map fun n => hopNamed (String.ofList n) := by
    rw [List.map_map]
    rfl
  have hinjective : Function.Injective fun n => hopNamed (String.ofList n) :=
    fun m n h => String.ofList_injective (hopNamed_injective h)
  simp only [tierOf, Tier.mk.injEq, hhops, hinjective.list_map.eq_iff, String.ofList_inj,
    List.map_cons, List.cons.injEq, Segment.subsets, Prod.mk.injEq]
  tauto

end DottedPath

open DottedPath

/-- Two paths are read as one tier exactly when they have the same names and the same subsets behind
the last one. -/
theorem only_last_qualifiers_count {s t : String} {a b : Tier} (hs : Tier.ofDotted s = .ok a)
    (ht : Tier.ofDotted t = .ok b) :
    a = b ↔ namesOf s = namesOf t ∧ (subsetsOf s).getLast? = (subsetsOf t).getLast? := by
  obtain ⟨v, vs, hv, rfl⟩ := exists_tierOf hs
  obtain ⟨w, ws, hw, rfl⟩ := exists_tierOf ht
  simp only [tierOf_eq_iff, namesOf, subsetsOf, hv, hw, List.getLast?_map, List.getLast?_cons,
    List.getLastD_eq_getLast?, Option.map_some, Option.some.injEq]

/-- Only the word is narrowed here, in either spelling. -/
theorem new_content_words_are_one_tier :
    ∃ a b, Tier.ofDotted "phone:vowel.word+new:content" = .ok a ∧
      Tier.ofDotted "phone.word:content+new:content" = .ok b ∧ a = b := by
  obtain ⟨a, ha⟩ :=
    exists_ok_of_isOk (x := Tier.ofDotted "phone:vowel.word+new:content") (by decide)
  obtain ⟨b, hb⟩ :=
    exists_ok_of_isOk (x := Tier.ofDotted "phone.word:content+new:content") (by decide)
  exact ⟨a, b, ha, hb, (only_last_qualifiers_count ha hb).2 (by decide)⟩

/-- So a path does not say all of what was written: the vowels are gone behind the hop. -/
theorem vowels_before_a_hop_are_forgotten :
    ¬ ∀ (s t : String) (a : Tier), Tier.ofDotted s = .ok a → Tier.ofDotted t = .ok a →
      namesOf s = namesOf t ∧ subsetsOf s = subsetsOf t := by
  intro h
  have hsubsets := (h "phone:vowel.word" "phone.word" ((Tier.ofLevel "phone").hop (.up "word"))
    (by decide) (by decide)).2
  exact absurd hsubsets (by decide)

end TierQuery
