import Mathlib.Data.List.Sort
import Mathlib.Data.List.TakeWhile
import Mathlib.Tactic.MkIffOfInductiveProp
import TierQuery.DottedPath
import TierQuery.Proofs.Keys

/-! Dotted paths are read exactly. A text splits at its dots into segments, a segment at its marks
into a name and qualifiers; both ways of splitting give every text back, so a path is read where the
parts are names, and what is written of a tier is read as that tier. -/

namespace TierQuery

namespace DottedPath

/-! Segments -/

/-- A qualifier as it stands in a path. -/
def Qualifier.text (q : Qualifier) : List Char := q.mark :: q.name

/-- Some text without a mark. -/
def IsName (cs : List Char) : Prop := cs ≠ [] ∧ ':' ∉ cs ∧ '+' ∉ cs

/-- A segment in its parts. -/
structure Segment where
  name : List Char
  qualifiers : List Qualifier

namespace Segment

def text (w : Segment) : List Char := w.name ++ w.qualifiers.flatMap Qualifier.text

structure WellFormed (w : Segment) : Prop where
  name : IsName w.name
  qualifiers : ∀ q ∈ w.qualifiers, (q.mark = ':' ∨ q.mark = '+') ∧ IsName q.name

/-- The parts that are found in a text. -/
def ofText (cs : List Char) : Segment := ⟨segmentName cs, DottedPath.qualifiers cs⟩

/-- The tier that a segment makes of the one before it. -/
def place (a? : Option Tier) (w : Segment) : Tier :=
  w.qualifiers.foldl qualify (step a? (String.ofList w.name))

end Segment

theorem isMark_iff {c : Char} : isMark c = true ↔ c = ':' ∨ c = '+' := by
  simp [isMark]

/-- No mark stands in a text. -/
def Unmarked (cs : List Char) : Prop := ∀ c ∈ cs, isMark c = false

theorem unmarked_iff {cs : List Char} : Unmarked cs ↔ ':' ∉ cs ∧ '+' ∉ cs := by
  simp only [Unmarked, ← Bool.not_eq_true, isMark_iff]
  grind

theorem IsName.unmarked {cs : List Char} (h : IsName cs) : Unmarked cs := unmarked_iff.2 h.2

theorem unmarked_takeWhile (cs : List Char) : Unmarked (cs.takeWhile (!isMark ·)) :=
  fun c hc => by simpa using List.mem_takeWhile_imp hc

theorem takeWhile_append_unmarked {xs : List Char} (h : Unmarked xs) (ys : List Char) :
    (xs ++ ys).takeWhile (!isMark ·) = xs ++ ys.takeWhile (!isMark ·) :=
  List.takeWhile_append_of_pos fun c hc => by simp [h c hc]

/-- What stands behind the name is the qualifiers. -/
theorem dropWhile_eq_qualifiers (cs : List Char) :
    cs.dropWhile (!isMark ·) = (qualifiers cs).flatMap Qualifier.text := by
  induction cs with
  | nil => rfl
  | cons c cs ih =>
    by_cases hc : isMark c = true
    · rw [List.dropWhile_cons_of_neg (by simp [hc]), qualifiers, if_pos hc, List.flatMap_cons, ← ih,
        Qualifier.text, List.cons_append, List.takeWhile_append_dropWhile]
    · rw [List.dropWhile_cons_of_pos (by simp [hc]), qualifiers, if_neg hc, ih]

theorem mem_qualifiers {cs : List Char} {q : Qualifier} (h : q ∈ qualifiers cs) :
    isMark q.mark = true ∧ Unmarked q.name := by
  induction cs with
  | nil => simp [qualifiers] at h
  | cons c cs ih =>
    rw [qualifiers] at h
    split_ifs at h with hc
    · rcases List.mem_cons.1 h with rfl | h
      · exact ⟨hc, unmarked_takeWhile cs⟩
      · exact ih h
    · exact ih h

theorem qualifiers_append {xs : List Char} (h : Unmarked xs) (ys : List Char) :
    qualifiers (xs ++ ys) = qualifiers ys := by
  induction xs with
  | nil => rfl
  | cons c xs ih =>
    have hc : ¬ isMark c = true := by simp [h c List.mem_cons_self]
    rw [List.cons_append, qualifiers, if_neg hc]
    exact ih fun d hd => h d (List.mem_cons_of_mem c hd)

/-- Qualifiers open with a mark, so a name ends where they begin. -/
theorem takeWhile_flatMap_text {qs : List Qualifier} (h : ∀ q ∈ qs, isMark q.mark = true) :
    (qs.flatMap Qualifier.text).takeWhile (!isMark ·) = [] := by
  match qs with
  | [] => rfl
  | q :: qs => simp [Qualifier.text, h q List.mem_cons_self]

theorem qualifiers_flatMap_text {qs : List Qualifier}
    (h : ∀ q ∈ qs, isMark q.mark = true ∧ Unmarked q.name) :
    qualifiers (qs.flatMap Qualifier.text) = qs := by
  induction qs with
  | nil => rfl
  | cons q qs ih =>
    obtain ⟨hq, hqs⟩ := List.forall_mem_cons.1 h
    rw [List.flatMap_cons, Qualifier.text, List.cons_append, qualifiers, if_pos hq.1,
      takeWhile_append_unmarked hq.2, takeWhile_flatMap_text fun q hq => (hqs q hq).1,
      List.append_nil, qualifiers_append hq.2, ih hqs]

namespace Segment

/-- A text is the segment it is split into. -/
theorem text_ofText (cs : List Char) : (ofText cs).text = cs := by
  rw [text, ofText, segmentName, ← dropWhile_eq_qualifiers, List.takeWhile_append_dropWhile]

theorem WellFormed.marked {w : Segment} (h : w.WellFormed) (q : Qualifier)
    (hq : q ∈ w.qualifiers) : isMark q.mark = true ∧ Unmarked q.name :=
  ⟨isMark_iff.2 (h.qualifiers q hq).1, (h.qualifiers q hq).2.unmarked⟩

theorem ofText_text {w : Segment} (h : w.WellFormed) : ofText w.text = w := by
  have hname : segmentName w.text = w.name := by
    rw [segmentName, text, takeWhile_append_unmarked h.name.unmarked,
      takeWhile_flatMap_text fun q hq => (h.marked q hq).1, List.append_nil]
  have hqualifiers : DottedPath.qualifiers w.text = w.qualifiers := by
    rw [text, qualifiers_append h.name.unmarked, qualifiers_flatMap_text h.marked]
  rw [ofText, hname, hqualifiers]

/-- Only emptiness can keep the parts of a text from being names. -/
theorem wellFormed_ofText_iff {cs : List Char} : (ofText cs).WellFormed ↔
    segmentName cs ≠ [] ∧ ∀ q ∈ DottedPath.qualifiers cs, q.name ≠ [] := by
  constructor
  · intro h
    exact ⟨h.name.1, fun q hq => (h.qualifiers q hq).2.1⟩
  · rintro ⟨hname, hqualifiers⟩
    refine ⟨⟨hname, unmarked_iff.1 (unmarked_takeWhile cs)⟩, fun q hq => ?_⟩
    obtain ⟨hmark, hunmarked⟩ := mem_qualifiers hq
    exact ⟨isMark_iff.1 hmark, hqualifiers q hq, unmarked_iff.1 hunmarked⟩

end Segment

/-- A non-empty name and qualifiers with non-empty names behind it. -/
def IsSegment (cs : List Char) : Prop := ∃ w : Segment, w.WellFormed ∧ w.text = cs

theorem isSegment_iff {cs : List Char} : IsSegment cs ↔ (Segment.ofText cs).WellFormed := by
  constructor
  · rintro ⟨w, h, rfl⟩
    rwa [Segment.ofText_text h]
  · intro h
    exact ⟨Segment.ofText cs, h, Segment.text_ofText cs⟩

theorem segment?_eq_some_iff {a? : Option Tier} {cs : List Char} {b : Tier} :
    segment? a? cs = some b ↔ IsSegment cs ∧ (Segment.ofText cs).place a? = b := by
  rw [isSegment_iff, Segment.wellFormed_ofText_iff, segment?, Segment.place, Segment.ofText]
  by_cases hname : segmentName cs = []
  · simp [hname]
  · by_cases hqualifiers : ∃ q ∈ qualifiers cs, q.name = []
    · obtain ⟨q, hq, he⟩ := hqualifiers
      have hany : (qualifiers cs).any (·.name.isEmpty) = true :=
        List.any_eq_true.2 ⟨q, hq, by simp [he]⟩
      simp only [hany, Bool.or_true, if_true, reduceCtorEq, false_iff]
      exact fun h => h.1.2 q hq he
    · have hall : ∀ q ∈ qualifiers cs, q.name ≠ [] := fun q hq he => hqualifiers ⟨q, hq, he⟩
      have hany : (qualifiers cs).any (·.name.isEmpty) = false := by simpa using hall
      simp only [hname, hany, List.isEmpty_eq_false_iff.2 hname, Bool.or_self, Bool.false_eq_true,
        if_false, Option.some.injEq, ne_eq, not_false_eq_true, true_and]
      exact (and_iff_right hall).symm

theorem segment?_isSome_iff (a? : Option Tier) {cs : List Char} :
    (segment? a? cs).isSome ↔ IsSegment cs := by
  rw [Option.isSome_iff_exists]
  simp only [segment?_eq_some_iff, exists_and_left, exists_eq', and_true]

theorem segment?_text {a? : Option Tier} {w : Segment} (h : w.WellFormed) :
    segment? a? w.text = some (w.place a?) := by
  rw [segment?_eq_some_iff, Segment.ofText_text h]
  exact ⟨⟨w, h, rfl⟩, rfl⟩

/-! Paths -/

theorem splitAt_eq_splitOn (sep : Char) (cs : List Char) :
    splitAt (· == sep) cs = cs.splitOn sep := by
  induction cs with
  | nil => rfl
  | cons c cs ih =>
    rw [List.splitOn_cons_eq_if_modifyHead, splitAt, ih]
    split_ifs
    · rfl
    · match h : cs.splitOn sep with
      | [] => exact absurd h (List.splitOn_ne_nil sep cs)
      | piece :: pieces => rfl

theorem tier?_cons (a? : Option Tier) (piece : List Char) (pieces : List (List Char)) :
    tier? a? (piece :: pieces) = (segment? a? piece).bind fun a => tier? (some a) pieces := rfl

/-- Segments are read one by one, and nothing but the segment itself decides whether it is read. -/
theorem tier?_isSome_iff (a? : Option Tier) {pieces : List (List Char)} (h : pieces ≠ []) :
    (tier? a? pieces).isSome ↔ ∀ piece ∈ pieces, IsSegment piece := by
  induction pieces generalizing a? with
  | nil => exact absurd rfl h
  | cons piece pieces ih =>
    rw [tier?_cons, List.forall_mem_cons, ← segment?_isSome_iff a?]
    match segment? a? piece, pieces with
    | none, _ => simp
    | some b, [] => simp [tier?]
    | some b, next :: pieces => simpa using ih (some b) (by simp)

end DottedPath

open DottedPath

theorem Tier.ofDotted_eq (s : String) :
    ofDotted s = match tier? none (s.toList.splitOn '.') with
      | some a => .ok a
      | none => .error (.emptySegment s) := by
  rw [← splitAt_eq_splitOn]
  rfl

theorem Tier.ofDotted_eq_ok_iff {s : String} {a : Tier} :
    ofDotted s = .ok a ↔ tier? none (s.toList.splitOn '.') = some a := by
  rw [ofDotted_eq]
  cases tier? none (s.toList.splitOn '.') <;> simp

theorem Tier.exists_ofDotted_iff {s : String} :
    (∃ a, ofDotted s = .ok a) ↔ ∀ piece ∈ s.toList.splitOn '.', IsSegment piece := by
  simp only [ofDotted_eq_ok_iff, ← Option.isSome_iff_exists]
  exact tier?_isSome_iff none (List.splitOn_ne_nil '.' _)

theorem Tier.ofDotted_error {s : String} {e : PathError} (h : ofDotted s = .error e) :
    e = .emptySegment s := by
  rw [ofDotted_eq] at h
  split at h
  · cases h
  · exact (Except.error.inj h).symm

namespace DottedPath

theorem notMem_of_mem_splitOn {sep : Char} {cs piece : List Char} (h : piece ∈ cs.splitOn sep) :
    sep ∉ piece := by
  induction cs generalizing piece with
  | nil => simp_all
  | cons c cs ih =>
    rw [List.splitOn_cons_eq_if_modifyHead] at h
    split_ifs at h with hc
    · rcases List.mem_cons.1 h with rfl | h
      · simp
      · exact ih h
    · match hs : cs.splitOn sep with
      | [] => exact absurd hs (List.splitOn_ne_nil sep cs)
      | first :: rest =>
        rw [hs] at h ih
        rcases List.mem_cons.1 h with rfl | h
        · simp only [List.mem_cons, not_or]
          exact ⟨fun e => hc (beq_iff_eq.2 e.symm), ih List.mem_cons_self⟩
        · exact ih (List.mem_cons_of_mem _ h)

theorem splitOn_injective (sep : Char) : Function.Injective (List.splitOn sep) :=
  Function.LeftInverse.injective fun _ => List.intercalate_splitOn sep

theorem splitLast_of_splitOn {cs last : List Char} {pieces : List (List Char)}
    (h : cs.splitOn '.' = pieces ++ [last]) :
    splitLast cs = if pieces = [] then none else some (['.'].intercalate pieces, last) := by
  rw [splitLast, splitAt_eq_splitOn, h]
  split
  · next he => simp at he
  · rw [List.dropLast_concat, List.length_append, List.getLastD_concat]
    match pieces with
    | [] => rfl
    | piece :: pieces => rw [if_neg (by simp), if_neg (by simp)]

/-- The last separator is the one behind which no other stands. -/
theorem splitLast_eq_some_iff {cs before last : List Char} :
    splitLast cs = some (before, last) ↔ cs = before ++ '.' :: last ∧ '.' ∉ last := by
  have hne := List.splitOn_ne_nil '.' cs
  constructor
  · intro h
    have hcs := (List.dropLast_concat_getLast hne).symm
    rw [splitLast_of_splitOn hcs] at h
    split_ifs at h with hp
    obtain ⟨rfl, rfl⟩ := Prod.ext_iff.1 (Option.some.inj h)
    have hlast := notMem_of_mem_splitOn (List.getLast_mem hne)
    have hinit : ∀ piece ∈ (cs.splitOn '.').dropLast, '.' ∉ piece := fun piece hpiece =>
      notMem_of_mem_splitOn (List.dropLast_subset _ hpiece)
    refine ⟨?_, hlast⟩
    -- both sides split into the same pieces
    apply splitOn_injective '.'
    rw [List.splitOn_append_cons_self, List.splitOn_intercalate '.' hinit hp,
      List.splitOn_eq_singleton hlast]
    exact hcs
  · rintro ⟨rfl, hlast⟩
    have hpieces : (before ++ '.' :: last).splitOn '.' = before.splitOn '.' ++ [last] := by
      rw [List.splitOn_append_cons_self, List.splitOn_eq_singleton hlast]
    rw [splitLast_of_splitOn hpieces, if_neg (List.splitOn_ne_nil '.' before),
      List.intercalate_splitOn]

end DottedPath

theorem AttributePath.ofDotted_eq_ok_iff {s : String} {p : AttributePath} :
    ofDotted s = .ok p ↔ ∃ before property a, s = before ++ "." ++ property ∧ property ≠ "" ∧
      '.' ∉ property.toList ∧ Tier.ofDotted before = .ok a ∧ p = a.attribute ⟨property⟩ := by
  constructor
  · intro h
    unfold ofDotted at h
    split at h
    · cases h
    · next before property hs =>
      obtain ⟨hcs, hdot⟩ := splitLast_eq_some_iff.1 hs
      split_ifs at h with hproperty
      obtain ⟨a, ha, he⟩ := bind_eq_ok_iff.1 h
      refine ⟨String.ofList before, String.ofList property, a, ?_, ?_, ?_, ha, ?_⟩
      · exact String.toList_injective (by simpa using hcs)
      · simpa using hproperty
      · simpa using hdot
      · exact (Except.ok.inj he).symm
  · rintro ⟨before, property, a, rfl, hproperty, hdot, ha, rfl⟩
    have hs : splitLast (before ++ "." ++ property).toList
        = some (before.toList, property.toList) :=
      splitLast_eq_some_iff.2 ⟨by simp, hdot⟩
    have hne : property.toList.isEmpty = false := by simpa using hproperty
    simp only [ofDotted, hs, hne, String.ofList_toList, ha]
    rfl

/-! Written paths -/

/-- A name that a path can hold. -/
def Writable (s : String) : Prop :=
  s ≠ "" ∧ '.' ∉ s.toList ∧ ':' ∉ s.toList ∧ '+' ∉ s.toList

instance (s : String) : Decidable (Writable s) :=
  inferInstanceAs (Decidable (s ≠ "" ∧ '.' ∉ s.toList ∧ ':' ∉ s.toList ∧ '+' ∉ s.toList))

/-- A hop that a path can hold: no level is named like another hop. -/
def Hop.Dottable : Hop → Prop
  | .up level => Writable level ∧ level ∉ ["following", "previous", "speaker"]
  | .following | .previous | .speaker => True

instance : (hop : Hop) → Decidable hop.Dottable
  | .up level =>
    inferInstanceAs (Decidable (Writable level ∧ level ∉ ["following", "previous", "speaker"]))
  | .following | .previous | .speaker => isTrue trivial

namespace Tier

/-- A tier that dotted paths reach. -/
@[mk_iff]
structure Dottable (a : Tier) : Prop where
  discourse : a.discourse = none
  origin : Writable a.origin
  hops : ∀ hop ∈ a.hops, hop.Dottable
  typeSubsets : ∀ n ∈ a.typeSubsets.names, Writable n
  tokenSubsets : ∀ n ∈ a.tokenSubsets.names, Writable n

instance (a : Tier) : Decidable a.Dottable := decidable_of_iff' _ a.dottable_iff

/-- The subsets of a tier behind their marks. -/
def qualifiers (a : Tier) : List Qualifier :=
  a.typeSubsets.names.map (⟨':', ·.toList⟩) ++ a.tokenSubsets.names.map (⟨'+', ·.toList⟩)

/-- Origin and hops as a dotted path, and qualifiers behind them. -/
def qualified (a : Tier) (qs : List Qualifier) : String :=
  a.dotted ++ String.ofList (qs.flatMap Qualifier.text)

end Tier

theorem Writable.isName {s : String} (h : Writable s) : IsName s.toList :=
  ⟨by simpa using h.1, h.2.2⟩

namespace Hop.Dottable

variable {hop : Hop}

theorem writable (h : hop.Dottable) : Writable hop.segment := by
  cases hop with
  | up level => exact h.1
  | following | previous | speaker => decide

/-- The segment of a hop is read as the hop. -/
theorem step_segment (h : hop.Dottable) (a : Tier) : step (some a) hop.segment = a.hop hop := by
  cases hop with
  | up level =>
    have hlevel := h.2
    simp only [List.mem_cons, List.not_mem_nil, or_false, not_or] at hlevel
    simp [step, segment, hlevel]
  | following | previous | speaker => simp [step, segment]

end Hop.Dottable

theorem Tier.Dottable.qualifiers {a : Tier} (h : a.Dottable) (q : Qualifier)
    (hq : q ∈ a.qualifiers) : (q.mark = ':' ∨ q.mark = '+') ∧ Writable (String.ofList q.name) := by
  rcases List.mem_append.1 hq with hq | hq <;> obtain ⟨n, hn, rfl⟩ := List.mem_map.1 hq
  · exact ⟨.inl rfl, by simpa using h.typeSubsets n hn⟩
  · exact ⟨.inr rfl, by simpa using h.tokenSubsets n hn⟩

namespace DottedPath

/-- The segments of a path from the segment `name` on. -/
def segments (name : String) : List Hop → List Qualifier → List Segment
  | [], qs => [⟨name.toList, qs⟩]
  | hop :: hops, qs => ⟨name.toList, []⟩ :: segments hop.segment hops qs

section segments

variable {name : String} {hops : List Hop} {qs : List Qualifier}

theorem wellFormed_segments (hname : Writable name) (hhops : ∀ hop ∈ hops, hop.Dottable)
    (hqs : ∀ q ∈ qs, (q.mark = ':' ∨ q.mark = '+') ∧ IsName q.name) :
    ∀ w ∈ segments name hops qs, w.WellFormed := by
  induction hops generalizing name with
  | nil =>
    intro w hw
    rw [List.mem_singleton.1 hw]
    exact ⟨hname.isName, hqs⟩
  | cons hop hops ih =>
    obtain ⟨hhop, hhops⟩ := List.forall_mem_cons.1 hhops
    intro w hw
    rcases List.mem_cons.1 hw with rfl | hw
    · exact ⟨hname.isName, fun q hq => absurd hq List.not_mem_nil⟩
    · exact ih hhop.writable hhops w hw

theorem splitOn_segments (hname : Writable name) (hhops : ∀ hop ∈ hops, hop.Dottable)
    (hqs : '.' ∉ qs.flatMap Qualifier.text) :
    (name.toList ++ (hops.flatMap (fun hop => ("." ++ hop.segment).toList)
      ++ qs.flatMap Qualifier.text)).splitOn '.' = (segments name hops qs).map Segment.text := by
  induction hops generalizing name with
  | nil =>
    rw [List.flatMap_nil, List.nil_append, List.splitOn_eq_singleton (by simp [hname.2.1, hqs])]
    rfl
  | cons hop hops ih =>
    obtain ⟨hhop, hhops⟩ := List.forall_mem_cons.1 hhops
    have htext : (Segment.mk name.toList []).text = name.toList := by simp [Segment.text]
    rw [segments, List.map_cons, htext, ← ih hhop.writable hhops, List.flatMap_cons, String.toList_append,
      List.append_assoc, List.append_assoc]
    exact List.splitOn_append_cons_self_of_not_mem hname.2.1 _

/-- Well-formed segments are placed one on top of the other. -/
theorem tier?_text {ws : List Segment} (h : ∀ w ∈ ws, w.WellFormed) (a? : Option Tier) :
    tier? a? (ws.map Segment.text) = ws.foldl (fun a? w => some (w.place a?)) a? := by
  induction ws generalizing a? with
  | nil => rfl
  | cons w ws ih =>
    obtain ⟨hw, hws⟩ := List.forall_mem_cons.1 h
    rw [List.map_cons, tier?_cons, segment?_text hw, Option.bind_some, ih hws, List.foldl_cons]

theorem place_segments (hhops : ∀ hop ∈ hops, hop.Dottable) (a? : Option Tier) :
    (segments name hops qs).foldl (fun a? w => some (w.place a?)) a?
      = some (qs.foldl qualify (hops.foldl Tier.hop (step a? name))) := by
  induction hops generalizing name a? with
  | nil => simp [segments, Segment.place]
  | cons hop hops ih =>
    obtain ⟨hhop, hhops⟩ := List.forall_mem_cons.1 hhops
    rw [segments, List.foldl_cons, ih hhops, List.foldl_cons, hhop.step_segment]
    simp [Segment.place]

end segments

theorem foldl_hop (origin : String) (before hops : List Hop) :
    hops.foldl Tier.hop ⟨origin, before, none, .empty, .empty⟩
      = ⟨origin, before ++ hops, none, .empty, .empty⟩ := by
  induction hops generalizing before with
  | nil => simp
  | cons hop hops ih => rw [List.foldl_cons, Tier.hop, ih, List.append_assoc, List.singleton_append]

/-! Qualifiers -/

theorem foldl_qualify_path (qs : List Qualifier) (a : Tier) :
    (qs.foldl qualify a).withoutSubsets = a.withoutSubsets := by
  induction qs generalizing a with
  | nil => rfl
  | cons q qs ih =>
    rw [List.foldl_cons, ih, qualify]
    split_ifs <;> rfl

theorem mem_foldl_qualify (qs : List Qualifier) (a : Tier) (n : String) :
    (n ∈ (qs.foldl qualify a).typeSubsets.names ↔
      n ∈ a.typeSubsets.names ∨ ∃ q ∈ qs, q.mark = ':' ∧ String.ofList q.name = n) ∧
    (n ∈ (qs.foldl qualify a).tokenSubsets.names ↔
      n ∈ a.tokenSubsets.names ∨ ∃ q ∈ qs, q.mark ≠ ':' ∧ String.ofList q.name = n) := by
  induction qs generalizing a with
  | nil => simp
  | cons q qs ih =>
    simp only [List.foldl_cons, ih, List.exists_mem_cons_iff, qualify]
    split_ifs with hq <;>
      simp only [Tier.withTypeSubset, Tier.withTokenSubset, NameSet.insert, mem_insertName] <;>
      grind

end DottedPath

theorem NameSet.eq_of_mem_iff {s t : NameSet} (h : ∀ n, n ∈ s.names ↔ n ∈ t.names) : s = t :=
  NameSet.eq_of_names (s.ascending.eq_of_mem_iff t.ascending h)

namespace Tier

variable {a : Tier} {qs : List Qualifier}

theorem mem_qualifiers_iff {q : Qualifier} :
    q ∈ a.qualifiers ↔ (q.mark = ':' ∧ String.ofList q.name ∈ a.typeSubsets.names) ∨
      (q.mark = '+' ∧ String.ofList q.name ∈ a.tokenSubsets.names) := by
  obtain ⟨mark, name⟩ := q
  simp only [qualifiers, List.mem_append, List.mem_map, Qualifier.mk.injEq]
  constructor
  · rintro (⟨n, hn, rfl, rfl⟩ | ⟨n, hn, rfl, rfl⟩)
    · exact .inl ⟨rfl, by simpa using hn⟩
    · exact .inr ⟨rfl, by simpa using hn⟩
  · rintro (⟨rfl, hn⟩ | ⟨rfl, hn⟩)
    · exact .inl ⟨_, hn, rfl, String.toList_ofList⟩
    · exact .inr ⟨_, hn, rfl, String.toList_ofList⟩

theorem eq_of_withoutSubsets {b : Tier} (h : a.withoutSubsets = b.withoutSubsets)
    (htypes : a.typeSubsets = b.typeSubsets) (htokens : a.tokenSubsets = b.tokenSubsets) :
    a = b := by
  cases a
  cases b
  simp_all [withoutSubsets]

/-- Qualifiers narrow a tier to their names, in whatever order and however often they come. -/
theorem foldl_qualify (hqs : ∀ q, q ∈ qs ↔ q ∈ a.qualifiers) :
    qs.foldl qualify a.withoutSubsets = a := by
  have hpath := foldl_qualify_path qs a.withoutSubsets
  have hsubsets := mem_foldl_qualify qs a.withoutSubsets
  have hempty (n : String) : n ∉ NameSet.empty.names := List.not_mem_nil
  have htypes : (qs.foldl qualify a.withoutSubsets).typeSubsets = a.typeSubsets := by
    refine NameSet.eq_of_mem_iff fun n => (hsubsets n).1.trans ?_
    simp only [hqs, mem_qualifiers_iff, withoutSubsets, hempty, false_or]
    constructor
    · rintro ⟨q, ⟨-, hq⟩ | ⟨hplus, -⟩, hmark, rfl⟩
      · exact hq
      · rw [hmark] at hplus
        exact absurd hplus (by decide)
    · intro hn
      exact ⟨⟨':', n.toList⟩, .inl ⟨rfl, by simpa using hn⟩, rfl, String.ofList_toList⟩
  have htokens : (qs.foldl qualify a.withoutSubsets).tokenSubsets = a.tokenSubsets := by
    refine NameSet.eq_of_mem_iff fun n => (hsubsets n).2.trans ?_
    simp only [hqs, mem_qualifiers_iff, withoutSubsets, hempty, false_or]
    constructor
    · rintro ⟨q, ⟨hcolon, -⟩ | ⟨-, hq⟩, hmark, rfl⟩
      · exact absurd hcolon hmark
      · exact hq
    · intro hn
      exact ⟨⟨'+', n.toList⟩, .inr ⟨rfl, by simpa using hn⟩, by simp, String.ofList_toList⟩
  exact eq_of_withoutSubsets hpath htypes htokens

/-- What is written of a tier is read as the tier. -/
theorem ofDotted_qualified (h : a.Dottable) (hqs : ∀ q, q ∈ qs ↔ q ∈ a.qualifiers) :
    ofDotted (a.qualified qs) = .ok a := by
  have hmarks : ∀ q ∈ qs, (q.mark = ':' ∨ q.mark = '+') ∧ Writable (String.ofList q.name) :=
    fun q hq => h.qualifiers q ((hqs q).1 hq)
  have hdots : '.' ∉ qs.flatMap Qualifier.text := by
    rw [List.mem_flatMap]
    rintro ⟨q, hq, hdot⟩
    obtain ⟨hmark, hname⟩ := hmarks q hq
    rcases List.mem_cons.1 hdot with he | hdot
    · rw [← he] at hmark
      exact absurd hmark (by decide)
    · exact hname.2.1 (by simpa using hdot)
  have htext : (a.qualified qs).toList.splitOn '.'
      = (segments a.origin a.hops qs).map Segment.text := by
    rw [qualified, dotted, String.toList_append, String.toList_ofList]
    simp only [String.append_assoc]
    rw [toList_foldl_append (fun hop : Hop => "." ++ hop.segment), List.append_assoc]
    exact splitOn_segments h.origin h.hops hdots
  have hwell : ∀ w ∈ segments a.origin a.hops qs, w.WellFormed := by
    refine wellFormed_segments h.origin h.hops fun q hq => ?_
    obtain ⟨hmark, hname⟩ := hmarks q hq
    exact ⟨hmark, by simpa using hname.isName⟩
  rw [ofDotted_eq_ok_iff, htext, tier?_text hwell, place_segments h.hops, step, ofLevel,
    foldl_hop, List.nil_append]
  have hplain : (⟨a.origin, a.hops, none, .empty, .empty⟩ : Tier) = a.withoutSubsets := by
    rw [withoutSubsets, h.discourse]
  rw [hplain, foldl_qualify hqs]

end Tier

/-- What is written of a path is read as the path. -/
theorem AttributePath.ofDotted_qualified {a : Tier} {qs : List Qualifier} {property : String}
    (h : a.Dottable) (hqs : ∀ q, q ∈ qs ↔ q ∈ a.qualifiers) (hproperty : property ≠ "")
    (hdot : '.' ∉ property.toList) :
    ofDotted (a.qualified qs ++ "." ++ property) = .ok (a.attribute ⟨property⟩) :=
  ofDotted_eq_ok_iff.2
    ⟨_, property, a, rfl, hproperty, hdot, Tier.ofDotted_qualified h hqs, rfl⟩

/-- A text is a path exactly where every piece between its dots is a segment, a text is an attribute
path exactly where a path stands before its last dot and a name behind it, and what is written of a
tier, its qualifiers in any order and repetition, is read as that tier. -/
theorem dotted_paths_are_read_exactly :
    (∀ s, ((∃ a, Tier.ofDotted s = .ok a) ↔ ∀ piece ∈ s.toList.splitOn '.', IsSegment piece) ∧
      ∀ e, Tier.ofDotted s = .error e → e = .emptySegment s) ∧
    (∀ s p, AttributePath.ofDotted s = .ok p ↔
      ∃ before property a, s = before ++ "." ++ property ∧ property ≠ "" ∧
        '.' ∉ property.toList ∧ Tier.ofDotted before = .ok a ∧ p = a.attribute ⟨property⟩) ∧
    ∀ (a : Tier) (qs : List Qualifier), a.Dottable → (∀ q, q ∈ qs ↔ q ∈ a.qualifiers) →
      Tier.ofDotted (a.qualified qs) = .ok a ∧
      ∀ property : String, property ≠ "" → '.' ∉ property.toList →
        AttributePath.ofDotted (a.qualified qs ++ "." ++ property)
          = .ok (a.attribute ⟨property⟩) := by
  refine ⟨fun s => ⟨Tier.exists_ofDotted_iff, fun e => Tier.ofDotted_error⟩,
    fun s p => AttributePath.ofDotted_eq_ok_iff, fun a qs h hqs => ?_⟩
  exact ⟨Tier.ofDotted_qualified h hqs, fun property => AttributePath.ofDotted_qualified h hqs⟩

/-- The next word with a subset of either kind. -/
def Tier.nextNewWord : Tier :=
  ⟨"phone", [.following, .up "word"], none, .ofList ["content"], .ofList ["new"]⟩

theorem nextNewWord_is_read_back :
    Tier.ofDotted "phone.following.word+new:content+new" = .ok Tier.nextNewWord ∧
    AttributePath.ofDotted "phone.following.word+new:content+new.label"
      = .ok (Tier.nextNewWord.attribute .label) := by
  have hqualifiers (q : Qualifier) :
      q ∈ [⟨'+', "new".toList⟩, ⟨':', "content".toList⟩, ⟨'+', "new".toList⟩]
        ↔ q ∈ Tier.nextNewWord.qualifiers := by
    have hlist : Tier.nextNewWord.qualifiers
        = [⟨':', "content".toList⟩, ⟨'+', "new".toList⟩] := rfl
    rw [hlist]
    simp only [List.mem_cons, List.not_mem_nil, or_false]
    tauto
  obtain ⟨htier, hpath⟩ := dotted_paths_are_read_exactly.2.2 _ _ (by decide) hqualifiers
  exact ⟨htier, hpath "label" (by decide) (by decide)⟩

end TierQuery
