import Mathlib.Data.List.TakeWhile
import TierQuery.Statement.Text

/-! Names are read back from the identifiers they are written as. A reader takes plain identifiers as
far as they go, and quoted ones up to a quote that is not doubled. Whatever a name contains, it reads
that name and stops behind it, as long as nothing comes next that would go on with the identifier. -/

namespace TierQuery

namespace Identifier

/-- The rest of a quoted identifier, in which two quotes stand for one. -/
def readQuoted : List Char → Option (List Char × List Char)
  | [] => none
  | c :: cs =>
    if c = quote then
      match cs with
      | [] => some ([], [])
      | d :: ds =>
        if d = quote then (readQuoted ds).map fun r => (quote :: r.1, r.2)
        else some ([], d :: ds)
    else (readQuoted cs).map fun r => (c :: r.1, r.2)

/-- The identifier at the front, quoted or plain, and the text behind it. -/
def read : List Char → Option (String × List Char)
  | [] => none
  | c :: cs =>
    if c = quote then (readQuoted cs).map fun r => (String.ofList r.1, r.2)
    else if isHead c then some (String.ofList (c :: cs.takeWhile isTail), cs.dropWhile isTail)
    else none

/-- The identifier of `s` is over where `t` begins. -/
def EndsAt (s : String) (t : List Char) : Prop :=
  ∀ c ∈ t.head?, c ≠ quote ∧ (isPlain s = true → isTail c = false)

/-- No identifier goes on with `t`. -/
def Stops (t : List Char) : Prop := ∀ c ∈ t.head?, c ≠ quote ∧ isTail c = false

theorem Stops.endsAt {t : List Char} (h : Stops t) (s : String) : EndsAt s t :=
  fun c hc => ⟨(h c hc).1, fun _ => (h c hc).2⟩

theorem stops_nil : Stops [] := fun c hc => by cases hc

theorem stops_cons {c : Char} {t : List Char} (hc : c ≠ quote ∧ isTail c = false) :
    Stops (c :: t) := by
  intro d hd
  obtain rfl := Option.some.inj hd
  exact hc

/-! One identifier -/

theorem isHead_ne_quote {c : Char} (h : isHead c = true) : c ≠ quote := by
  rintro rfl
  exact absurd h (by decide)

theorem isPlain_iff {s : String} :
    isPlain s = true ↔ ∃ c cs, s.toList = c :: cs ∧ isHead c = true ∧ ∀ d ∈ cs, isTail d = true := by
  unfold isPlain
  cases s.toList with
  | nil => simp
  | cons c cs =>
    rw [Bool.and_eq_true, List.all_eq_true]
    constructor
    · rintro ⟨hc, hcs⟩
      exact ⟨c, cs, rfl, hc, hcs⟩
    · rintro ⟨d, ds, h, hd, hds⟩
      cases h
      exact ⟨hd, hds⟩

theorem readQuoted_cons_of_ne {c : Char} (hc : c ≠ quote) (cs : List Char) :
    readQuoted (c :: cs) = (readQuoted cs).map fun r => (c :: r.1, r.2) := by
  cases cs <;> simp [readQuoted, hc]

theorem readQuoted_doubled (cs : List Char) {t : List Char} (ht : t.head? ≠ some quote) :
    readQuoted (doubled cs ++ quote :: t) = some (cs, t) := by
  induction cs with
  | nil =>
    cases t with
    | nil => rfl
    | cons d ds =>
      have hd : d ≠ quote := by simpa using ht
      simp [doubled, readQuoted, hd]
  | cons c cs ih =>
    by_cases hc : c = quote
    · simp [doubled, readQuoted, hc, ih]
    · rw [doubled, if_neg hc, List.cons_append, readQuoted_cons_of_ne hc, ih]
      rfl

theorem read_plain {c : Char} {cs t : List Char} (hc : isHead c = true)
    (hcs : ∀ d ∈ cs, isTail d = true) (ht : ∀ d ∈ t.head?, isTail d = false) :
    read (c :: cs ++ t) = some (String.ofList (c :: cs), t) := by
  have htake : (cs ++ t).takeWhile isTail = cs := by
    rw [List.takeWhile_append_of_pos hcs]
    cases t with
    | nil => simp
    | cons d ds => simp [ht d rfl]
  have hdrop : (cs ++ t).dropWhile isTail = t := by
    have h := List.takeWhile_append_dropWhile (p := isTail) (l := cs ++ t)
    rw [htake] at h
    exact List.append_cancel_left h
  rw [List.cons_append, read, if_neg (isHead_ne_quote hc), if_pos hc, htake, hdrop]

/-- What is written of a name is read as the name, and nothing behind it is touched. -/
theorem read_escape {s : String} {t : List Char} (h : EndsAt s t) :
    read ((escape s).toList ++ t) = some (s, t) := by
  unfold escape
  split_ifs with hs
  · obtain ⟨c, cs, hlist, hc, hcs⟩ := isPlain_iff.1 hs
    rw [hlist, read_plain hc hcs fun d hd => (h d hd).2 hs, ← hlist, String.ofList_toList]
  · have ht : t.head? ≠ some quote := fun ht => (h quote ht).1 rfl
    have htext : quote :: doubled s.toList ++ [quote] ++ t
        = quote :: (doubled s.toList ++ quote :: t) := by simp
    rw [String.toList_ofList, htext, read, if_pos rfl, readQuoted_doubled _ ht]
    simp

theorem escape_injective : Function.Injective escape := by
  intro s t h
  have hs := read_escape (stops_nil.endsAt s)
  rw [h, read_escape (stops_nil.endsAt t)] at hs
  exact (Prod.ext_iff.1 (Option.some.inj hs)).1.symm

/-! Labels -/

theorem length_le_of_readQuoted {cs xs rest : List Char} (h : readQuoted cs = some (xs, rest)) :
    rest.length ≤ cs.length := by
  fun_induction readQuoted cs generalizing xs with
  | case1 => cases h
  | case2 =>
    cases h
    exact Nat.zero_le _
  | case3 ds ih =>
    obtain ⟨⟨ys, rest'⟩, hread, hr⟩ := Option.map_eq_some_iff.1 h
    cases hr
    exact (ih hread).trans (by simp only [List.length_cons]; omega)
  | case4 d ds =>
    cases h
    simp
  | case5 c cs hc ih =>
    obtain ⟨⟨ys, rest'⟩, hread, hr⟩ := Option.map_eq_some_iff.1 h
    cases hr
    exact (ih hread).trans (Nat.le_succ _)

theorem length_lt_of_read {cs rest : List Char} {s : String} (h : read cs = some (s, rest)) :
    rest.length < cs.length := by
  cases cs with
  | nil => cases h
  | cons c cs =>
    rw [read] at h
    split_ifs at h with hquote hhead
    · obtain ⟨⟨xs, rest'⟩, hread, hr⟩ := Option.map_eq_some_iff.1 h
      cases hr
      exact Nat.lt_succ_of_le (length_le_of_readQuoted hread)
    · cases h
      exact Nat.lt_succ_of_le (List.dropWhile_sublist isTail).length_le

/-- The labels at the front, an identifier behind every colon, and the text behind them. -/
def readLabels : List Char → Option (List String × List Char)
  | [] => some ([], [])
  | c :: cs =>
    if c = ':' then
      match _h : read cs with
      | none => none
      | some (l, rest) => (readLabels rest).map fun r => (l :: r.1, r.2)
    else some ([], c :: cs)
termination_by cs => cs.length
decreasing_by
  exact (length_lt_of_read ‹_›).trans (Nat.lt_succ_self _)

theorem readLabels_colon {cs rest : List Char} {l : String} (h : read cs = some (l, rest)) :
    readLabels (':' :: cs) = (readLabels rest).map fun r => (l :: r.1, r.2) := by
  rw [readLabels, if_pos rfl]
  split
  · next hnone => rw [h] at hnone; cases hnone
  · next l' rest' hsome =>
    rw [h] at hsome
    cases hsome
    rfl

theorem stops_labels (ls : List String) {t : List Char} (h : Stops t) :
    Stops ((labelsText ls).toList ++ t) := by
  cases ls with
  | nil => exact h
  | cons l ls =>
    rw [labelsText, String.toList_append, String.toList_append]
    exact stops_cons (c := ':') (by decide)

/-- Labels are read back as they were, whatever stands in them. -/
theorem readLabels_labelsText (ls : List String) {t : List Char} (h : Stops t)
    (hcolon : t.head? ≠ some ':') : readLabels ((labelsText ls).toList ++ t) = some (ls, t) := by
  induction ls with
  | nil =>
    cases t with
    | nil => simp [labelsText, readLabels]
    | cons c cs =>
      have hc : c ≠ ':' := by simpa using hcolon
      simp [labelsText, readLabels, hc]
  | cons l ls ih =>
    have htext : (labelsText (l :: ls)).toList ++ t
        = ':' :: ((escape l).toList ++ ((labelsText ls).toList ++ t)) := by
      simp [labelsText]
    rw [htext, readLabels_colon (read_escape ((stops_labels ls h).endsAt l)), ih]
    rfl

end Identifier

end TierQuery
