import Mathlib
import TierQuery.Proofs.Identifiers

/-! Snake case. Variables and parameters are named after levels and properties, and their names stand
in a statement without quotes. A level may be called anything: its name may be empty, start with a
digit or consist of blanks. What is made of it is always a fragment, words of small letters and
digits with one underscore between them, and the fragments are what snake case leaves as it is. -/

namespace TierQuery

namespace Identifier

/-- A letter or digit of a fragment. -/
def IsSmall (c : Char) : Prop := c.isAlphanum = true ∧ c.isUpper = false

/-- A plain identifier without capitals, in which underscores stand between letters and digits: none
next to another, none at the end, and one at the start only to keep a digit from it. The one other
fragment is a lone underscore. -/
structure IsFragment (t : String) : Prop where
  plain : isPlain t = true
  small : ∀ c ∈ t.toList, c.isUpper = false
  single : ¬ ['_', '_'] <:+: t.toList
  last : t.toList.getLast? = some '_' → t = "_"
  first : ∀ c cs, t.toList = '_' :: c :: cs → c.isDigit = true

/-- What may follow a letter of a fragment: more of them, and an underscore only in front of one. -/
inductive GoesOn : List Char → Prop
  | stop : GoesOn []
  | letter {c : Char} {cs : List Char} : IsSmall c → GoesOn cs → GoesOn (c :: cs)
  | underscore {c : Char} {cs : List Char} :
    IsSmall c → GoesOn (c :: cs) → GoesOn ('_' :: c :: cs)

/-- A fragment whose head is not yet guarded. -/
structure IsWords (cs : List Char) : Prop where
  goesOn : GoesOn cs
  first : cs.head? ≠ some '_'

/-! Letters and digits -/

theorem isAlphanum_toLower {c : Char} (h : c.isAlphanum = true) : c.toLower.isAlphanum = true := by
  by_cases hu : c.isUpper = true
  · have halpha : c.isAlpha = true := Bool.or_eq_true_iff.2 (.inl hu)
    rw [Char.isAlphanum, Char.isAlpha_toLower_eq_isAlpha, halpha, Bool.true_or]
  · rwa [Char.toLower_eq_of_not_isUpper hu]

theorem isDigit_eq_false_of_isAlpha {c : Char} (h : c.isAlpha = true) : c.isDigit = false := by
  rw [Bool.eq_false_iff]
  intro hd
  have hdigit : 48 ≤ c.toNat ∧ c.toNat ≤ 57 := Char.isDigit_iff_toNat.1 hd
  simp only [Char.isAlpha, Char.isUpper, Char.isLower, Bool.or_eq_true, Bool.and_eq_true,
    decide_eq_true_eq, UInt32.le_iff_toNat_le, ge_iff_le] at h
  have hletter : (65 ≤ c.toNat ∧ c.toNat ≤ 90) ∨ (97 ≤ c.toNat ∧ c.toNat ≤ 122) := h
  omega

theorem isSmall_toLower {c : Char} (h : c.isAlphanum = true) : IsSmall c.toLower :=
  ⟨isAlphanum_toLower h, Char.isUpper_toLower_eq_false c⟩

theorem IsSmall.toLower_eq {c : Char} (h : IsSmall c) : c.toLower = c :=
  Char.toLower_eq_of_not_isUpper (by simp [h.2])

theorem IsSmall.ne_underscore {c : Char} (h : IsSmall c) : c ≠ '_' := by
  rintro rfl
  exact absurd h.1 (by decide)

theorem isTail_of_isHead {c : Char} (h : isHead c = true) : isTail c = true := by
  rcases Bool.or_eq_true_iff.1 h with h | h
  · simp [isTail, Char.isAlphanum, h]
  · simp [isTail, h]

theorem isTail_of_isPlain {s : String} (h : isPlain s = true) :
    ∀ c ∈ s.toList, isTail c = true := by
  obtain ⟨c, cs, hlist, hc, hcs⟩ := isPlain_iff.1 h
  rw [hlist]
  exact List.forall_mem_cons.2 ⟨isTail_of_isHead hc, hcs⟩

/-! What is written is a fragment -/

theorem goesOn_fragment (cs : List Char) (gap : Bool) : GoesOn (fragment true gap cs) := by
  induction cs generalizing gap with
  | nil => exact .stop
  | cons c cs ih =>
    rw [fragment]
    split
    · next hc =>
      have hsmall : IsSmall c.toLower := isSmall_toLower hc
      have hword : GoesOn (c.toLower :: fragment true false cs) := .letter hsmall (ih false)
      split
      · exact .underscore hsmall hword
      · exact hword
    · exact ih true

/-- Nothing is written before the first letter, so no underscore is due in front of it. -/
theorem isWords_fragment (cs : List Char) : IsWords (fragment false false cs) := by
  induction cs with
  | nil => exact ⟨.stop, by simp [fragment]⟩
  | cons c cs ih =>
    rw [fragment]
    split
    · next hc =>
      have hsmall : IsSmall c.toLower := isSmall_toLower hc
      refine ⟨.letter hsmall (goesOn_fragment cs false), ?_⟩
      intro hfirst
      exact hsmall.ne_underscore (Option.some.inj hfirst)
    · exact ih

namespace GoesOn

theorem mem {cs : List Char} (h : GoesOn cs) : ∀ c ∈ cs, IsSmall c ∨ c = '_' := by
  induction h with
  | stop => exact fun c hc => absurd hc List.not_mem_nil
  | letter hc _ ih => exact List.forall_mem_cons.2 ⟨.inl hc, ih⟩
  | underscore _ _ ih => exact List.forall_mem_cons.2 ⟨.inr rfl, ih⟩

theorem isTail {cs : List Char} (h : GoesOn cs) : ∀ c ∈ cs, Identifier.isTail c = true := by
  intro c hc
  rcases h.mem c hc with hsmall | rfl
  · exact Bool.or_eq_true_iff.2 (.inl hsmall.1)
  · rfl

theorem small {cs : List Char} (h : GoesOn cs) : ∀ c ∈ cs, c.isUpper = false := by
  intro c hc
  rcases h.mem c hc with hsmall | rfl
  · exact hsmall.2
  · rfl

theorem single {cs : List Char} (h : GoesOn cs) : ¬ ['_', '_'] <:+: cs := by
  induction h with
  | stop => simp
  | letter hc _ ih =>
    intro hinfix
    rcases List.infix_cons_iff.1 hinfix with hstart | hrest
    · exact hc.ne_underscore (List.cons_prefix_cons.1 hstart).1.symm
    · exact ih hrest
  | underscore hc _ ih =>
    intro hinfix
    rcases List.infix_cons_iff.1 hinfix with hstart | hrest
    · have hnext := (List.cons_prefix_cons.1 hstart).2
      exact hc.ne_underscore (List.cons_prefix_cons.1 hnext).1.symm
    · exact ih hrest

theorem last {cs : List Char} (h : GoesOn cs) : cs.getLast? ≠ some '_' := by
  induction h with
  | stop => simp
  | @letter c cs hc _ ih =>
    by_cases hcs : cs = []
    · rw [hcs, List.getLast?_singleton]
      intro hlast
      exact hc.ne_underscore (Option.some.inj hlast)
    · rwa [List.getLast?_cons_of_ne_nil hcs]
  | underscore _ _ ih => rwa [List.getLast?_cons_cons]

/-- The other way round, what has no capitals, no two underscores in a row and none at the end goes
on after a letter. -/
theorem of_isTail {cs : List Char} (htail : ∀ c ∈ cs, Identifier.isTail c = true)
    (hsmall : ∀ c ∈ cs, c.isUpper = false) (hsingle : ¬ ['_', '_'] <:+: cs)
    (hlast : cs.getLast? ≠ some '_') : GoesOn cs := by
  induction cs with
  | nil => exact .stop
  | cons c cs ih =>
    obtain ⟨hc, htail⟩ := List.forall_mem_cons.1 htail
    obtain ⟨hupper, hsmall⟩ := List.forall_mem_cons.1 hsmall
    have hrest : GoesOn cs := by
      apply ih htail hsmall
      · exact fun hinfix => hsingle (List.infix_cons hinfix)
      · by_cases hcs : cs = []
        · simp [hcs]
        · rwa [List.getLast?_cons_of_ne_nil hcs] at hlast
    rcases Bool.or_eq_true_iff.1 hc with halpha | hunderscore
    · exact .letter ⟨halpha, hupper⟩ hrest
    · obtain rfl : c = '_' := beq_iff_eq.1 hunderscore
      -- behind an underscore the rest can neither stop nor go on with another one
      cases hrest with
      | stop => exact absurd List.getLast?_singleton hlast
      | letter hd hds => exact .underscore hd (.letter hd hds)
      | underscore =>
        exact absurd (List.prefix_append ['_', '_'] _).isInfix hsingle

end GoesOn

theorem guardHead_of_isDigit {c : Char} (h : c.isDigit = true) (cs : List Char) :
    guardHead (c :: cs) = '_' :: c :: cs := by
  rw [guardHead, if_pos h]

theorem guardHead_of_not_isDigit {c : Char} (h : c.isDigit = false) (cs : List Char) :
    guardHead (c :: cs) = c :: cs := by
  rw [guardHead, if_neg (by simp [h])]

theorem IsWords.exists_letter {c : Char} {cs : List Char} (h : IsWords (c :: cs)) :
    IsSmall c ∧ GoesOn cs := by
  obtain ⟨hgoes, hfirst⟩ := h
  cases hgoes with
  | letter hc hcs => exact ⟨hc, hcs⟩
  | underscore => exact absurd rfl hfirst

theorem GoesOn.isFragment {c : Char} {cs : List Char} (h : GoesOn (c :: cs))
    (hhead : isHead c = true) (hfirst : c = '_' → ∀ d ∈ cs.head?, d.isDigit = true) :
    IsFragment (String.ofList (c :: cs)) where
  plain := by
    refine isPlain_iff.2 ⟨c, cs, String.toList_ofList, hhead, ?_⟩
    exact (List.forall_mem_cons.1 h.isTail).2
  small := by
    rw [String.toList_ofList]
    exact h.small
  single := by
    rw [String.toList_ofList]
    exact h.single
  last hlast := by
    rw [String.toList_ofList] at hlast
    exact absurd hlast h.last
  first d ds heq := by
    rw [String.toList_ofList] at heq
    obtain ⟨hc, hcs⟩ := List.cons.inj heq
    apply hfirst hc
    rw [hcs]
    rfl

theorem isFragment_underscore : IsFragment "_" where
  plain := rfl
  small c hc := by
    obtain rfl := List.mem_singleton.1 hc
    rfl
  single hinfix := absurd hinfix.length_le (by decide)
  last _ := rfl
  first _ _ heq := by cases heq

/-- The guard makes a fragment of any words. -/
theorem IsWords.isFragment {cs : List Char} (h : IsWords cs) :
    IsFragment (String.ofList (guardHead cs)) := by
  cases cs with
  | nil => exact isFragment_underscore
  | cons c cs =>
    obtain ⟨hc, hcs⟩ := h.exists_letter
    by_cases hdigit : c.isDigit = true
    · rw [guardHead_of_isDigit hdigit]
      apply GoesOn.isFragment (.underscore hc (.letter hc hcs)) rfl
      intro _ d hd
      obtain rfl := Option.some.inj hd
      exact hdigit
    · rw [guardHead_of_not_isDigit (Bool.eq_false_iff.2 hdigit)]
      apply h.goesOn.isFragment
      · have halpha : c.isAlpha = true := (Bool.or_eq_true_iff.1 hc.1).resolve_right hdigit
        exact Bool.or_eq_true_iff.2 (.inl halpha)
      · exact fun hunderscore => absurd hunderscore hc.ne_underscore

theorem isFragment_snakeCase (s : String) : IsFragment (snakeCase s) :=
  (isWords_fragment s.toList).isFragment

/-! Fragments are left as they are -/

theorem fragment_of_goesOn {cs : List Char} (h : GoesOn cs) : fragment true false cs = cs := by
  induction h with
  | stop => rfl
  | letter hc _ ih => rw [fragment, if_pos hc.1, if_neg Bool.false_ne_true, hc.toLower_eq, ih]
  | @underscore c cs hc _ ih =>
    have hskip : fragment true false ('_' :: c :: cs) = fragment true true (c :: cs) := rfl
    have hdue : fragment true true (c :: cs) = '_' :: fragment true false (c :: cs) := by
      simp [fragment, hc.1]
    rw [hskip, hdue, ih]

theorem fragment_of_isWords {cs : List Char} (h : IsWords cs) : fragment false false cs = cs := by
  cases cs with
  | nil => rfl
  | cons c cs =>
    obtain ⟨hc, hcs⟩ := h.exists_letter
    rw [fragment, if_pos hc.1, if_neg Bool.false_ne_true, hc.toLower_eq, fragment_of_goesOn hcs]

/-- Of the underscore in front nothing is written, and the guard puts it there again. -/
theorem fragment_guardHead (cs : List Char) :
    fragment false false (guardHead cs) = fragment false false cs := by
  unfold guardHead
  split
  · rfl
  · split <;> rfl

theorem IsFragment.exists_words {t : String} (h : IsFragment t) :
    ∃ cs, IsWords cs ∧ t.toList = guardHead cs := by
  by_cases hlone : t = "_"
  · exact ⟨[], ⟨.stop, by simp⟩, by rw [hlone]; rfl⟩
  have hgoes : GoesOn t.toList := by
    apply GoesOn.of_isTail (isTail_of_isPlain h.plain) h.small h.single
    intro hlast
    exact hlone (h.last hlast)
  obtain ⟨c, cs, hlist, hc, -⟩ := isPlain_iff.1 h.plain
  rw [hlist] at hgoes
  rcases Bool.or_eq_true_iff.1 hc with halpha | hunderscore
  · refine ⟨c :: cs, ⟨hgoes, ?_⟩, ?_⟩
    · intro hfirst
      obtain rfl := Option.some.inj hfirst
      exact absurd halpha (by decide)
    · rw [hlist, guardHead_of_not_isDigit (isDigit_eq_false_of_isAlpha halpha)]
  · obtain rfl : c = '_' := beq_iff_eq.1 hunderscore
    cases hgoes with
    | letter hsmall => exact absurd rfl hsmall.ne_underscore
    | @underscore d ds hd hds =>
      refine ⟨d :: ds, ⟨hds, ?_⟩, ?_⟩
      · intro hfirst
        exact hd.ne_underscore (Option.some.inj hfirst)
      · rw [hlist, guardHead_of_isDigit (h.first d ds hlist)]

theorem IsFragment.snakeCase_eq {t : String} (h : IsFragment t) : snakeCase t = t := by
  obtain ⟨cs, hcs, hlist⟩ := h.exists_words
  rw [snakeCase, hlist, fragment_guardHead, fragment_of_isWords hcs, ← hlist, String.ofList_toList]

/-! What is kept of a text -/

theorem filter_fragment (started gap : Bool) (cs : List Char) :
    (fragment started gap cs).filter (· != '_')
      = (cs.filter Char.isAlphanum).map Char.toLower := by
  induction cs generalizing started gap with
  | nil => rfl
  | cons c cs ih =>
    rw [fragment]
    split
    · next hc =>
      have hne : c.toLower ≠ '_' := (isSmall_toLower hc).ne_underscore
      have hkept (ds : List Char) :
          (c.toLower :: ds).filter (· != '_') = c.toLower :: ds.filter (· != '_') :=
        List.filter_cons_of_pos (by simp [hne])
      rw [List.filter_cons_of_pos hc, List.map_cons]
      split
      · rw [List.filter_cons_of_neg (by decide), hkept, ih]
      · rw [hkept, ih]
    · next hc => rw [List.filter_cons_of_neg hc, ih]

theorem filter_guardHead (cs : List Char) :
    (guardHead cs).filter (· != '_') = cs.filter (· != '_') := by
  unfold guardHead
  split
  · rfl
  · split <;> rfl

end Identifier

open Identifier (IsFragment snakeCase)

/-- What snake case makes of a text is always a fragment. It has the letters and digits of the text
in lower case and in their order, with nothing but underscores beside them, and another time changes
nothing: the texts left as they are are the fragments. -/
theorem snake_case_yields_stable_fragments (s : String) :
    IsFragment (snakeCase s) ∧
      (snakeCase s).toList.filter (· != '_') = (s.toList.filter Char.isAlphanum).map Char.toLower ∧
      snakeCase (snakeCase s) = snakeCase s ∧
      (snakeCase s = s ↔ IsFragment s) := by
  have hfragment : IsFragment (snakeCase s) := Identifier.isFragment_snakeCase s
  refine ⟨hfragment, ?_, hfragment.snakeCase_eq, ?_⟩
  · rw [snakeCase, String.toList_ofList, Identifier.filter_guardHead, Identifier.filter_fragment]
  · constructor
    · intro hfixed
      rw [← hfixed]
      exact hfragment
    · exact IsFragment.snakeCase_eq

example : snakeCase " 2nd--Phone! " = "_2nd_phone" := by decide

end TierQuery
