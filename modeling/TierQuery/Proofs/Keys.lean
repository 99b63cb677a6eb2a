import Mathlib.Tactic.IntervalCases
import TierQuery.Json.Reader
import TierQuery.Proofs.Levels
import TierQuery.Query.Edit

/-! The key of a criterion tells it from all others. A quoted name is read back by the reader of
JSON text, so it ends where its own closing quote stands; everything else in a key is a mark that
opens the next piece. -/

namespace TierQuery

open Json (Number Value quoted escapeChar)

namespace Json.Reader

/-- A control character is read back from its escape. -/
theorem unicodeEscape_hexDigits {n : Nat} (h : n < 32) (rest : List Char) :
    unicodeEscape ('0' :: '0' :: hexDigit (n / 16) :: hexDigit (n % 16) :: rest)
      = .ok (Char.ofNat n, rest) := by
  interval_cases n <;> rfl

theorem stringBody_escapeChar (fuel : Nat) (c : Char) (rest : List Char) :
    stringBody (fuel + 1) (escapeChar c ++ rest)
      = (stringBody fuel rest).bind fun x => .ok (c :: x.1, x.2) := by
  unfold escapeChar
  split_ifs with hquote hback hb hf hn hr ht hcontrol
  -- the quote, the backslash and the five controls with a letter of their own
  iterate 7
    · subst_vars
      rfl
  · have h := unicodeEscape_hexDigits hcontrol rest
    simp [stringBody, h, bind, Except.bind]
  · simp [stringBody, hquote, hback, hcontrol, bind, Except.bind]

/-- What is written as a string is read back as the same string, and nothing after it is touched. -/
theorem stringBody_quoted {fuel : Nat} {cs : List Char} (h : cs.length < fuel) (rest : List Char) :
    stringBody fuel (cs.flatMap escapeChar ++ '"' :: rest) = .ok (cs, rest) := by
  induction cs generalizing fuel with
  | nil =>
    obtain ⟨n, rfl⟩ : ∃ n, fuel = n + 1 := ⟨fuel - 1, by simp at h; omega⟩
    rfl
  | cons c cs ih =>
    obtain ⟨n, rfl⟩ : ∃ n, fuel = n + 1 := ⟨fuel - 1, by simp at h; omega⟩
    have hcs : cs.length < n := by simpa using h
    rw [List.flatMap_cons, List.append_assoc, stringBody_escapeChar, ih hcs]
    rfl

end Json.Reader

/-! Texts that tell where they end -/

/-- No text can be taken for the beginning of another, whatever follows. -/
def Delimited {α : Type} (text : α → List Char) : Prop :=
  ∀ ⦃a b r s⦄, text a ++ r = text b ++ s → a = b ∧ r = s

/-- The text is over, or one of the marks comes next. -/
def Opens (marks cs : List Char) : Prop := ∀ c ∈ cs.head?, c ∈ marks

/-- Delimited texts that begin with a mark. -/
structure Marked {α : Type} (marks : List Char) (text : α → List Char) : Prop where
  opens : ∀ a, ∃ c ∈ marks, ∃ cs, text a = c :: cs
  delimited : Delimited text

section Marked

variable {α : Type} {marks after r s : List Char} {text : α → List Char}

theorem Opens.flatMap (hm : Marked marks text) (hr : Opens after r) (as : List α) :
    Opens (marks ++ after) (as.flatMap text ++ r) := by
  intro c hc
  rw [List.mem_append]
  match as with
  | [] => exact .inr (hr c hc)
  | a :: as =>
    obtain ⟨d, hd, cs, he⟩ := hm.opens a
    rw [List.flatMap_cons, he] at hc
    obtain rfl : d = c := by simpa using hc
    exact .inl hd

/-- A row of marked texts ends where none of their marks comes next. -/
theorem Marked.flatMap (hm : Marked marks text) (hd : ∀ c ∈ marks, c ∉ after) (hr : Opens after r)
    (hs : Opens after s) {as bs : List α} (h : as.flatMap text ++ r = bs.flatMap text ++ s) :
    as = bs ∧ r = s := by
  have clash (a : α) (rest t : List Char) (ht : Opens after t) : t ≠ text a ++ rest := by
    obtain ⟨c, hc, cs, he⟩ := hm.opens a
    intro e
    exact hd c hc (ht c (by simp [e, he]))
  induction as generalizing bs with
  | nil =>
    match bs with
    | [] => exact ⟨rfl, h⟩
    | b :: bs =>
      rw [List.flatMap_cons, List.append_assoc] at h
      exact absurd h (clash b _ r hr)
  | cons a as ih =>
    match bs with
    | [] =>
      rw [List.flatMap_cons, List.append_assoc] at h
      exact absurd h.symm (clash a _ s hs)
    | b :: bs =>
      rw [List.flatMap_cons, List.flatMap_cons, List.append_assoc, List.append_assoc] at h
      obtain ⟨hab, hrest⟩ := hm.delimited h
      obtain ⟨hlist, hrs⟩ := ih hrest
      exact ⟨by rw [hab, hlist], hrs⟩

end Marked

theorem toList_foldl_append {α : Type} (text : α → String) (as : List α) (s : String) :
    (as.foldl (fun s a => s ++ text a) s).toList
      = s.toList ++ as.flatMap fun a => (text a).toList := by
  induction as generalizing s with
  | nil => simp
  | cons a as ih => rw [List.foldl_cons, ih]; simp

/-! Quoted names -/

theorem toList_quoted (s : String) :
    (quoted s).toList = '"' :: (s.toList.flatMap escapeChar ++ ['"']) := by
  simp [quoted]

theorem delimited_quoted : Delimited fun s => (quoted s).toList := by
  intro s t r r' h
  have hs := Json.Reader.stringBody_quoted
    (Nat.lt_succ_of_le (Nat.le_max_left s.toList.length t.toList.length)) r
  have ht := Json.Reader.stringBody_quoted
    (Nat.lt_succ_of_le (Nat.le_max_right s.toList.length t.toList.length)) r'
  have htail : s.toList.flatMap escapeChar ++ '"' :: r
      = t.toList.flatMap escapeChar ++ '"' :: r' := by
    simpa [toList_quoted] using h
  have : (s.toList, r) = (t.toList, r') := Except.ok.inj (hs.symm.trans (htail ▸ ht))
  exact ⟨String.toList_injective (Prod.ext_iff.1 this).1, (Prod.ext_iff.1 this).2⟩

/-- A quoted name behind its mark. -/
def behind (mark : Char) (name : String) : List Char := mark :: (quoted name).toList

theorem marked_behind (mark : Char) : Marked [mark] (behind mark) := by
  refine ⟨fun n => ⟨mark, List.mem_singleton.2 rfl, _, rfl⟩, fun n m r s h => ?_⟩
  exact delimited_quoted (List.cons.inj h).2

theorem toList_marked (mark : String) (names : List String) :
    (marked mark names).toList = names.flatMap fun n => mark.toList ++ (quoted n).toList := by
  have h := toList_foldl_append (fun n => mark ++ quoted n) names ""
  simpa [marked, String.append_assoc] using h

theorem marked_hop : Marked ['>', '<', '^', '@'] fun h : Hop => h.key.toList := by
  refine ⟨fun h => ?_, fun g h r s e => ?_⟩
  · cases h <;> simp [Hop.key]
  · cases g <;> cases h <;> simp [Hop.key] at e ⊢
    case up.up => exact delimited_quoted e
    all_goals exact e

/-! Tiers and paths -/

theorem Tier.toList_key (a : Tier) :
    a.key.toList = (quoted a.origin).toList ++ (a.hops.flatMap (fun h => h.key.toList)
      ++ (a.discourse.toList.flatMap (behind '#') ++ (a.typeSubsets.names.flatMap (behind ':')
      ++ a.tokenSubsets.names.flatMap (behind '+')))) := by
  simp only [Tier.key, String.toList_append, toList_foldl_append, toList_marked, List.append_assoc]
  rfl

theorem NameSet.eq_of_names {s t : NameSet} (h : s.names = t.names) : s = t := by
  cases s
  cases t
  simpa using h

theorem Tier.key_append_inj {a b : Tier} {r s : List Char} (hr : Opens ['.', ' '] r)
    (hs : Opens ['.', ' '] s) (h : a.key.toList ++ r = b.key.toList ++ s) : a = b ∧ r = s := by
  simp only [Tier.toList_key, List.append_assoc] at h
  have tokens {t : List Char} (ht : Opens ['.', ' '] t) (x : Tier) :=
    ht.flatMap (marked_behind '+') x.tokenSubsets.names
  have types {t : List Char} (ht : Opens ['.', ' '] t) (x : Tier) :=
    (tokens ht x).flatMap (marked_behind ':') x.typeSubsets.names
  have discourse {t : List Char} (ht : Opens ['.', ' '] t) (x : Tier) :=
    (types ht x).flatMap (marked_behind '#') x.discourse.toList
  obtain ⟨horigin, h⟩ := delimited_quoted h
  obtain ⟨hhops, h⟩ := marked_hop.flatMap (by simp) (discourse hr a) (discourse hs b) h
  obtain ⟨hdiscourse, h⟩ := (marked_behind '#').flatMap (by simp) (types hr a) (types hs b) h
  obtain ⟨htypes, h⟩ := (marked_behind ':').flatMap (by simp) (tokens hr a) (tokens hs b) h
  obtain ⟨htokens, h⟩ := (marked_behind '+').flatMap (by simp) hr hs h
  refine ⟨?_, h⟩
  cases a
  cases b
  simp only [Tier.mk.injEq]
  exact ⟨horigin, hhops, by simpa using congrArg List.head? hdiscourse, NameSet.eq_of_names htypes,
    NameSet.eq_of_names htokens⟩

namespace AttributePath

def aliasKey : Option String → String
  | some name => " as " ++ quoted name
  | none => ""

/-- What stands behind the tier in the key of a path. -/
def keyTail (p : AttributePath) : String := "." ++ quoted p.property.name ++ aliasKey p.alias?

theorem toList_key (p : AttributePath) :
    p.key.toList = p.tier.key.toList ++ p.keyTail.toList := by
  unfold key keyTail aliasKey
  cases p.alias? <;> simp

theorem opens_keyTail (p : AttributePath) (r : List Char) :
    Opens ['.', ' '] (p.keyTail.toList ++ r) := by
  simp [Opens, keyTail]

theorem aliasKey_append_inj {a b : Option String} {r s : List Char} (hr : ¬ " as ".toList <+: r)
    (hs : ¬ " as ".toList <+: s) (h : (aliasKey a).toList ++ r = (aliasKey b).toList ++ s) :
    a = b ∧ r = s := by
  rcases a with _ | a <;> rcases b with _ | b <;>
    simp only [aliasKey, String.toList_append, String.toList_empty, List.append_assoc,
      List.nil_append] at h
  · exact ⟨rfl, h⟩
  · exact absurd ⟨_, h.symm⟩ hr
  · exact absurd ⟨_, h⟩ hs
  · obtain ⟨hname, hrest⟩ := delimited_quoted (List.append_cancel_left h)
    exact ⟨by rw [hname], hrest⟩

/-- A path ends where no alias comes next. -/
theorem key_append_inj {p q : AttributePath} {r s : List Char} (hr : ¬ " as ".toList <+: r)
    (hs : ¬ " as ".toList <+: s) (h : p.key.toList ++ r = q.key.toList ++ s) : p = q ∧ r = s := by
  rw [toList_key, toList_key, List.append_assoc, List.append_assoc] at h
  obtain ⟨htier, h⟩ := Tier.key_append_inj (p.opens_keyTail r) (q.opens_keyTail s) h
  simp only [keyTail, String.toList_append, List.append_assoc] at h
  obtain ⟨hname, h⟩ := delimited_quoted (List.append_cancel_left h)
  obtain ⟨halias, h⟩ := aliasKey_append_inj hr hs h
  refine ⟨?_, h⟩
  obtain ⟨pt, ⟨pn⟩, pa⟩ := p
  obtain ⟨qt, ⟨qn⟩, qa⟩ := q
  simp_all

end AttributePath

/-! Values -/

namespace Json

theorem quote_notMem_toDigits (n : Nat) : '"' ∉ Nat.toDigits 10 n := by
  intro h
  have := Nat.isDigit_of_mem_toDigits (by decide) (by decide) h
  simp at this

theorem Decimal.quote_notMem_text (d : Decimal) : '"' ∉ d.text.toList := by
  have htake (k m : Nat) : '"' ∉ (Nat.toDigits 10 k).take m :=
    fun h => quote_notMem_toDigits k (List.mem_of_mem_take h)
  have hdrop (k m : Nat) : '"' ∉ (Nat.toDigits 10 k).drop m :=
    fun h => quote_notMem_toDigits k (List.mem_of_mem_drop h)
  have htail (k : Nat) : '"' ∉ (Nat.toDigits 10 k).tail :=
    fun h => quote_notMem_toDigits k (List.mem_of_mem_tail h)
  unfold Decimal.text
  dsimp only
  split_ifs <;> simp [zeros, quote_notMem_toDigits, htake, hdrop, htail]

theorem Number.quote_notMem_text (n : Number) : '"' ∉ n.text.toList := by
  cases n with
  | whole n =>
    cases n with
    | ofNat n => simpa [Number.text, toString, Int.repr] using quote_notMem_toDigits n
    | negSucc n => simpa [Number.text, toString, Int.repr] using quote_notMem_toDigits (n + 1)
  | float x =>
    have h := Decimal.quote_notMem_text x.shortest
    simp only [Number.text, Binary64.text, String.toList_append, List.mem_append, not_or]
    refine ⟨?_, h⟩
    split_ifs <;> simp

/-- Only a string is written with a quote at its front. -/
theorem Value.eq_text_of_compact {v : Value} {cs : List Char} (h : v.compact.toList = '"' :: cs) :
    ∃ s, v = .text s := by
  cases v with
  | null => simp [Value.compact] at h
  | bool b => cases b <;> simp [Value.compact] at h
  | number n =>
    exfalso
    apply n.quote_notMem_text
    rw [Value.compact] at h
    rw [h]
    exact List.mem_cons_self
  | text s => exact ⟨s, rfl⟩
  | array vs => simp [Value.compact] at h
  | object ms => simp [Value.compact] at h

end Json

/-- The literals of a list are told apart by their text. -/
def Separated (vs : List Value) : Prop :=
  ∀ v ∈ vs, ∀ w ∈ vs, v.compact = w.compact → v = w

theorem separated_texts (ss : List String) : Separated (ss.map .text) := by
  intro v hv w hw h
  obtain ⟨s, -, rfl⟩ := List.mem_map.1 hv
  obtain ⟨t, -, rfl⟩ := List.mem_map.1 hw
  simp only [Value.compact] at h
  have hlist : (quoted s).toList ++ [] = (quoted t).toList ++ [] := by rw [h]
  rw [(delimited_quoted hlist).1]

def Operand.literals : Operand → List Value
  | .value v => [v]
  | .path _ => []

theorem Operand.compact_ne_key (v : Value) (p : AttributePath) : v.compact ≠ p.key := by
  intro h
  obtain ⟨middle, hkey⟩ : ∃ middle,
      p.key.toList = (quoted p.tier.origin).toList ++ (middle ++ p.keyTail.toList) := by
    have := p.toList_key
    rw [p.tier.toList_key, List.append_assoc] at this
    exact ⟨_, this⟩
  have hquote := (congrArg String.toList h).trans hkey
  rw [toList_quoted, List.cons_append] at hquote
  obtain ⟨s, rfl⟩ := Json.Value.eq_text_of_compact hquote
  have hs : (quoted s).toList ++ []
      = (quoted p.tier.origin).toList ++ (middle ++ p.keyTail.toList) := by
    rw [List.append_nil, ← hkey, ← h, Value.compact]
  have := (delimited_quoted hs).2
  simp [AttributePath.keyTail] at this

theorem Operand.key_inj {x y : Operand} (hs : Separated (x.literals ++ y.literals))
    (h : x.key = y.key) : x = y := by
  rcases x with v | p <;> rcases y with w | q
  · rw [hs v (by simp [literals]) w (by simp [literals]) h]
  · exact absurd h (compact_ne_key v q)
  · exact absurd h.symm (compact_ne_key w p)
  · simp only [key] at h
    have hend : ¬ " as ".toList <+: [] := by simp
    have hlist : p.key.toList ++ [] = q.key.toList ++ [] := by rw [h]
    rw [(AttributePath.key_append_inj hend hend hlist).1]

/-! Criteria -/

theorem delimited_symbol : Delimited fun op : CompareOp => (op.symbol ++ " ").toList := by
  intro a b r s h
  cases a <;> cases b <;> simp_all [CompareOp.symbol]

theorem delimited_alignment : Delimited fun k : Alignment => (k.name ++ " ").toList := by
  intro a b r s h
  cases a <;> cases b <;> simp_all [Alignment.name]

namespace Criterion

def literals : Criterion → List Value
  | .comparison _ _ x => x.literals
  | .contains _ _ v => [v]
  | .alignment _ _ _ => []

theorem separated_pair {cs : List Criterion} (hs : Separated (cs.flatMap literals))
    {c d : Criterion} (hc : c ∈ cs) (hd : d ∈ cs) : Separated (c.literals ++ d.literals) := by
  have hsub (v : Value) (hv : v ∈ c.literals ++ d.literals) : v ∈ cs.flatMap literals := by
    rw [List.mem_flatMap]
    exact (List.mem_append.1 hv).elim (fun h => ⟨c, hc, h⟩) fun h => ⟨d, hd, h⟩
  exact fun v hv w hw => hs v (hsub v hv) w (hsub w hw)

/-- The tier at the front of a key. -/
def leading : Criterion → Tier
  | .comparison p _ _ => p.tier
  | .contains c _ _ => c
  | .alignment _ a _ => a

/-- What stands behind it. -/
def keyTail : Criterion → String
  | .comparison p op x => p.keyTail ++ " " ++ op.symbol ++ " " ++ x.key
  | .contains _ p v => " contains " ++ p.key ++ " = " ++ v.compact
  | .alignment k _ b => " " ++ k.name ++ " " ++ b.key

theorem toList_key (c : Criterion) : c.key.toList = c.leading.key.toList ++ c.keyTail.toList := by
  cases c <;> simp [key, leading, keyTail, AttributePath.toList_key]

theorem opens_keyTail (c : Criterion) : Opens ['.', ' '] c.keyTail.toList := by
  cases c with
  | comparison p op x =>
    simp only [keyTail, String.toList_append, List.append_assoc]
    exact p.opens_keyTail _
  | contains c p v => simp [Opens, keyTail]
  | alignment k a b => simp [Opens, keyTail]

theorem comparison_key_inj {p q : AttributePath} {op op' : CompareOp} {x y : Operand}
    (hs : Separated (x.literals ++ y.literals))
    (h : (comparison p op x).key = (comparison q op' y).key) :
    comparison p op x = comparison q op' y := by
  have hsymbol (op : CompareOp) (x : Operand) :
      ¬ " as ".toList <+: " ".toList ++ ((op.symbol ++ " ").toList ++ x.key.toList) := by
    cases op <;> simp [CompareOp.symbol]
  have hkey : p.key.toList ++ (" ".toList ++ ((op.symbol ++ " ").toList ++ x.key.toList))
      = q.key.toList ++ (" ".toList ++ ((op'.symbol ++ " ").toList ++ y.key.toList)) := by
    simpa [key] using congrArg String.toList h
  obtain ⟨hpath, hkey⟩ := AttributePath.key_append_inj (hsymbol op x) (hsymbol op' y) hkey
  obtain ⟨hop, hkey⟩ := delimited_symbol (List.append_cancel_left hkey)
  rw [hpath, hop, Operand.key_inj hs (String.toList_injective hkey)]

theorem contains_key_inj {c d : Tier} {p q : AttributePath} {v w : Value}
    (hs : Separated [v, w]) (h : (contains c p v).key = (contains d q w).key) :
    contains c p v = contains d q w := by
  have hequals (v : Value) : ¬ " as ".toList <+: " = ".toList ++ v.compact.toList := by simp
  have hmark (r : List Char) : Opens ['.', ' '] (" contains ".toList ++ r) := by simp [Opens]
  have hkey : c.key.toList
        ++ (" contains ".toList ++ (p.key.toList ++ (" = ".toList ++ v.compact.toList)))
      = d.key.toList
        ++ (" contains ".toList ++ (q.key.toList ++ (" = ".toList ++ w.compact.toList))) := by
    simpa [key] using congrArg String.toList h
  obtain ⟨htier, hkey⟩ := Tier.key_append_inj (hmark _) (hmark _) hkey
  obtain ⟨hpath, hkey⟩ := AttributePath.key_append_inj (hequals v) (hequals w)
    (List.append_cancel_left hkey)
  have hvalue : v.compact = w.compact := String.toList_injective (List.append_cancel_left hkey)
  rw [htier, hpath, hs v (by simp) w (by simp) hvalue]

theorem alignment_key_inj {k l : Alignment} {a b c d : Tier}
    (h : (alignment k a b).key = (alignment l c d).key) : alignment k a b = alignment l c d := by
  have hmark (r : List Char) : Opens ['.', ' '] (" ".toList ++ r) := by simp [Opens]
  have hend : Opens ['.', ' '] [] := by simp [Opens]
  have hkey : a.key.toList ++ (" ".toList ++ ((k.name ++ " ").toList ++ b.key.toList))
      = c.key.toList ++ (" ".toList ++ ((l.name ++ " ").toList ++ d.key.toList)) := by
    simpa [key] using congrArg String.toList h
  obtain ⟨hfirst, hkey⟩ := Tier.key_append_inj (hmark _) (hmark _) hkey
  obtain ⟨hkind, hkey⟩ := delimited_alignment (List.append_cancel_left hkey)
  have hkey : b.key.toList ++ [] = d.key.toList ++ [] := by rw [hkey]
  rw [hfirst, hkind, (Tier.key_append_inj hend hend hkey).1]

theorem key_inj {c d : Criterion} (hs : Separated (c.literals ++ d.literals)) (h : c.key = d.key) :
    c = d := by
  have hkey : c.leading.key.toList ++ c.keyTail.toList
      = d.leading.key.toList ++ d.keyTail.toList := by
    rw [← toList_key, ← toList_key, h]
  -- the kind is told by what comes behind the first tier
  have htail := (Tier.key_append_inj c.opens_keyTail d.opens_keyTail hkey).2
  rcases c with ⟨p, op, x⟩ | ⟨c, p, v⟩ | ⟨k, a, b⟩ <;>
    rcases d with ⟨q, op', y⟩ | ⟨d, q, w⟩ | ⟨l, a', b'⟩
  · exact comparison_key_inj hs h
  · simp [keyTail, AttributePath.keyTail] at htail
  · simp [keyTail, AttributePath.keyTail] at htail
  · simp [keyTail, AttributePath.keyTail] at htail
  · exact contains_key_inj hs h
  · cases l <;> simp [keyTail, Alignment.name] at htail
  · simp [keyTail, AttributePath.keyTail] at htail
  · cases k <;> simp [keyTail, Alignment.name] at htail
  · exact alignment_key_inj h

end Criterion

/-! Equality, which takes the two floating zeros for one -/

theorem Number.same_iff {a b : Number} : a.same b = true ↔
    a = b ∨ ∃ x y, a = .float x ∧ b = .float y ∧ x.rank = 0 ∧ y.rank = 0 := by
  cases a <;> cases b <;> simp [Number.same]

mutual

theorem Value.same_self : (v : Value) → v.same v = true
  | .null => rfl
  | .bool _ => by simp only [Value.same, beq_self_eq_true]
  | .number _ => Number.same_iff.2 (Or.inl rfl)
  | .text _ => by simp only [Value.same, beq_self_eq_true]
  | .array items => Value.sameItems_self items
  | .object members => Value.sameMembers_self members

theorem Value.sameItems_self : (vs : List Value) → Value.sameItems vs vs = true
  | [] => rfl
  | v :: vs => by
    simp only [Value.sameItems, Value.same_self v, Value.sameItems_self vs, Bool.and_self]

theorem Value.sameMembers_self : (ms : List (String × Value)) → Value.sameMembers ms ms = true
  | [] => rfl
  | (_, v) :: ms => by
    simp only [Value.sameMembers, beq_self_eq_true, Value.same_self v, Value.sameMembers_self ms,
      Bool.and_self]

end

namespace Criterion

theorem same_self (c : Criterion) : c.same c = true := by
  cases c with
  | comparison p op x => cases x <;> simp [same, Value.same_self]
  | contains c p v => simp [same, Value.same_self]
  | alignment k a b => simp [same]

/-- Keys are finer than equality, so that a query drops none but equal criteria. -/
theorem same_of_key_eq {c d : Criterion} (hs : Separated (c.literals ++ d.literals))
    (h : c.key = d.key) : c.same d = true :=
  key_inj hs h ▸ c.same_self

/-- Equal criteria have two keys where they compare with the two zeros. -/
example :
    let onset := (Tier.ofLevel "phone").attribute .begin
    let c := onset.compare .eq (.number (.float .zero))
    let d := onset.compare .eq (.number (.float Json.Binary64.zero.negate))
    c.same d = true ∧ c.key ≠ d.key := by
  decide +kernel

end Criterion

/-! What a query keeps of the criteria it is given -/

/-- The criterion that an edit gives to a search for `find`. -/
def Edit.criterion? (find : Tier) : Edit → Option Criterion
  | .filter c | .filterContainedBy c => some c
  | .filterContains p v => some (.contains find p v)
  | .filterAligned kind other => some (.alignment kind find other)
  | .discourses [name] => some ((find.attribute .discourse).compare .eq (.text name))
  | .discourses names =>
    some ((find.attribute .discourse).compare .isIn (.array (names.map .text)))
  | _ => none

namespace Query

theorem find_filter (q : Query) (c : Criterion) : (q.filter c).find = q.find := by
  unfold filter
  split_ifs <;> rfl

theorem find_edit (q : Query) (e : Edit) : (q.edit e).find = q.find := by
  cases e
  case discourses names =>
    match names with
    | [] | [_] | _ :: _ :: _ => exact q.find_filter _
  case filter | filterContainedBy | filterContains | filterAligned => exact q.find_filter _
  all_goals rfl

theorem criteria_edit (q : Query) (e : Edit) :
    (q.edit e).criteria = ((e.criterion? q.find).elim q fun c => q.filter c).criteria := by
  cases e
  case discourses names =>
    match names with
    | [] | [_] | _ :: _ :: _ => rfl
  all_goals rfl

theorem criteria_filter {q : Query} {c : Criterion} (hs : ∀ d ∈ q.criteria, d.key = c.key → d = c) :
    (q.filter c).criteria = if c ∈ q.criteria then q.criteria else q.criteria ++ [c] := by
  have hmem : (q.criteria.map Criterion.key).contains c.key = true ↔ c ∈ q.criteria := by
    rw [List.contains_iff_mem, List.mem_map]
    constructor
    · rintro ⟨d, hd, he⟩
      exact hs d hd he ▸ hd
    · intro h
      exact ⟨c, h, rfl⟩
  unfold filter
  by_cases h : c ∈ q.criteria
  · rw [if_pos (hmem.2 h), if_pos h]
  · rw [if_neg (hmem.not.2 h), if_neg h]

/-- Edit by edit, a query holds what it was given, each criterion at its first place. -/
theorem criteria_edits {q : Query} (given : List Criterion) (es : List Edit)
    (hq : q.criteria = distinct given)
    (hs : Separated ((given ++ es.filterMap (·.criterion? q.find)).flatMap Criterion.literals)) :
    (q.edits es).criteria = distinct (given ++ es.filterMap (·.criterion? q.find)) := by
  induction es generalizing q given with
  | nil => simpa [edits] using hq
  | cons e es ih =>
    have hstep := criteria_edit q e
    rw [← q.find_edit e] at hs ⊢
    match he : e.criterion? (q.edit e).find with
    | none =>
      rw [List.filterMap_cons_none he] at hs ⊢
      rw [q.find_edit e] at he
      rw [he] at hstep
      exact ih given (hstep.trans hq) hs
    | some c =>
      rw [List.filterMap_cons_some he, List.append_cons] at hs ⊢
      rw [q.find_edit e] at he
      have hkeys : ∀ d ∈ q.criteria, d.key = c.key → d = c := by
        intro d hd
        rw [hq, mem_distinct] at hd
        exact Criterion.key_inj (Criterion.separated_pair hs (by simp [hd]) (by simp))
      rw [he, Option.elim_some, criteria_filter hkeys] at hstep
      refine ih (given ++ [c]) ?_ hs
      rw [hstep, hq, distinct_concat]
      simp only [mem_distinct]

end Query

/-- Where the text of literals tells them apart, keys tell criteria apart, and a query holds exactly
the criteria it was given, each once, in the order of their first mention. -/
theorem keys_tell_criteria_apart :
    (∀ c d : Criterion, Separated (c.literals ++ d.literals) → (c.key = d.key ↔ c = d)) ∧
    ∀ (h : Hierarchy) (find : Tier) (es : List Edit),
      Separated ((es.filterMap (·.criterion? find)).flatMap Criterion.literals) →
      ((Query.ofFind h find).edits es).criteria = distinct (es.filterMap (·.criterion? find)) := by
  refine ⟨fun c d hs => ⟨Criterion.key_inj hs, fun h => by rw [h]⟩, fun h find es hs => ?_⟩
  exact Query.criteria_edits (q := Query.ofFind h find) [] es rfl hs

/-- A label that is the label of the word, and a label that only reads like the path to it. -/
def Criterion.lookalikes : Criterion × Criterion :=
  let label := (Tier.ofLevel "phone").attribute .label
  (label.comparePath .eq ((Tier.ofLevel "word").attribute .label),
    label.compare .eq (.text "\"word\".\"label\""))

theorem lookalikes_are_both_kept :
    Criterion.lookalikes.1.key ≠ Criterion.lookalikes.2.key ∧
    ((Query.ofFind ⟨["phone", "word"]⟩ (Tier.ofLevel "phone")).edits
      [.filter Criterion.lookalikes.1, .columns [], .filterContainedBy Criterion.lookalikes.2,
        .filter Criterion.lookalikes.1, .discourses ["d1"]]).criteria
      = [Criterion.lookalikes.1, Criterion.lookalikes.2,
        ((Tier.ofLevel "phone").attribute .discourse).compare .eq (.text "d1")] := by
  constructor
  · intro h
    have hs : Separated (Criterion.lookalikes.1.literals ++ Criterion.lookalikes.2.literals) :=
      separated_texts ["\"word\".\"label\""]
    exact absurd ((keys_tell_criteria_apart.1 _ _ hs).1 h) (by decide)
  · refine (keys_tell_criteria_apart.2 _ _ _ ?_).trans (by decide)
    exact separated_texts ["\"word\".\"label\"", "d1"]

end TierQuery
