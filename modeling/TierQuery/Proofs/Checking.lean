import TierQuery.Command
import TierQuery.Proofs.Levels

/-! Checking a description against compiling it. Both take the same way to a statement, and a
statement can always be written. But a check turns blank texts away first, in the wider sense of
blank, so that it has to be seen that none of them would be read. -/

namespace TierQuery

open Json (Break Document)

/-! Blank texts -/

theorem ne_of_isWhiteSpace {c d : Char} (hc : isWhiteSpace c = true) (hd : isWhiteSpace d = false) :
    c ≠ d := by
  rintro rfl
  exact Bool.false_ne_true (hd.symm.trans hc)

theorem isDigit_of_isWhiteSpace {c : Char} (hc : isWhiteSpace c = true) : c.isDigit = false := by
  rw [Bool.eq_false_iff]
  intro hd
  simp only [Char.isDigit, Bool.and_eq_true, decide_eq_true_eq, ge_iff_le,
    UInt32.le_iff_toNat_le] at hd
  have hrange : 48 ≤ c.toNat ∧ c.toNat ≤ 57 := hd
  simp only [isWhiteSpace, Bool.or_eq_true, Bool.and_eq_true, decide_eq_true_eq] at hc
  omega

namespace Json

/-- No document begins with white space, be it a blank of JSON or not. -/
theorem Reader.document_of_isWhiteSpace {fuel depth : Nat} {cs : List Char}
    (h : ∀ c ∈ cs, isWhiteSpace c = true) :
    ∃ b, document (fuel + 1) depth cs = (.broken b, none) := by
  rw [document]
  cases hcs : skipBlank cs with
  | nil => exact ⟨.truncated, rfl⟩
  | cons c rest =>
    have hmem : c ∈ skipBlank cs := hcs ▸ List.mem_cons_self
    have hc : isWhiteSpace c = true := h c ((List.dropWhile_sublist isBlank).subset hmem)
    have hne (d : Char) (hd : isWhiteSpace d = false) : c ≠ d := ne_of_isWhiteSpace hc hd
    refine ⟨.malformed, ?_⟩
    simp only [hne 'n' rfl, hne 't' rfl, hne 'f' rfl, hne '"' rfl, hne '-' rfl, hne '[' rfl,
      hne '\x7b' rfl, isDigit_of_isWhiteSpace hc, or_self, if_false, Bool.false_eq_true]

theorem Document.read_of_isBlankText {s : String} (h : isBlankText s = true) :
    ∃ b, Document.read s = (.broken b, none) := by
  have hspace : ∀ c ∈ s.toList, isWhiteSpace c = true := List.all_eq_true.1 h
  obtain ⟨b, hb⟩ : ∃ b, Reader.document (2 * s.toList.length + 2) Reader.depthLimit s.toList
      = (.broken b, none) := Reader.document_of_isWhiteSpace hspace
  exact ⟨b, by simp only [Document.read, hb]⟩

end Json

theorem Description.ofText_of_isBlankText {s : String} (h : isBlankText s = true) :
    ∃ b, Description.ofText s = .error (.text b) := by
  obtain ⟨b, hb⟩ := Document.read_of_isBlankText h
  exact ⟨b, by rw [ofText, hb]; rfl⟩

namespace Command

theorem statementOf_of_isBlankText {s : String} (h : isBlankText s = true) (count : Bool) :
    ∃ b, statementOf s count = .error (.description (.json (.text b))) := by
  obtain ⟨b, hb⟩ := Description.ofText_of_isBlankText h
  exact ⟨b, by rw [statementOf, Request.ofText, hb]; rfl⟩

/-- What a check answers and what compiling does, for one text. -/
structure Agree (text : String) (checked compiled : Except CommandError (Option String)) :
    Prop where
  accepted : checked = .ok none ↔ ∃ output, compiled = .ok (some output)
  rejected : (∃ e, checked = .error e) ↔ ∃ e, compiled = .error e
  messages : ∀ e e', checked = .error e → compiled = .error e' →
    (e.message = e'.message ↔ isBlankText text = false)
  blank : isBlankText text = true → checked = .error .emptyQuery ∧
    ∃ b, compiled = .error (.description (.json (.text b)))

end Command

/-- The invocation as a check of the text. -/
def Invocation.checking (i : Invocation) (text : String) : Invocation :=
  { i with command := .check, text? := some text }

/-- The invocation as one to compile the text, with rows for an answer if the text does not say
otherwise. -/
def Invocation.compiling (i : Invocation) (text : String) : Invocation :=
  { i with command := .compile, text? := some text, count := false }

namespace Command

variable {i : Invocation} {inputs : Inputs} {text : String}

theorem run_checking_of_isBlankText (h : isBlankText text = true) :
    run (i.checking text) inputs = .error .emptyQuery := by
  simp [run, source, Invocation.checking, check, h, bind, Except.bind]

theorem run_checking_eq (h : isBlankText text = false) :
    run (i.checking text) inputs = (statementOf text false).map fun _ => none := by
  change (check text >>= fun _ => .ok none) = _
  rw [check, h]
  cases statementOf text false <;> rfl

theorem run_compiling_eq : run (i.compiling text) inputs = (statementOf text false).map
    fun s => some (if i.json then s.toJson.indented 0 else s.report) := by
  change some <$> compile text false i.json = _
  rw [compile]
  cases statementOf text false <;> rfl

theorem message_ne_of_json (e : Json.ReadError) :
    CommandError.emptyQuery.message ≠ (CommandError.description (.json e)).message := by
  intro he
  have htext : "query cannot be empty".toList
      = "invalid query description: ".toList ++ e.message.toList := by
    rw [← String.toList_append]
    exact congrArg String.toList he
  cases htext

namespace Agree

theorem accept (hblank : isBlankText text = false) (output : String) :
    Agree text (.ok none) (.ok (some output)) where
  accepted := by simp
  rejected := by simp
  messages _ _ he := by cases he
  blank := by simp [hblank]

theorem reject (hblank : isBlankText text = false) (e : CommandError) :
    Agree text (.error e) (.error e) where
  accepted := by simp
  rejected := by simp
  messages := by
    rintro _ _ ⟨⟩ ⟨⟩
    exact iff_of_true rfl hblank
  blank := by simp [hblank]

theorem reject_blank (hblank : isBlankText text = true) (b : Break) :
    Agree text (.error .emptyQuery) (.error (.description (.json (.text b)))) where
  accepted := by simp
  rejected := by simp
  messages := by
    rintro _ _ ⟨⟩ ⟨⟩
    exact iff_of_false (message_ne_of_json _) (by simp [hblank])
  blank _ := ⟨rfl, b, rfl⟩

end Agree

end Command

/-- A check accepts the texts that compile, in either form of the output. What it does not accept it
rejects with the message that compiling has, unless the text is blank. -/
theorem checking_agrees_with_compiling (text : String) (i j : Invocation)
    (inputs inputs' : Inputs) : Command.Agree text (Command.run (i.checking text) inputs)
      (Command.run (j.compiling text) inputs') := by
  rw [Command.run_compiling_eq]
  cases hblank : isBlankText text with
  | true =>
    obtain ⟨b, hb⟩ := Command.statementOf_of_isBlankText hblank false
    rw [Command.run_checking_of_isBlankText hblank, hb]
    exact .reject_blank hblank b
  | false =>
    rw [Command.run_checking_eq hblank]
    cases Command.statementOf text false with
    | error e => exact .reject hblank e
    | ok s => exact .accept hblank _

end TierQuery
