import TierQuery.Proofs.Identifiers

/-! The names in the text of a statement. They stand there as identifiers, in the order in which the
statement has them, and behind each of them comes a character that no identifier goes on with. So
whatever a name contains, it is read back where it was written and the text goes on behind it. -/

namespace TierQuery

open Identifier (escape EndsAt Stops)

/-! Texts with names in them -/

/-- Text in which the names `ns` stand in this order, each as an identifier that is over where the
text behind it begins. -/
inductive NamesIn : String → List String → Prop
  | text (t : String) : NamesIn t []
  | name {n t : String} {ns : List String} (hend : EndsAt n t.toList) (ht : NamesIn t ns) :
      NamesIn (escape n ++ t) (n :: ns)
  | prepend (u : String) {t : String} {ns : List String} (ht : NamesIn t ns) : NamesIn (u ++ t) ns

/-- The text begins with a character that no identifier goes on with. -/
def Halts (t : String) : Prop :=
  (t.toList.head?.any fun c => c != Identifier.quote && !Identifier.isTail c) = true

instance (t : String) : Decidable (Halts t) := inferInstanceAs (Decidable (_ = true))

theorem halts_iff {t : String} :
    Halts t ↔
      ∃ c, t.toList.head? = some c ∧ c ≠ Identifier.quote ∧ Identifier.isTail c = false := by
  simp [Halts, Option.any_eq_true]

theorem Halts.stops {t : String} (h : Halts t) : Stops t.toList := by
  obtain ⟨c, hc, hstop⟩ := halts_iff.1 h
  intro d hd
  obtain rfl := Option.mem_unique hc hd
  exact hstop

theorem Halts.append {t : String} (h : Halts t) (u : String) : Halts (t ++ u) := by
  obtain ⟨c, hc, hstop⟩ := halts_iff.1 h
  refine halts_iff.2 ⟨c, ?_, hstop⟩
  rw [String.toList_append, List.head?_append, hc]
  rfl

namespace NamesIn

variable {x y : String} {ns ms : List String}

theorem append (hx : NamesIn x ns) (hy : NamesIn y ms) (hstop : Stops y.toList) :
    NamesIn (x ++ y) (ns ++ ms) := by
  induction hx with
  | text t => exact hy.prepend t
  | @name n t ns hend ht ih =>
    rw [String.append_assoc]
    refine .name (fun c hc => ?_) ih
    rw [String.toList_append] at hc
    cases htext : t.toList with
    | nil =>
      rw [htext] at hc
      exact hstop.endsAt n c hc
    | cons d ds =>
      rw [htext] at hc hend
      exact hend c hc
  | prepend u ht ih =>
    rw [String.append_assoc]
    exact ih.prepend u

theorem postpend (hx : NamesIn x ns) {t : String} (h : Halts t) : NamesIn (x ++ t) ns := by
  have := hx.append (.text t) h.stops
  rwa [List.append_nil] at this

/-- A name at the end. -/
theorem last (n : String) : NamesIn (escape n) [n] := by
  have := name (Identifier.stops_nil.endsAt n) (text "")
  rwa [String.append_empty] at this

/-- Of the text behind a name, only the beginning has to keep off it. -/
theorem follow (hx : NamesIn x ns) {u : String} (hu : Halts u) (v : String) :
    NamesIn (x ++ u ++ v) ns := by
  rw [String.append_assoc]
  exact hx.postpend (hu.append v)

theorem append_name (hx : NamesIn x ns) {u : String} (hu : Halts u) (n : String) :
    NamesIn (x ++ u ++ escape n) (ns ++ [n]) := by
  rw [String.append_assoc]
  exact hx.append ((last n).prepend u) (hu.append _).stops

end NamesIn

/-- Lines in which the names `ns` stand, those of one line behind those of the line before. -/
inductive NamesInLines : List String → List String → Prop
  | nil : NamesInLines [] []
  | cons {l : String} {ls ns ms : List String} (hl : NamesIn l ns) (hls : NamesInLines ls ms) :
      NamesInLines (l :: ls) (ns ++ ms)

namespace NamesInLines

variable {ls ks ns ms : List String}

theorem lines (ts : List String) : NamesInLines ts [] := by
  induction ts with
  | nil => exact .nil
  | cons t ts ih => exact .cons (.text t) ih

theorem line {x : String} (h : NamesIn x ns) : NamesInLines [x] ns := by
  have := cons h nil
  rwa [List.append_nil] at this

theorem append (hl : NamesInLines ls ns) (hk : NamesInLines ks ms) :
    NamesInLines (ls ++ ks) (ns ++ ms) := by
  induction hl with
  | nil => exact hk
  | cons hl hls ih =>
    rw [List.append_assoc]
    exact .cons hl ih

theorem flatMap {α : Type} {g : α → List String} {k : α → List String}
    (h : ∀ a, NamesInLines (g a) (k a)) (as : List α) :
    NamesInLines (as.flatMap g) (as.flatMap k) := by
  induction as with
  | nil => exact .nil
  | cons a as ih => exact (h a).append ih

theorem map {α : Type} {g : α → String} {k : α → List String} (h : ∀ a, NamesIn (g a) (k a))
    (as : List α) : NamesInLines (as.map g) (as.flatMap k) := by
  rw [List.map_eq_flatMap]
  exact flatMap (fun a => line (h a)) as

theorem join {sep : String} (hsep : Halts sep) (h : NamesInLines ls ns) :
    NamesIn (joinWith sep ls) ns := by
  induction h with
  | nil => exact .text ""
  | cons hl hls ih =>
    cases hls with
    | nil => simpa [joinWith] using hl
    | cons hk hks =>
      rw [joinWith, String.append_assoc]
      exact hl.append (ih.prepend sep) (hsep.append _).stops

/-- Conditions behind the lines `ts`, when there are conditions. -/
theorem conditions (ts : List String) (h : NamesInLines ls ns) :
    NamesInLines (if ls.isEmpty then [] else ts ++ ["WHERE " ++ conjunction ls]) ns := by
  have hand : Halts " AND " := by decide
  have hjoin := (lines ts).append (line ((h.join hand).prepend "WHERE "))
  cases h with
  | nil => exact .nil
  | cons hl hls => exact hjoin

end NamesInLines

/-! The names of a statement -/

variable {π : Type}

def Expr.names : Expr π → List String
  | property _ p => if p = .duration then [] else [p.name]
  | param _ => []

def Predicate.names (p : Predicate π) : List String := p.left.names ++ p.right.names

def TypeNode.labelsOf (t? : Option TypeNode) : List String := (t?.map (·.labels)).getD []

def NodePattern.names (n : NodePattern π) : List String :=
  n.labels ++ TypeNode.labelsOf n.typeNode? ++ n.inline.flatMap Predicate.names

def Containment.names (c : Containment π) : List String :=
  c.labels ++ c.property.name :: c.typeLabels

def Constraint.names : Constraint π → List String
  | compare p => p.names
  | contains c => c.names

def ReturnExpr.names : ReturnExpr π → List String
  | value e => e.names
  | aggregate _ arg? => (arg?.map Expr.names).getD []

def ReturnItem.names (i : ReturnItem π) : List String := i.expr.names ++ [i.name]

def Tail.names : Tail π → List String
  | select items order => items.flatMap ReturnItem.names ++ order.map (·.name)
  | set link? assignments => TypeNode.labelsOf (link?.map (·.node)) ++ assignments.map (·.key)
  | delete _ => []

namespace Body

def matchNames (b : Body π) : List String :=
  b.nodes.flatMap NodePattern.names ++ b.constraints.flatMap Constraint.names
    ++ b.filters.flatMap Predicate.names

/-- Every label, property, alias and key, as they follow each other in the text. -/
def names (b : Body π) : List String :=
  b.matchNames ++ b.optional.flatMap (·.node.names) ++ b.tail.names

end Body

/-! The text of a statement -/

theorem namesIn_labelsText (ls : List String) : NamesIn (labelsText ls) ls := by
  induction ls with
  | nil => exact .text ""
  | cons l ls ih =>
    rw [labelsText, String.append_assoc]
    refine ((NamesIn.last l).append ih ?_).prepend ":"
    have := Identifier.stops_labels ls Identifier.stops_nil
    rwa [List.append_nil] at this

theorem Expr.namesIn_text (e : Expr String) : NamesIn e.text e.names := by
  cases e with
  | property var p =>
    rw [text, names]
    split
    · exact .text _
    · exact (NamesIn.last p.name).prepend (var ++ ".")
  | param n => exact .text _

theorem Predicate.namesIn_text (p : Predicate String) : NamesIn p.text p.names := by
  have hstop : Halts (" " ++ (p.op.symbol ++ " " ++ p.right.text)) := Halts.append (by decide) _
  have h := p.left.namesIn_text.append
    ((p.right.namesIn_text.prepend (p.op.symbol ++ " ")).prepend " ") hstop.stops
  simpa only [text, names, String.append_assoc] using h

theorem NamesInLines.predicates (ps : List (Predicate String)) :
    NamesInLines (whereLines (ps.map Predicate.text)) (ps.flatMap Predicate.names) :=
  .conditions [] (.map Predicate.namesIn_text ps)

theorem TypeNode.namesIn_linkText (t : TypeNode) : NamesIn t.linkText t.labels :=
  ((namesIn_labelsText t.labels).prepend ("-[:is_a]->(" ++ t.var)).postpend (t := ")") (by decide)

theorem TypeNode.halts_linkText (t : TypeNode) : Halts t.linkText := by
  rw [linkText]
  exact ((Halts.append (t := "-[:is_a]->(") (by decide) _).append _).append _

theorem NodePattern.namesIn_text (n : NodePattern String) : NamesIn n.text n.labels := by
  have h := (namesIn_labelsText n.labels).prepend ("(" ++ n.var)
  rw [text, String.append_assoc]
  refine h.postpend ?_
  cases n.identity? with
  | none => decide
  | some p =>
    simp only [String.append_assoc]
    exact Halts.append (by decide) _

theorem NodePattern.namesIn_lines (n : NodePattern String) : NamesInLines n.lines n.names := by
  refine .append (.line ?_) (.predicates n.inline)
  have hnode := n.namesIn_text.prepend "MATCH "
  cases n.typeNode? with
  | none => simpa [TypeNode.labelsOf] using hnode
  | some t => exact hnode.append t.namesIn_linkText t.halts_linkText.stops

theorem Edge.namesIn_text (e : Edge) {x : String} {ns : List String} (h : NamesIn x ns) :
    NamesIn (e.text x) ns := by
  have hparent : Halts ("(" ++ e.parent ++ ")") :=
    (Halts.append (t := "(") (by decide) _).append _
  unfold Edge.text
  dsimp only
  split
  · exact h.prepend _
  · exact (h.postpend (t := "-[:precedes]->") (by decide)).postpend hparent
  · exact h.prepend _
  · exact h.prepend _
  · exact h.prepend _

theorem Containment.namesIn_text (c : Containment String) : NamesIn c.text c.names := by
  have hlabels := namesIn_labelsText c.labels
  rw [names, List.append_cons]
  refine ((((hlabels.prepend _).append_name (by decide) c.property.name).follow (by decide)
    c.param).postpend (by decide)).append ?_ ?_
  · split
    · next h => rw [List.isEmpty_iff.1 h]; exact .text ""
    · exact ((namesIn_labelsText c.typeLabels).prepend "-[:is_a]->(").postpend (by decide)
  · split
    · exact Identifier.stops_nil
    · rw [String.append_assoc]
      exact (Halts.append (by decide) _).stops

theorem Constraint.namesIn_text (c : Constraint String) : NamesIn c.text c.names := by
  cases c with
  | compare p => exact p.namesIn_text
  | contains c => exact c.namesIn_text

theorem OptionalMatch.namesIn_lines (o : OptionalMatch String) :
    NamesInLines o.lines o.node.names := by
  refine .append (.line ?_) (.predicates o.node.inline)
  have hnode := (o.edge.namesIn_text o.node.namesIn_text).prepend "OPTIONAL MATCH "
  cases o.node.typeNode? with
  | none => simpa [TypeNode.labelsOf] using hnode
  | some t =>
    refine hnode.append (t.namesIn_linkText.prepend _) (Halts.append ?_ _).stops
    exact (Halts.append (t := ", (") (by decide) _).append _

theorem ReturnExpr.namesIn_text (e : ReturnExpr String) : NamesIn e.text e.names := by
  cases e with
  | value e => exact e.namesIn_text
  | aggregate function arg? =>
    cases arg? with
    | none => exact .text _
    | some e => exact (e.namesIn_text.prepend (function.cypherName ++ "(")).postpend (by decide)

theorem ReturnItem.namesIn_text (i : ReturnItem String) : NamesIn i.text i.names :=
  i.expr.namesIn_text.append_name (by decide) i.name

theorem OrderItem.namesIn_text (o : OrderItem) : NamesIn o.text [o.name] := by
  rw [text]
  split
  · exact (NamesIn.last o.name).postpend (by decide)
  · simpa using NamesIn.last o.name

theorem Assignment.namesIn_text (a : Assignment String) : NamesIn a.text [a.key] :=
  ((NamesIn.last a.key).prepend (a.var ++ ".")).follow (u := " = $") (by decide) a.param

theorem Tail.namesIn_lines (t : Tail String) : NamesInLines t.lines t.names := by
  have hcomma : Halts ", " := by decide
  cases t with
  | select items order =>
    refine .cons (((NamesInLines.map ReturnItem.namesIn_text items).join hcomma).prepend _) ?_
    have horder := NamesInLines.map OrderItem.namesIn_text order
    rw [← List.map_eq_flatMap] at horder
    split
    · next h => rw [List.isEmpty_iff.1 h]; exact .nil
    · exact .line ((horder.join hcomma).prepend _)
  | set link? assignments =>
    have hassignments := NamesInLines.map Assignment.namesIn_text assignments
    rw [← List.map_eq_flatMap] at hassignments
    refine .append ?_ (.line ((hassignments.join hcomma).prepend _))
    cases link? with
    | none => exact .nil
    | some l => exact .line (l.node.namesIn_linkText.prepend _)
  | delete var => exact .lines _

theorem Body.namesIn_matchLines (b : Body String) :
    NamesInLines b.matchLines b.matchNames := by
  have hedges : NamesInLines (b.edges.map Edge.line) [] := .lines _
  have h := ((NamesInLines.flatMap NodePattern.namesIn_lines b.nodes).append hedges).append
    (.conditions ["WITH *"] (.map Constraint.namesIn_text b.constraints)) |>.append
    (.conditions ["WITH *"] (.map Predicate.namesIn_text b.filters))
  rwa [List.append_nil] at h

theorem Body.namesIn_lines (b : Body String) : NamesInLines b.lines b.names :=
  (b.namesIn_matchLines.append (.flatMap OptionalMatch.namesIn_lines b.optional)).append
    b.tail.namesIn_lines

/-- Escaped names cannot break out. What is written of a name is read as the name, up to any text
that does not go on with it, so that different names are written differently; labels are read back one
by one; and in the text of every statement, and in its match section, each name stands before such a
text. -/
theorem escaped_names_cannot_break_out :
    (∀ (n : String) (t : List Char), EndsAt n t →
      Identifier.read ((escape n).toList ++ t) = some (n, t)) ∧
    Function.Injective escape ∧
    (∀ (ls : List String) (t : List Char), Stops t → t.head? ≠ some ':' →
      Identifier.readLabels ((labelsText ls).toList ++ t) = some (ls, t)) ∧
    ∀ s : Statement, NamesIn s.text s.body.names ∧ NamesIn s.matchSection s.body.matchNames :=
  ⟨fun _ _ => Identifier.read_escape, Identifier.escape_injective,
    fun ls _ => Identifier.readLabels_labelsText ls,
    fun s => ⟨s.body.namesIn_lines.join (by decide),
      s.body.namesIn_matchLines.join (by decide)⟩⟩

/-- A label that closes its quotes and the pattern, and deletes. -/
theorem deleting_label_is_only_a_label :
    EndsAt "\x60) DELETE (n:\x60" [')'] ∧
    Identifier.read ((escape "\x60) DELETE (n:\x60").toList ++ [')'])
      = some ("\x60) DELETE (n:\x60", [')']) ∧
    Identifier.readLabels ((labelsText ["phone", "\x60) DELETE (n:\x60", ""]).toList ++ [')'])
      = some (["phone", "\x60) DELETE (n:\x60", ""], [')']) := by
  have hstops : Stops [')'] := Identifier.stops_cons (by decide)
  exact ⟨hstops.endsAt _, escaped_names_cannot_break_out.1 _ _ (hstops.endsAt _),
    escaped_names_cannot_break_out.2.2.1 _ _ hstops (by decide)⟩

end TierQuery
