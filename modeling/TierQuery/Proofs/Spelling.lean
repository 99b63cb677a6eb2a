import TierQuery.Proofs.Parameters
import TierQuery.Statement.Text

/-! The text of a statement with its parameters. Between the parameters the text does not depend on
their names, and they stand in it in the order in which the table lists them. -/

namespace TierQuery

open Identifier (escape)

/-! Texts with parameters in them -/

/-- Text in which the parameters `ns` stand in this order, and nothing else depends on their
names. -/
inductive Spells : ((String → String) → String) → List String → Prop
  | text (t : String) : Spells (fun _ => t) []
  | param (n : String) : Spells (fun f => f n) [n]
  | append {x y : (String → String) → String} {ns ms : List String} (hx : Spells x ns)
      (hy : Spells y ms) : Spells (fun f => x f ++ y f) (ns ++ ms)

namespace Spells

variable {x y : (String → String) → String} {ns : List String}

theorem prepend (t : String) (h : Spells x ns) : Spells (fun f => t ++ x f) ns :=
  .append (.text t) h

theorem postpend (h : Spells x ns) (t : String) : Spells (fun f => x f ++ t) ns := by
  have := Spells.append h (.text t)
  rwa [List.append_nil] at this

end Spells

/-- Lines that spell the parameters `ns` one after the other; how many lines there are does not
depend on the names. -/
def SpellsLines (ls : (String → String) → List String) (ns : List String) : Prop :=
  ∃ xs nss, List.Forall₂ Spells xs nss ∧ (∀ f, ls f = xs.map fun x => x f) ∧ nss.flatten = ns

namespace SpellsLines

variable {ls ks : (String → String) → List String} {ns ms : List String}

theorem lines (ts : List String) : SpellsLines (fun _ => ts) [] := by
  induction ts with
  | nil => exact ⟨[], [], .nil, fun _ => rfl, rfl⟩
  | cons t ts ih =>
    obtain ⟨xs, nss, hx, hl, hn⟩ := ih
    exact ⟨_ :: xs, [] :: nss, .cons (.text t) hx, fun f => by rw [List.map_cons, ← hl f], hn⟩

theorem line {x : (String → String) → String} (h : Spells x ns) : SpellsLines (fun f => [x f]) ns :=
  ⟨[x], [ns], .cons h .nil, fun _ => rfl, by simp⟩

theorem append (hl : SpellsLines ls ns) (hk : SpellsLines ks ms) :
    SpellsLines (fun f => ls f ++ ks f) (ns ++ ms) := by
  obtain ⟨xs, nss, hx, hl, rfl⟩ := hl
  obtain ⟨ys, mss, hy, hk, rfl⟩ := hk
  exact ⟨xs ++ ys, nss ++ mss, List.rel_append hx hy, fun f => by simp [hl f, hk f], by simp⟩

theorem flatMap {α : Type} {g : α → (String → String) → List String} {k : α → List String}
    (h : ∀ a, SpellsLines (g a) (k a)) (as : List α) :
    SpellsLines (fun f => as.flatMap fun a => g a f) (as.flatMap k) := by
  induction as with
  | nil => exact lines []
  | cons a as ih => exact (h a).append ih

theorem map {α : Type} {g : α → (String → String) → String} {k : α → List String}
    (h : ∀ a, Spells (g a) (k a)) (as : List α) :
    SpellsLines (fun f => as.map fun a => g a f) (as.flatMap k) := by
  simp only [List.map_eq_flatMap]
  exact flatMap (fun a => line (h a)) as

theorem join (sep : String) (h : SpellsLines ls ns) : Spells (fun f => joinWith sep (ls f)) ns := by
  obtain ⟨xs, nss, hx, hl, rfl⟩ := h
  simp only [hl]
  clear hl
  induction hx with
  | nil => exact .text ""
  | cons hx hxs ih =>
    cases hxs with
    | nil => simpa [joinWith] using hx
    | cons hy hys => exact (hx.postpend sep).append ih

/-- Conditions behind the lines `ts`, when there are conditions. -/
theorem conditions (ts : List String) (h : SpellsLines ls ns) :
    SpellsLines
      (fun f => if (ls f).isEmpty then [] else ts ++ ["WHERE " ++ conjunction (ls f)]) ns := by
  have hjoin := (lines ts).append (line ((h.join " AND ").prepend "WHERE "))
  obtain ⟨xs, nss, hx, hl, rfl⟩ := h
  cases hx with
  | nil => simpa [hl] using lines []
  | cons hx hxs => simpa [hl, conjunction] using hjoin

end SpellsLines

/-! The text of a statement -/

theorem Expr.spells (e : Expr String) :
    Spells (fun f => (e.replace (m := Id) f).text) e.params := by
  cases e with
  | property var p => exact .text _
  | param n => exact (Spells.param n).prepend "$"

theorem Predicate.spells (p : Predicate String) :
    Spells (fun f => (p.replace (m := Id) f).text) p.params :=
  (((p.left.spells.postpend " ").postpend p.op.symbol).postpend " ").append p.right.spells

theorem NodePattern.spells (n : NodePattern String) :
    Spells (fun f => (n.replace (m := Id) f).text) n.identity?.toList := by
  obtain ⟨level, var, labels, identity?, typeNode?, inline⟩ := n
  cases identity? with
  | none => exact .text ("(" ++ var ++ labelsText labels ++ "" ++ ")")
  | some p =>
    exact ((((Spells.param p).prepend " \x7bid: $").postpend "\x7d").prepend
      ("(" ++ var ++ labelsText labels)).postpend ")"

theorem SpellsLines.predicates (ps : List (Predicate String)) :
    SpellsLines (fun f => (ps.mapM (m := Id) (·.replace f)).map Predicate.text)
      (ps.flatMap Predicate.params) := by
  simp only [mapM_id, List.map_map]
  exact SpellsLines.map Predicate.spells ps

theorem NodePattern.spellsLines (n : NodePattern String) :
    SpellsLines (fun f => (n.replace (m := Id) f).lines) n.params := by
  refine SpellsLines.append (.line ?_) (SpellsLines.conditions [] (.predicates n.inline))
  have hnode := n.spells.prepend "MATCH "
  obtain ⟨level, var, labels, identity?, typeNode?, inline⟩ := n
  cases typeNode? with
  | none => exact hnode.postpend ""
  | some t => exact hnode.postpend t.linkText

theorem Containment.spells (c : Containment String) :
    Spells (fun f => (c.replace (m := Id) f).text) [c.param] :=
  (((Spells.param c.param).prepend
    ("(" ++ c.container ++ ")<-[:contained_by"
      ++ (if 1 < c.depth then "*" ++ toString c.depth else "") ++ "]-(" ++ labelsText c.labels
      ++ " \x7b" ++ escape c.property.name ++ ": $")).postpend "\x7d)").postpend
    (if c.typeLabels.isEmpty then "" else "-[:is_a]->(" ++ labelsText c.typeLabels ++ ")")

theorem Constraint.spells (c : Constraint String) :
    Spells (fun f => (c.replace (m := Id) f).text) c.params := by
  cases c with
  | compare p => exact p.spells
  | contains c => exact c.spells

theorem Edge.spells (e : Edge) {x : (String → String) → String} {ns : List String}
    (h : Spells x ns) : Spells (fun f => e.text (x f)) ns := by
  unfold Edge.text
  dsimp only
  split
  · exact h.prepend _
  · exact h.postpend _ |>.postpend _
  · exact h.prepend _
  · exact h.prepend _
  · exact h.prepend _

theorem OptionalMatch.spellsLines (o : OptionalMatch String) :
    SpellsLines (fun f => (o.replace (m := Id) f).lines) o.node.params := by
  refine SpellsLines.append (.line ?_) (SpellsLines.conditions [] (.predicates o.node.inline))
  have hnode := (o.edge.spells o.node.spells).prepend "OPTIONAL MATCH "
  obtain ⟨edge, ⟨level, var, labels, identity?, typeNode?, inline⟩⟩ := o
  cases typeNode? with
  | none => exact hnode.postpend ""
  | some t => exact hnode.postpend (", (" ++ var ++ ")" ++ t.linkText)

theorem ReturnExpr.spells (e : ReturnExpr String) :
    Spells (fun f => (e.replace (m := Id) f).text) e.params := by
  cases e with
  | value e => exact e.spells
  | aggregate function arg? =>
    cases arg? with
    | none => exact .text (function.cypherName ++ "(*)")
    | some e =>
      have := (e.spells.prepend (function.cypherName ++ "(")).postpend ")"
      rwa [← List.append_nil e.params] at this

theorem ReturnItem.spells (i : ReturnItem String) :
    Spells (fun f => (i.replace (m := Id) f).text) i.expr.params :=
  (i.expr.spells.postpend " AS ").postpend (escape i.name)

theorem Assignment.spells (a : Assignment String) :
    Spells (fun f => (a.replace (m := Id) f).text) [a.param] :=
  (Spells.param a.param).prepend (a.var ++ "." ++ escape a.key ++ " = $")

theorem Tail.spellsLines (t : Tail String) :
    SpellsLines (fun f => (t.replace (m := Id) f).lines) t.params := by
  cases t with
  | select items order =>
    have hitems : SpellsLines
        (fun f => (items.mapM (m := Id) (·.replace f)).map ReturnItem.text)
        (items.flatMap (·.expr.params)) := by
      simp only [mapM_id, List.map_map]
      exact SpellsLines.map ReturnItem.spells items
    have := (SpellsLines.line ((hitems.join ", ").prepend "RETURN ")).append (.lines
      (if order.isEmpty then [] else ["ORDER BY " ++ joinWith ", " (order.map OrderItem.text)]))
    rwa [List.append_nil] at this
  | set link? assignments =>
    have hassignments : SpellsLines
        (fun f => (assignments.mapM (m := Id) (·.replace f)).map Assignment.text)
        (assignments.map (·.param)) := by
      have hparams : assignments.map (·.param) = assignments.flatMap fun a => [a.param] :=
        List.map_eq_flatMap
      simp only [mapM_id, List.map_map, hparams]
      exact SpellsLines.map Assignment.spells assignments
    exact SpellsLines.append (.lines _) (.line ((hassignments.join ", ").prepend "SET "))
  | delete var => exact .lines ["DETACH DELETE " ++ var]

/-- The text of a statement spells the parameters of its nodes, constraints and filters, then those
of its optional nodes and of its tail. -/
theorem Body.spells (b : Body String) :
    Spells (fun f => joinWith "\n" (b.replace (m := Id) f).lines)
      (b.matchParams ++ b.laterParams) := by
  have hnodes := SpellsLines.flatMap NodePattern.spellsLines b.nodes
  have hedges := SpellsLines.lines (b.edges.map Edge.line)
  have hconstraints := SpellsLines.conditions ["WITH *"]
    (SpellsLines.map Constraint.spells b.constraints)
  have hfilters := SpellsLines.conditions ["WITH *"] (SpellsLines.map Predicate.spells b.filters)
  have hoptional := SpellsLines.flatMap OptionalMatch.spellsLines b.optional
  have hlines := ((((hnodes.append hedges).append hconstraints).append hfilters).append
    hoptional).append b.tail.spellsLines
  have hreplace (f : String → String) : b.replace (m := Id) f =
      (⟨b.nodes.map (·.replace (m := Id) f), b.edges, b.constraints.map (·.replace (m := Id) f),
        b.filters.map (·.replace (m := Id) f), b.optional.map (·.replace (m := Id) f),
        b.tail.replace (m := Id) f⟩ : Body String) := by
    simp only [replace, mapM_id]
    rfl
  simpa [hreplace, lines, matchLines, filterLines, List.flatMap_map, Function.comp_def, matchParams,
    laterParams] using hlines.join "\n"

/-! Parameters under their own names -/

theorem mapM_id_self {α : Type} {g : α → Id α} (h : ∀ a, g a = a) (as : List α) :
    as.mapM g = as := by
  rw [mapM_id, List.map_congr_left fun a _ => h a]
  exact List.map_id as

theorem Expr.replace_id (e : Expr String) : e.replace (m := Id) id = e := by
  cases e <;> rfl

theorem Predicate.replace_id (p : Predicate String) : p.replace (m := Id) id = p := by
  show (⟨p.left.replace (m := Id) id, p.op, p.right.replace (m := Id) id⟩ : Predicate String) = p
  rw [p.left.replace_id, p.right.replace_id]

theorem NodePattern.replace_id (n : NodePattern String) : n.replace (m := Id) id = n := by
  have hid : n.identity?.mapM (m := Id) id = n.identity? := by
    cases n.identity? <;> rfl
  show (⟨n.level, n.var, n.labels, n.identity?.mapM (m := Id) id, n.typeNode?,
    n.inline.mapM (m := Id) (·.replace id)⟩ : NodePattern String) = n
  rw [hid, mapM_id_self Predicate.replace_id]

theorem Constraint.replace_id (c : Constraint String) : c.replace (m := Id) id = c := by
  cases c with
  | compare p => exact congrArg compare p.replace_id
  | contains c => rfl

theorem OptionalMatch.replace_id (o : OptionalMatch String) : o.replace (m := Id) id = o := by
  show (⟨o.edge, o.node.replace (m := Id) id⟩ : OptionalMatch String) = o
  rw [o.node.replace_id]

theorem ReturnItem.replace_id (i : ReturnItem String) : i.replace (m := Id) id = i := by
  obtain ⟨e, name⟩ := i
  have he : e.replace (m := Id) id = e := by
    rcases e with e | ⟨function, _ | e⟩
    · exact congrArg ReturnExpr.value e.replace_id
    · rfl
    · exact congrArg (fun e => ReturnExpr.aggregate function (some e)) e.replace_id
  exact congrArg (fun e => (⟨e, name⟩ : ReturnItem String)) he

theorem Tail.replace_id (t : Tail String) : t.replace (m := Id) id = t := by
  cases t with
  | select items order => exact congrArg (select · order) (mapM_id_self ReturnItem.replace_id items)
  | set link? assignments => exact congrArg (set link?) (mapM_id_self (fun _ => rfl) assignments)
  | delete var => rfl

theorem Body.replace_id (b : Body String) : b.replace (m := Id) id = b := by
  show (⟨b.nodes.mapM (m := Id) (·.replace id), b.edges,
    b.constraints.mapM (m := Id) (·.replace id), b.filters.mapM (m := Id) (·.replace id),
    b.optional.mapM (m := Id) (·.replace id), b.tail.replace (m := Id) id⟩ : Body String) = b
  rw [mapM_id_self NodePattern.replace_id, mapM_id_self Constraint.replace_id,
    mapM_id_self Predicate.replace_id, mapM_id_self OptionalMatch.replace_id, b.tail.replace_id]

end TierQuery
