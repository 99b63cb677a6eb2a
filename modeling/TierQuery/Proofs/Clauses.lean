import Mathlib.Logic.Basic
import Mathlib.Data.List.Basic
import TierQuery.Statement.Parameters

/-! The clauses of a statement in the order of its text, with the variables that they bind and
mention, and the rules under which they may follow each other. Parameters play no part in them. -/

namespace TierQuery

variable {π α β γ : Type}

/-- A clause by its variables. The conditions on a node are part of its clause. -/
inductive Clause
  | node (level : LevelId) (var : String) (typeVar? : Option String) (conditions : List String)
  | edge (parent child : String)
  | condition (vars : List String)
  | optional (parent child : String) (var : String) (typeVar? : Option String)
    (conditions : List String)
  | returned (vars : List String)
  | link (var typeVar : String)
  | assigned (var : String)
  | deleted (var : String)
deriving DecidableEq

namespace Clause

def binds : Clause → List String
  | node _ var typeVar? _ | optional _ _ var typeVar? _ => var :: typeVar?.toList
  | link _ typeVar => [typeVar]
  | edge _ _ | condition _ | returned _ | assigned _ | deleted _ => []

/-- The variables mentioned, those that the clause binds itself left out. -/
def mentions : Clause → List String
  | node _ _ _ conditions => conditions
  | edge parent child => [parent, child]
  | condition vars | returned vars => vars
  | optional parent child _ _ conditions => parent :: child :: conditions
  | link var _ | assigned var | deleted var => [var]

/-- What a clause may mention behind clauses that bind `bound`. Conditions on a node are about this
node alone, and an optional node hangs on one that is there. -/
inductive ScopedIn (bound : List String) : Clause → Prop
  | node {level : LevelId} {var : String} {typeVar? : Option String} {conditions : List String} :
    (∀ v ∈ conditions, v = var) → ScopedIn bound (.node level var typeVar? conditions)
  | edge {parent child : String} :
    parent ∈ bound → child ∈ bound → ScopedIn bound (.edge parent child)
  | condition {vars : List String} : (∀ v ∈ vars, v ∈ bound) → ScopedIn bound (.condition vars)
  | optional {parent var : String} {typeVar? : Option String} {conditions : List String} :
    parent ∈ bound → (∀ v ∈ conditions, v = var) →
    ScopedIn bound (.optional parent var var typeVar? conditions)
  | returned {vars : List String} : (∀ v ∈ vars, v ∈ bound) → ScopedIn bound (.returned vars)
  | link {var typeVar : String} : var ∈ bound → ScopedIn bound (.link var typeVar)
  | assigned {var : String} : var ∈ bound → ScopedIn bound (.assigned var)
  | deleted {var : String} : var ∈ bound → ScopedIn bound (.deleted var)

theorem ScopedIn.mono {bound bound' : List String} {c : Clause} (h : c.ScopedIn bound)
    (hb : bound ⊆ bound') : c.ScopedIn bound' := by
  cases h with
  | node ho => exact .node ho
  | edge hp hc => exact .edge (hb hp) (hb hc)
  | condition hv => exact .condition fun v h => hb (hv v h)
  | optional hp ho => exact .optional (hb hp) ho
  | returned hv => exact .returned fun v h => hb (hv v h)
  | link hv => exact .link (hb hv)
  | assigned hv => exact .assigned (hb hv)
  | deleted hv => exact .deleted (hb hv)

theorem ScopedIn.bound {bound : List String} {c : Clause} (h : c.ScopedIn bound) :
    ∀ v ∈ c.mentions, v ∈ bound ++ c.binds := by
  cases h with
  | node ho =>
    intro v hv
    simp [binds, ho v hv]
  | edge hp hc => simp [mentions, binds, hp, hc]
  | condition hv => simpa [mentions, binds] using hv
  | optional hp ho =>
    intro v hv
    rcases List.mem_cons.1 hv with rfl | hv
    · exact List.mem_append_left _ hp
    · rcases List.mem_cons.1 hv with rfl | hv
      · simp [binds]
      · simp [binds, ho v hv]
  | returned hv => simpa [mentions, binds] using hv
  | link hv => simp [mentions, binds, hv]
  | assigned hv => simp [mentions, binds, hv]
  | deleted hv => simp [mentions, binds, hv]

/-- Every clause is scoped in what stands before it. -/
def Scoped (bound : List String) : List Clause → Prop
  | [] => True
  | c :: cs => c.ScopedIn bound ∧ Scoped (bound ++ c.binds) cs

theorem scoped_append {bound : List String} {cs ds : List Clause} :
    Scoped bound (cs ++ ds) ↔ Scoped bound cs ∧ Scoped (bound ++ cs.flatMap binds) ds := by
  induction cs generalizing bound with
  | nil => simp [Scoped]
  | cons c cs ih => simp [Scoped, ih, and_assoc]

/-- Clauses that ask for nothing but what was there before them all. -/
theorem scoped_of_forall {bound : List String} {cs : List Clause}
    (h : ∀ c ∈ cs, c.ScopedIn bound) : Scoped bound cs := by
  induction cs generalizing bound with
  | nil => trivial
  | cons c cs ih =>
    refine ⟨h c List.mem_cons_self, ih fun d hd => ?_⟩
    exact (h d (List.mem_cons_of_mem _ hd)).mono (List.subset_append_left _ _)

/-- The clauses of a statement are well scoped: what a clause mentions is bound there or before, the
rules for its kind hold, no variable is bound twice, and what is assigned belongs to the searched-for
level, its type node being matched either with the pattern or behind it. -/
structure WellScoped (cs : List Clause) : Prop where
  bound : ∀ before c after, cs = before ++ c :: after →
    ∀ v ∈ c.mentions, v ∈ (before ++ [c]).flatMap binds
  ordered : Scoped [] cs
  once : (cs.flatMap binds).Nodup
  assigned : ∀ v, .assigned v ∈ cs → ∃ var typeVar? conditions,
    .node 0 var typeVar? conditions ∈ cs ∧
      (v = var ∨ Xor (typeVar? = some v) (.link var v ∈ cs))

theorem Scoped.bound {cs : List Clause} (h : Scoped [] cs) :
    ∀ before c after, cs = before ++ c :: after →
      ∀ v ∈ c.mentions, v ∈ (before ++ [c]).flatMap binds := by
  rintro before c after rfl v hv
  have hc := (scoped_append.1 h).2.1
  simpa using hc.bound v hv

end Clause

/-! The clauses of a body -/

def Expr.vars : Expr π → List String
  | property var _ => [var]
  | param _ => []

def Predicate.vars (p : Predicate π) : List String := p.left.vars ++ p.right.vars

def NodePattern.clause (n : NodePattern π) : Clause :=
  .node n.level n.var (n.typeNode?.map (·.var)) (n.inline.flatMap Predicate.vars)

def Edge.clause (e : Edge) : Clause := .edge e.parent e.child

def Constraint.clause : Constraint π → Clause
  | compare p => .condition p.vars
  | contains c => .condition [c.container]

def Predicate.clause (p : Predicate π) : Clause := .condition p.vars

def OptionalMatch.clause (o : OptionalMatch π) : Clause :=
  .optional o.edge.parent o.edge.child o.node.var (o.node.typeNode?.map (·.var))
    (o.node.inline.flatMap Predicate.vars)

def ReturnExpr.vars : ReturnExpr π → List String
  | value e => e.vars
  | aggregate _ arg? => arg?.toList.flatMap Expr.vars

def Tail.clauses : Tail π → List Clause
  | select items _ => items.map fun item => .returned item.expr.vars
  | set link? assignments =>
    (link?.map fun l => .link l.var l.node.var).toList ++ assignments.map fun a => .assigned a.var
  | delete var => [.deleted var]

def Body.clauses (b : Body π) : List Clause :=
  b.nodes.map NodePattern.clause ++ b.edges.map Edge.clause ++ b.constraints.map Constraint.clause
    ++ b.filters.map Predicate.clause ++ b.optional.map OptionalMatch.clause ++ b.tail.clauses

/-! Numbering leaves the clauses as they are -/

/-- Whatever the table, the result of the numbering has the property. -/
def Yields (x : Numbering α) (P : α → Prop) : Prop := ∀ t, P (x.run t).1

namespace Yields

theorem pure {a : α} {P : α → Prop} (h : P a) : Yields (Pure.pure a) P := fun _ => h

theorem bind {x : Numbering α} {g : α → Numbering β} {P : α → Prop} {Q : β → Prop}
    (hx : Yields x P) (hg : ∀ a, P a → Yields (g a) Q) : Yields (x >>= g) Q :=
  fun t => hg _ (hx t) _

theorem trivial (x : Numbering α) : Yields x fun _ => True := fun _ => True.intro

/-- What every step keeps, a traversal keeps. -/
theorem mapM {k : α → γ} {k' : β → γ} {g : α → Numbering β}
    (h : ∀ x, Yields (g x) fun y => k' y = k x) (xs : List α) :
    Yields (xs.mapM g) fun ys => ys.map k' = xs.map k := by
  induction xs with
  | nil =>
    rw [List.mapM_nil]
    exact pure rfl
  | cons x xs ih =>
    rw [List.mapM_cons]
    exact (h x).bind fun y hy => ih.bind fun ys hys => pure (by simp [hy, hys])

end Yields

theorem Expr.yields_vars (e : Expr Literal) :
    Yields (e.replace Literal.number) fun e' => e'.vars = e.vars := by
  cases e with
  | property var p => exact .pure rfl
  | param l => exact (Yields.trivial _).bind fun _ _ => .pure rfl

theorem Predicate.yields_vars (p : Predicate Literal) :
    Yields (p.replace Literal.number) fun p' => p'.vars = p.vars :=
  p.left.yields_vars.bind fun l hl => p.right.yields_vars.bind fun r hr =>
    .pure (by simp [vars, hl, hr])

theorem Predicate.yields_clause (p : Predicate Literal) :
    Yields (p.replace Literal.number) fun p' => p'.clause = p.clause :=
  fun t => congrArg Clause.condition (p.yields_vars t)

theorem NodePattern.yields_clause (n : NodePattern Literal) :
    Yields (n.replace Literal.number) fun n' => n'.clause = n.clause :=
  (Yields.trivial _).bind fun i _ => (Yields.mapM Predicate.yields_vars n.inline).bind fun ps hps =>
    .pure (by simp [clause, List.flatMap_def, hps])

theorem Constraint.yields_clause (c : Constraint Literal) :
    Yields (c.replace Literal.number) fun c' => c'.clause = c.clause := by
  cases c with
  | compare p => exact p.yields_vars.bind fun p' hp => .pure (by simp [clause, hp])
  | contains c =>
    have hc : Yields (c.replace Literal.number) fun c' => c'.container = c.container :=
      (Yields.trivial _).bind fun _ _ => .pure rfl
    exact hc.bind fun c' hc => .pure (by simp [clause, hc])

theorem OptionalMatch.yields_clause (o : OptionalMatch Literal) :
    Yields (o.replace Literal.number) fun o' => o'.clause = o.clause :=
  o.node.yields_clause.bind fun n hn => .pure (by
    simp only [NodePattern.clause, Clause.node.injEq] at hn
    simp [clause, hn])

theorem ReturnExpr.yields_vars (e : ReturnExpr Literal) :
    Yields (e.replace Literal.number) fun e' => e'.vars = e.vars := by
  cases e with
  | value e => exact e.yields_vars.bind fun e' he => .pure he
  | aggregate function arg? =>
    cases arg? with
    | none => exact .pure rfl
    | some e =>
      have hsome : Yields ((some e).mapM (·.replace Literal.number))
          fun a? => a?.toList.flatMap Expr.vars = e.vars :=
        e.yields_vars.bind fun e' he => .pure (by simp [he])
      exact hsome.bind fun a? ha => .pure (by simp [vars, ha])

theorem ReturnItem.yields_vars (x : ReturnItem Literal) :
    Yields (x.replace Literal.number) fun x' => x'.expr.vars = x.expr.vars :=
  x.expr.yields_vars.bind fun _ he => .pure he

theorem Assignment.yields_var (a : Assignment Literal) :
    Yields (a.replace Literal.number) fun a' => a'.var = a.var :=
  (Yields.trivial _).bind fun _ _ => .pure rfl

theorem Tail.yields_clauses (t : Tail Literal) :
    Yields (t.replace Literal.number) fun t' => t'.clauses = t.clauses := by
  cases t with
  | select items order =>
    refine (Yields.mapM ReturnItem.yields_vars items).bind fun is his => .pure ?_
    have := congrArg (List.map Clause.returned) his
    rwa [List.map_map, List.map_map] at this
  | set link? assignments =>
    refine (Yields.mapM Assignment.yields_var assignments).bind fun as has => .pure ?_
    have := congrArg (List.map Clause.assigned) has
    rw [List.map_map, List.map_map] at this
    exact congrArg _ this
  | delete var => exact .pure rfl

theorem Statement.clauses_ofBody (b : Body Literal) :
    (Statement.ofBody b).body.clauses = b.clauses := by
  have h : Yields (b.replace Literal.number) fun b' => b'.clauses = b.clauses := by
    refine (Yields.mapM NodePattern.yields_clause b.nodes).bind fun ns hns =>
      (Yields.mapM Constraint.yields_clause b.constraints).bind fun cs hcs =>
        (Yields.mapM Predicate.yields_clause b.filters).bind fun fs hfs =>
          (Yields.mapM OptionalMatch.yields_clause b.optional).bind fun os hos =>
            b.tail.yields_clauses.bind fun t ht => .pure ?_
    simp only [Body.clauses, hns, hcs, hfs, hos, ht]
  exact h .empty

end TierQuery
