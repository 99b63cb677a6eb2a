import TierQuery.Proofs.Parameters

/-! Two statements that differ in their literals at most. Numbering looks at the hint of a literal and
at how many there were before it, never at a value, so that alike bodies become the same text, over
tables that differ where the literals did. -/

namespace TierQuery

open Json (Value)

variable {α β γ δ ε π : Type}

/-! Two runs that may fail -/

/-- Both runs fail with the same error, or both results are in the relation. -/
inductive SameOutcome (S : α → β → Prop) : Except ε α → Except ε β → Prop
  | ok {a : α} {b : β} : S a b → SameOutcome S (.ok a) (.ok b)
  | error (e : ε) : SameOutcome S (.error e) (.error e)

namespace SameOutcome

theorem outcomes {S : α → β → Prop} {x : Except ε α} {y : Except ε β} (h : SameOutcome S x y) :
    (∃ e, x = .error e ∧ y = .error e) ∨ ∃ a b, x = .ok a ∧ y = .ok b ∧ S a b := by
  cases h with
  | error e => exact Or.inl ⟨e, rfl, rfl⟩
  | ok hab => exact Or.inr ⟨_, _, rfl, rfl, hab⟩

theorem bind {S : α → β → Prop} {T : γ → δ → Prop} {x : Except ε α} {y : Except ε β}
    {f : α → Except ε γ} {g : β → Except ε δ} (h : SameOutcome S x y)
    (hfg : ∀ a b, S a b → SameOutcome T (f a) (g b)) : SameOutcome T (x >>= f) (y >>= g) := by
  cases h with
  | error e => exact .error e
  | ok hab => exact hfg _ _ hab

/-- One first stage before two second ones. -/
theorem bind_left {T : γ → δ → Prop} (x : Except ε α) {f : α → Except ε γ} {g : α → Except ε δ}
    (hfg : ∀ a, SameOutcome T (f a) (g a)) : SameOutcome T (x >>= f) (x >>= g) := by
  cases x with
  | error e => exact .error e
  | ok a => exact hfg a

theorem mapM {S : α → β → Prop} {T : γ → δ → Prop} {f : α → Except ε γ} {g : β → Except ε δ}
    {xs : List α} {ys : List β} (h : List.Forall₂ S xs ys)
    (hfg : ∀ a b, S a b → SameOutcome T (f a) (g b)) :
    SameOutcome (List.Forall₂ T) (xs.mapM f) (ys.mapM g) := by
  induction h with
  | nil => exact .ok .nil
  | cons hxy _ ih =>
    rw [List.mapM_cons, List.mapM_cons]
    exact (hfg _ _ hxy).bind fun a b hab => ih.bind fun as bs habs => .ok (.cons hab habs)

theorem mapM_same {T : γ → δ → Prop} {f : α → Except ε γ} {g : α → Except ε δ}
    (hfg : ∀ a, SameOutcome T (f a) (g a)) (xs : List α) :
    SameOutcome (List.Forall₂ T) (xs.mapM f) (xs.mapM g) :=
  mapM (S := Eq) (List.forall₂_refl xs) fun a _ h => h ▸ hfg a

end SameOutcome

/-! Bodies -/

section Like

variable (R : π → π → Prop)

inductive Expr.Like : Expr π → Expr π → Prop
  | property (var : String) (p : Property) : Like (.property var p) (.property var p)
  | param {l m : π} : R l m → Like (.param l) (.param m)

structure Predicate.Like (x y : Predicate π) : Prop where
  left : x.left.Like R y.left
  op : x.op = y.op
  right : x.right.Like R y.right

structure NodePattern.Like (m n : NodePattern π) : Prop where
  level : m.level = n.level
  var : m.var = n.var
  labels : m.labels = n.labels
  identity : Option.Rel R m.identity? n.identity?
  typeNode : m.typeNode? = n.typeNode?
  inline : List.Forall₂ (Predicate.Like R) m.inline n.inline

inductive Constraint.Like : Constraint π → Constraint π → Prop
  | compare {x y : Predicate π} : x.Like R y → Like (.compare x) (.compare y)
  | contains {c : Containment π} {m : π} :
    R c.param m → Like (.contains c) (.contains { c with param := m })

structure OptionalMatch.Like (o u : OptionalMatch π) : Prop where
  edge : o.edge = u.edge
  node : o.node.Like R u.node

structure Assignment.Like (a b : Assignment π) : Prop where
  var : a.var = b.var
  key : a.key = b.key
  param : R a.param b.param

inductive ReturnExpr.Like : ReturnExpr π → ReturnExpr π → Prop
  | value {e e' : Expr π} : e.Like R e' → Like (.value e) (.value e')
  | aggregate (function : AggregateFunction) {e? e'? : Option (Expr π)} :
    Option.Rel (Expr.Like R) e? e'? → Like (.aggregate function e?) (.aggregate function e'?)

structure ReturnItem.Like (x y : ReturnItem π) : Prop where
  expr : x.expr.Like R y.expr
  name : x.name = y.name

inductive Tail.Like : Tail π → Tail π → Prop
  | select {items items' : List (ReturnItem π)} (order : List OrderItem) :
    List.Forall₂ (ReturnItem.Like R) items items' →
    Like (.select items order) (.select items' order)
  | set (link? : Option TypeLink) {as bs : List (Assignment π)} :
    List.Forall₂ (Assignment.Like R) as bs → Like (.set link? as) (.set link? bs)
  | delete (var : String) : Like (.delete var) (.delete var)

structure Body.Like (b c : Body π) : Prop where
  nodes : List.Forall₂ (NodePattern.Like R) b.nodes c.nodes
  edges : b.edges = c.edges
  constraints : List.Forall₂ (Constraint.Like R) b.constraints c.constraints
  filters : List.Forall₂ (Predicate.Like R) b.filters c.filters
  optional : List.Forall₂ (OptionalMatch.Like R) b.optional c.optional
  tail : b.tail.Like R c.tail

end Like

/-- Literals that become parameters of one name. -/
structure Literal.Like (R : Value → Value → Prop) (l m : Literal) : Prop where
  hint : l.hint = m.hint
  value : R l.value m.value

theorem Literal.like_map {R : Value → Value → Prop} {x y : Option Value} (h : Option.Rel R x y)
    (hint : String) : Option.Rel (Literal.Like R) (x.map (⟨hint, ·⟩)) (y.map (⟨hint, ·⟩)) := by
  cases h with
  | none => exact .none
  | some hvw => exact .some ⟨rfl, hvw⟩

/-! Tables -/

/-- The same names in the same order. -/
abbrev EntriesAlike (R : Value → Value → Prop) (es ds : List (String × Value)) : Prop :=
  List.Forall₂ (fun e d => e.1 = d.1 ∧ R e.2 d.2) es ds

namespace EntriesAlike

variable {R : Value → Value → Prop} {es ds : List (String × Value)}

theorem names_eq (h : EntriesAlike R es ds) : es.map Prod.fst = ds.map Prod.fst := by
  induction h with
  | nil => rfl
  | cons hed _ ih => rw [List.map_cons, List.map_cons, hed.1, ih]

/-- The value of a name is found in both, or in neither. -/
theorem member? (h : EntriesAlike R es ds) (name : String) :
    Option.Rel R (Value.member? es name) (Value.member? ds name) := by
  unfold Value.member?
  induction h with
  | nil => exact .none
  | cons hed _ ih =>
    rw [List.find?_cons, List.find?_cons, hed.1]
    split
    · exact .some hed.2
    · exact ih

theorem bindEntry (h : EntriesAlike R es ds) (name : String) {v w : Value} (hvw : R v w) :
    EntriesAlike R (bindEntry name v es) (bindEntry name w ds) := by
  induction h with
  | nil => exact .cons ⟨rfl, hvw⟩ .nil
  | @cons e d es ds hed hrest ih =>
    obtain ⟨n, x⟩ := e
    obtain ⟨m, y⟩ := d
    obtain ⟨rfl, hxy⟩ := hed
    unfold TierQuery.bindEntry
    split
    · exact .cons ⟨rfl, hvw⟩ hrest
    · exact .cons ⟨rfl, hxy⟩ ih

end EntriesAlike

def Bindings.Like (R : Value → Value → Prop) (b c : Bindings) : Prop :=
  EntriesAlike R b.entries c.entries

namespace Bindings

variable {R : Value → Value → Prop} {b c : Bindings}

theorem Like.names_eq (h : b.Like R c) : b.names = c.names := EntriesAlike.names_eq h

theorem Like.isEmpty_eq (h : b.Like R c) : b.isEmpty = c.isEmpty := by
  have hnames (b : Bindings) : b.isEmpty = b.names.isEmpty := by simp [isEmpty, names]
  rw [hnames, hnames, h.names_eq]

end Bindings

/-! Numbering -/

/-- Started from alike tables, both numberings give the same result and leave alike tables. -/
def NumbersAlike (R : Value → Value → Prop) (x y : Numbering α) : Prop :=
  ∀ b c : Bindings, b.Like R c → (x.run b).1 = (y.run c).1 ∧ (x.run b).2.Like R (y.run c).2

namespace NumbersAlike

variable {R : Value → Value → Prop}

theorem pure (a : α) : NumbersAlike R (Pure.pure a) (Pure.pure a) := fun _ _ h => ⟨rfl, h⟩

theorem bind {x y : Numbering α} {f g : α → Numbering β} (h : NumbersAlike R x y)
    (hfg : ∀ a, NumbersAlike R (f a) (g a)) : NumbersAlike R (x >>= f) (y >>= g) := by
  intro b c hbc
  obtain ⟨hr, ht⟩ := h b c hbc
  obtain ⟨a, b', hx⟩ : ∃ a b', x.run b = (a, b') := ⟨_, _, rfl⟩
  obtain ⟨a', c', hy⟩ : ∃ a' c', y.run c = (a', c') := ⟨_, _, rfl⟩
  rw [hx, hy] at hr ht
  obtain rfl : a = a' := hr
  rw [StateT.run_bind, StateT.run_bind, hx, hy]
  exact hfg a b' c' ht

theorem mapM {S : α → α → Prop} {f : α → Numbering β} {xs ys : List α}
    (h : List.Forall₂ S xs ys) (hf : ∀ a b, S a b → NumbersAlike R (f a) (f b)) :
    NumbersAlike R (xs.mapM f) (ys.mapM f) := by
  induction h with
  | nil => exact pure []
  | cons hxy _ ih =>
    rw [List.mapM_cons, List.mapM_cons]
    exact (hf _ _ hxy).bind fun a => ih.bind fun as => pure (a :: as)

theorem mapM_option {S : α → α → Prop} {f : α → Numbering β} {x y : Option α}
    (h : Option.Rel S x y) (hf : ∀ a b, S a b → NumbersAlike R (f a) (f b)) :
    NumbersAlike R (x.mapM f) (y.mapM f) := by
  cases h with
  | none => exact pure none
  | some hab => exact (hf _ _ hab).bind fun a => pure (some a)

end NumbersAlike

section Numbering

variable {R : Value → Value → Prop}

theorem Literal.Like.number {l m : Literal} (h : l.Like R m) :
    NumbersAlike R l.number m.number := by
  intro b c hbc
  have hsize : b.size = c.size := List.Forall₂.length_eq hbc
  have hname : parameterName l.hint b.size = parameterName m.hint c.size := by rw [h.hint, hsize]
  have hentries := EntriesAlike.bindEntry hbc (parameterName l.hint b.size) h.value
  refine ⟨hname, ?_⟩
  rw [hname] at hentries
  simpa only [Literal.number, StateT.run, Bindings.push, Bindings.bind, Bindings.Like, hname]
    using hentries

theorem Expr.Like.number {e e' : Expr Literal} (h : e.Like (Literal.Like R) e') :
    NumbersAlike R (e.replace Literal.number) (e'.replace Literal.number) := by
  cases h with
  | property var p => exact .pure _
  | param h => exact h.number.bind fun n => .pure _

theorem Predicate.Like.number {x y : Predicate Literal} (h : x.Like (Literal.Like R) y) :
    NumbersAlike R (x.replace Literal.number) (y.replace Literal.number) := by
  obtain ⟨hl, ho, hr⟩ := h
  unfold replace
  rw [ho]
  exact hl.number.bind fun l => hr.number.bind fun r => .pure _

theorem NodePattern.Like.number {m n : NodePattern Literal} (h : m.Like (Literal.Like R) n) :
    NumbersAlike R (m.replace Literal.number) (n.replace Literal.number) := by
  obtain ⟨hlevel, hvar, hlabels, hid, htype, hinline⟩ := h
  unfold replace
  rw [hlevel, hvar, hlabels, htype]
  exact (NumbersAlike.mapM_option hid fun _ _ h => h.number).bind fun i =>
    (NumbersAlike.mapM hinline fun _ _ h => h.number).bind fun ps => .pure _

theorem Constraint.Like.number {k k' : Constraint Literal} (h : k.Like (Literal.Like R) k') :
    NumbersAlike R (k.replace Literal.number) (k'.replace Literal.number) := by
  cases h with
  | compare h => exact h.number.bind fun p => .pure _
  | contains h => exact (h.number.bind fun n => .pure _).bind fun c => .pure _

theorem OptionalMatch.Like.number {o u : OptionalMatch Literal} (h : o.Like (Literal.Like R) u) :
    NumbersAlike R (o.replace Literal.number) (u.replace Literal.number) := by
  obtain ⟨he, hn⟩ := h
  unfold replace
  rw [he]
  exact hn.number.bind fun n => .pure _

theorem Assignment.Like.number {a b : Assignment Literal} (h : a.Like (Literal.Like R) b) :
    NumbersAlike R (a.replace Literal.number) (b.replace Literal.number) := by
  obtain ⟨hvar, hkey, hp⟩ := h
  unfold replace
  rw [hvar, hkey]
  exact hp.number.bind fun n => .pure _

theorem ReturnExpr.Like.number {e e' : ReturnExpr Literal} (h : e.Like (Literal.Like R) e') :
    NumbersAlike R (e.replace Literal.number) (e'.replace Literal.number) := by
  cases h with
  | value h => exact h.number.bind fun e => .pure _
  | aggregate function h =>
    exact (NumbersAlike.mapM_option h fun _ _ h => h.number).bind fun a => .pure _

theorem ReturnItem.Like.number {x y : ReturnItem Literal} (h : x.Like (Literal.Like R) y) :
    NumbersAlike R (x.replace Literal.number) (y.replace Literal.number) := by
  obtain ⟨hexpr, hname⟩ := h
  unfold replace
  rw [hname]
  exact hexpr.number.bind fun _ => .pure _

theorem Tail.Like.number {t t' : Tail Literal} (h : t.Like (Literal.Like R) t') :
    NumbersAlike R (t.replace Literal.number) (t'.replace Literal.number) := by
  cases h with
  | select order h => exact (NumbersAlike.mapM h fun _ _ h => h.number).bind fun is => .pure _
  | set link? h => exact (NumbersAlike.mapM h fun _ _ h => h.number).bind fun as => .pure _
  | delete var => exact .pure _

/-- Alike bodies become one body over alike tables. -/
theorem Statement.ofBody_alike {b c : Body Literal} (h : b.Like (Literal.Like R) c) :
    (ofBody b).body = (ofBody c).body ∧ (ofBody b).params.Like R (ofBody c).params := by
  have hall : NumbersAlike R (b.replace Literal.number) (c.replace Literal.number) := by
    unfold Body.replace
    rw [h.edges]
    exact (NumbersAlike.mapM h.nodes fun _ _ h => h.number).bind fun ns =>
      (NumbersAlike.mapM h.constraints fun _ _ h => h.number).bind fun ks =>
        (NumbersAlike.mapM h.filters fun _ _ h => h.number).bind fun fs =>
          (NumbersAlike.mapM h.optional fun _ _ h => h.number).bind fun os =>
            h.tail.number.bind fun t => .pure _
  exact hall .empty .empty .nil

end Numbering

end TierQuery
