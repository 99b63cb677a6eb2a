import TierQuery.Statement.Parameters

/-! Annotation graphs, and the match section of a statement read as a condition on an assignment of
nodes to its variables: every line has to hold. -/

namespace TierQuery

open Json (Value)

/-- A property graph of tokens, speakers and types. -/
structure Graph (V : Type) where
  Node : Type
  hasLabel : Node → String → Prop
  property : Node → String → V
  precedes : Node → Node → Prop
  containedBy : Node → Node → Prop
  spokenBy : Node → Node → Prop
  isA : Node → Node → Prop

/-- What operators mean on the values of a graph. Membership in a list of one is equality. -/
structure Interpretation (V : Type) where
  literal : Value → V
  holds : CompareOp → V → V → Prop
  minus : V → V → V
  isIn_singleton : ∀ x v, holds .isIn x (literal (.array [v])) ↔ holds .eq x (literal v)

variable {V : Type}

namespace Graph

variable (G : Graph V) (I : Interpretation V)

/-- A property of a node. `duration` is its end minus its begin. -/
def read (n : G.Node) (p : Property) : V :=
  if p = .duration then I.minus (G.property n "end") (G.property n "begin") else G.property n p.name

/-- Exactly `n` steps of containment. -/
def ContainedIn : Nat → G.Node → G.Node → Prop
  | 0, x, y => x = y
  | n + 1, x, y => ∃ z, G.containedBy x z ∧ ContainedIn n z y

def HasLabels (n : G.Node) (labels : List String) : Prop := ∀ l ∈ labels, G.hasLabel n l

/-- The node is of a type that carries the labels. -/
def HasType (n : G.Node) (labels : List String) : Prop := ∃ t, G.isA n t ∧ G.HasLabels t labels

end Graph

/-! The lines of a match section. An assignment gives no node to what is not one of its variables, and
then nothing holds of it. -/

section Lines

variable (G : Graph V) (I : Interpretation V) (σ : String → Option G.Node)

def Expr.value? : Expr Value → Option V
  | property var p => (σ var).map (G.read I · p)
  | param v => some (I.literal v)

def Predicate.Holds (x : Predicate Value) : Prop :=
  ∃ a b, x.left.value? G I σ = some a ∧ x.right.value? G I σ = some b ∧ I.holds x.op a b

structure NodePattern.Holds (x : NodePattern Value) (n : G.Node) : Prop where
  var : σ x.var = some n
  labels : G.HasLabels n x.labels
  identity : ∀ v, x.identity? = some v → I.holds .eq (G.property n "id") (I.literal v)
  typeNode : ∀ t, x.typeNode? = some t → G.HasType n t.labels
  inline : ∀ y ∈ x.inline, y.Holds G I σ

def Relation.Holds (r : Relation) (x y : G.Node) : Prop :=
  match r with
  | following => G.precedes x y
  | previous => G.precedes y x
  | containedBy steps => G.ContainedIn steps x y
  | spokenBy => G.spokenBy x y

def Edge.Holds (e : Edge) : Prop :=
  ∃ x y, σ e.parent = some x ∧ σ e.child = some y ∧ e.relation.Holds G x y

def Containment.Holds (c : Containment Value) : Prop :=
  ∃ x y, σ c.container = some x ∧ G.ContainedIn c.depth y x ∧ G.HasLabels y c.labels ∧
    (c.typeLabels ≠ [] → G.HasType y c.typeLabels) ∧
    I.holds .eq (G.property y c.property.name) (I.literal c.param)

def Constraint.Holds : Constraint Value → Prop
  | compare x => x.Holds G I σ
  | contains c => c.Holds G I σ

/-- The nodes, edges, constraints and filters all hold. -/
structure Body.Matches (b : Body Value) : Prop where
  nodes : ∀ x ∈ b.nodes, ∃ n, x.Holds G I σ n
  edges : ∀ e ∈ b.edges, e.Holds G σ
  constraints : ∀ k ∈ b.constraints, k.Holds G I σ
  filters : ∀ x ∈ b.filters, x.Holds G I σ

end Lines

/-- The variables of the token nodes in the pattern. -/
def Body.tokenVars (b : Body Value) : List String := b.nodes.map (·.var)

/-- The nodes that variables are assigned to. -/
def assigned {N : Type} {vars : List String} (σ : {v // v ∈ vars} → N) (v : String) : Option N :=
  if h : v ∈ vars then some (σ ⟨v, h⟩) else none

end TierQuery
