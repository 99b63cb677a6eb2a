import TierQuery.Bindings
import TierQuery.Statement

/-! Parameters of a statement. A literal is replaced by a name made of a hint and the number of
parameters before it, in the order of the text, and its value goes into the table under that name. -/

namespace TierQuery

open Json (Value)

/-- A value to become a parameter, and what its name starts with. -/
structure Literal where
  hint : String
  value : Value
deriving DecidableEq

/-- The state of a numbering: the parameters given so far. -/
abbrev Numbering := StateM Bindings

def parameterName (hint : String) (n : Nat) : String :=
  Identifier.snakeCase hint ++ "_" ++ toString n

/-- The table with one more parameter, after its name. -/
def Bindings.push (b : Bindings) (hint : String) (v : Value) : String × Bindings :=
  let name := parameterName hint b.size
  (name, b.bind name v)

def Literal.number (l : Literal) : Numbering String := fun b => b.push l.hint l.value

section Replace

variable {π ρ : Type} {m : Type → Type} [Monad m]

/-! Every parameter replaced, in the order of the text. -/

def Expr.replace (f : π → m ρ) : Expr π → m (Expr ρ)
  | property var p => pure (property var p)
  | param p => do return param (← f p)

def Predicate.replace (f : π → m ρ) (p : Predicate π) : m (Predicate ρ) := do
  let left ← p.left.replace f
  let right ← p.right.replace f
  return { left, op := p.op, right }

def NodePattern.replace (f : π → m ρ) (n : NodePattern π) : m (NodePattern ρ) := do
  let identity? ← n.identity?.mapM f
  let inline ← n.inline.mapM (·.replace f)
  return ⟨n.level, n.var, n.labels, identity?, n.typeNode?, inline⟩

def Containment.replace (f : π → m ρ) (c : Containment π) : m (Containment ρ) := do
  let param ← f c.param
  return ⟨c.container, c.depth, c.labels, c.typeLabels, c.property, param⟩

def Constraint.replace (f : π → m ρ) : Constraint π → m (Constraint ρ)
  | compare p => do return compare (← p.replace f)
  | contains c => do return contains (← c.replace f)

def OptionalMatch.replace (f : π → m ρ) (o : OptionalMatch π) : m (OptionalMatch ρ) := do
  return { edge := o.edge, node := ← o.node.replace f }

def ReturnExpr.replace (f : π → m ρ) : ReturnExpr π → m (ReturnExpr ρ)
  | value e => do return value (← e.replace f)
  | aggregate function arg? => do return aggregate function (← arg?.mapM (·.replace f))

def ReturnItem.replace (f : π → m ρ) (i : ReturnItem π) : m (ReturnItem ρ) := do
  return { expr := ← i.expr.replace f, name := i.name }

def Assignment.replace (f : π → m ρ) (a : Assignment π) : m (Assignment ρ) := do
  return { var := a.var, key := a.key, param := ← f a.param }

def Tail.replace (f : π → m ρ) : Tail π → m (Tail ρ)
  | select items order => do return select (← items.mapM (·.replace f)) order
  | set link? assignments => do return set link? (← assignments.mapM (·.replace f))
  | delete var => pure (delete var)

def Body.replace (f : π → m ρ) (b : Body π) : m (Body ρ) := do
  let nodes ← b.nodes.mapM (·.replace f)
  let constraints ← b.constraints.mapM (·.replace f)
  let filters ← b.filters.mapM (·.replace f)
  let optional ← b.optional.mapM (·.replace f)
  let tail ← b.tail.replace f
  return { nodes, edges := b.edges, constraints, filters, optional, tail }

end Replace

/-- A statement with its parameter table. -/
structure Statement where
  body : Body String
  params : Bindings
deriving DecidableEq

/-- The statement of a body that still holds its literals. -/
def Statement.ofBody (b : Body Literal) : Statement :=
  let (body, params) := (b.replace Literal.number).run .empty
  { body, params }

end TierQuery
