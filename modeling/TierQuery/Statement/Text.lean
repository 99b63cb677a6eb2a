import TierQuery.Statement.Parameters

/-! The text of a statement, one clause on a line. Names from a query are written as escaped
identifiers, and literals never appear: their place is held by parameters. -/

namespace TierQuery

open Identifier (escape)

def Expr.text : Expr String → String
  | property var p =>
    if p = .duration then var ++ ".end - " ++ var ++ ".begin" else var ++ "." ++ escape p.name
  | param name => "$" ++ name

def Predicate.text (p : Predicate String) : String :=
  p.left.text ++ " " ++ p.op.symbol ++ " " ++ p.right.text

/-- Every label behind a colon. -/
def labelsText : List String → String
  | [] => ""
  | l :: ls => ":" ++ escape l ++ labelsText ls

def conjunction (conditions : List String) : String := joinWith " AND " conditions

def TypeNode.linkText (t : TypeNode) : String :=
  "-[:is_a]->(" ++ t.var ++ labelsText t.labels ++ ")"

def NodePattern.text (n : NodePattern String) : String :=
  "(" ++ n.var ++ labelsText n.labels
    ++ (match n.identity? with
      | some p => " \x7bid: $" ++ p ++ "\x7d"
      | none => "")
    ++ ")"

/-- The edge, with the given text for the node it ends at. -/
def Edge.text (e : Edge) (child : String) : String :=
  let parent := "(" ++ e.parent ++ ")"
  match e.relation with
  | .following => parent ++ "-[:precedes]->" ++ child
  | .previous => child ++ "-[:precedes]->" ++ parent
  | .containedBy 1 => parent ++ "-[:contained_by]->" ++ child
  | .containedBy n => parent ++ "-[:contained_by*" ++ toString n ++ "]->" ++ child
  | .spokenBy => parent ++ "-[:spoken_by]->" ++ child

def Containment.text (c : Containment String) : String :=
  "(" ++ c.container ++ ")<-[:contained_by" ++ (if 1 < c.depth then "*" ++ toString c.depth else "")
    ++ "]-(" ++ labelsText c.labels ++ " \x7b" ++ escape c.property.name ++ ": $" ++ c.param
    ++ "\x7d)"
    ++ (if c.typeLabels.isEmpty then "" else "-[:is_a]->(" ++ labelsText c.typeLabels ++ ")")

def Constraint.text : Constraint String → String
  | compare p => p.text
  | contains c => c.text

def ReturnExpr.text : ReturnExpr String → String
  | value e => e.text
  | aggregate function (some e) => function.cypherName ++ "(" ++ e.text ++ ")"
  | aggregate function none => function.cypherName ++ "(*)"

def ReturnItem.text (i : ReturnItem String) : String := i.expr.text ++ " AS " ++ escape i.name

def OrderItem.text (o : OrderItem) : String :=
  escape o.name ++ (if o.descending then " DESC" else "")

def Assignment.text (a : Assignment String) : String :=
  a.var ++ "." ++ escape a.key ++ " = $" ++ a.param

/-- A condition line, when there are conditions. -/
def whereLines (conditions : List String) : List String :=
  if conditions.isEmpty then [] else ["WHERE " ++ conjunction conditions]

/-- Conditions on what was matched before them. -/
def filterLines (conditions : List String) : List String :=
  if conditions.isEmpty then [] else ["WITH *", "WHERE " ++ conjunction conditions]

def NodePattern.lines (n : NodePattern String) : List String :=
  ("MATCH " ++ n.text
      ++ (match n.typeNode? with
        | some t => t.linkText
        | none => ""))
    :: whereLines (n.inline.map Predicate.text)

def Edge.line (e : Edge) : String := "MATCH " ++ e.text ("(" ++ e.child ++ ")")

def OptionalMatch.lines (o : OptionalMatch String) : List String :=
  ("OPTIONAL MATCH " ++ o.edge.text o.node.text
      ++ (match o.node.typeNode? with
        | some t => ", (" ++ o.node.var ++ ")" ++ t.linkText
        | none => ""))
    :: whereLines (o.node.inline.map Predicate.text)

def Tail.lines : Tail String → List String
  | select items order =>
    ("RETURN " ++ joinWith ", " (items.map ReturnItem.text))
      :: (if order.isEmpty then [] else ["ORDER BY " ++ joinWith ", " (order.map OrderItem.text)])
  | set link? assignments =>
    (match link? with
      | some l => ["MATCH (" ++ l.var ++ ")" ++ l.node.linkText]
      | none => [])
      ++ ["SET " ++ joinWith ", " (assignments.map Assignment.text)]
  | delete var => ["DETACH DELETE " ++ var]

namespace Body

/-- Nodes, edges, constraints and filters: what reads and writes of one query have in common. -/
def matchLines (b : Body String) : List String :=
  b.nodes.flatMap NodePattern.lines ++ b.edges.map Edge.line
    ++ filterLines (b.constraints.map Constraint.text)
    ++ filterLines (b.filters.map Predicate.text)

def lines (b : Body String) : List String :=
  b.matchLines ++ b.optional.flatMap OptionalMatch.lines ++ b.tail.lines

end Body

namespace Statement

def text (s : Statement) : String := joinWith "\n" s.body.lines

def matchSection (s : Statement) : String := joinWith "\n" s.body.matchLines

def columns (s : Statement) : List String := s.body.tail.columns

def mode (s : Statement) : AccessMode := s.body.tail.mode

def retrySafe (s : Statement) : Bool := s.body.tail.retrySafe

end Statement

end TierQuery
