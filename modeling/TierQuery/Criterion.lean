import TierQuery.AttributePath
import TierQuery.Json.Value

/-! Criteria: the conditions a query puts on its tokens. -/

namespace TierQuery

open Json (Value)

inductive CompareOp
  | eq | ne | lt | le | gt | ge | isIn
deriving DecidableEq

namespace CompareOp

def all : List CompareOp := [eq, ne, lt, le, gt, ge, isIn]

/-- The name in descriptions. -/
def name : CompareOp → String
  | eq => "eq"
  | ne => "ne"
  | lt => "lt"
  | le => "le"
  | gt => "gt"
  | ge => "ge"
  | isIn => "in"

def symbol : CompareOp → String
  | eq => "="
  | ne => "<>"
  | lt => "<"
  | le => "<="
  | gt => ">"
  | ge => ">="
  | isIn => "IN"

end CompareOp

/-- The right-hand side of a comparison. -/
inductive Operand
  | value (v : Value)
  | path (p : AttributePath)
deriving DecidableEq

/-- Which boundary two tokens share, or must not share. -/
inductive Alignment
  | left | right | notLeft | notRight
deriving DecidableEq

namespace Alignment

def all : List Alignment := [left, right, notLeft, notRight]

def name : Alignment → String
  | left => "left_aligned"
  | right => "right_aligned"
  | notLeft => "not_left_aligned"
  | notRight => "not_right_aligned"

/-- The boundary compared. -/
def anchor : Alignment → Property
  | left | notLeft => .begin
  | right | notRight => .end

def isNegated : Alignment → Bool
  | left | right => false
  | notLeft | notRight => true

end Alignment

inductive Criterion
  /-- `path op operand`. -/
  | comparison (path : AttributePath) (op : CompareOp) (operand : Operand)
  /-- A token below `container` has the value at the path. -/
  | contains (container : Tier) (path : AttributePath) (value : Value)
  /-- The two tokens share a boundary, or do not. -/
  | alignment (kind : Alignment) (first second : Tier)
deriving DecidableEq

namespace Criterion

/-- The tiers mentioned, each once, in order of first mention. -/
def tiers : Criterion → List Tier
  | comparison p _ (.path q) => distinct [p.tier, q.tier]
  | comparison p _ (.value _) => [p.tier]
  | contains c p _ => distinct [c, p.tier]
  | alignment _ a b => distinct [a, b]

/-- The tiers that need a node of their own in the pattern. A contained token is only tested
for existence. -/
def boundTiers : Criterion → List Tier
  | contains c _ _ => [c]
  | c => c.tiers

/-- The paths read. Their tiers and the tiers bound are all that are mentioned. -/
def paths : Criterion → List AttributePath
  | comparison p _ (.path q) => [p, q]
  | comparison p _ (.value _) => [p]
  | contains _ p _ => [p]
  | alignment _ _ _ => []

/-- The discourse that a criterion fixes its level to: an equality, or membership in a list of one. -/
def discourseLiteral? : Criterion → Option String
  | comparison p .eq (.value (.text s)) => if p.property = .discourse then some s else none
  | comparison p .isIn (.value (.array [v])) =>
    if p.property = .discourse then v.text? else none
  | _ => none

/-- Equality of criteria, which takes the two floating zeros for one. A query tells its criteria
apart by their keys, which are finer. -/
def same : Criterion → Criterion → Bool
  | comparison p op (.value v), comparison q op' (.value w) => p = q ∧ op = op' ∧ v.same w
  | contains c p v, contains d q w => c = d ∧ p = q ∧ v.same w
  | c, d => c = d

end Criterion

namespace AttributePath

def compare (p : AttributePath) (op : CompareOp) (v : Value) : Criterion :=
  .comparison p op (.value v)

def comparePath (p : AttributePath) (op : CompareOp) (q : AttributePath) : Criterion :=
  .comparison p op (.path q)

end AttributePath

end TierQuery
