import TierQuery.Criterion
import TierQuery.Failure

/-! The discourse scope. A query is about one discourse at most. The searched-for type may name it,
and so may criteria that mention the searched-for level directly, by a label or by a literal; all of
them have to agree. The scope is then written on every tier that has no label of its own. -/

namespace TierQuery.Discourse

/-- A direct mention of the searched-for level. -/
def onRoot (root a : Tier) : Bool := a.origin = root.origin ∧ a.hops = []

/-- The literal that fixes the discourse of the searched-for level. -/
def rootLiteral? (root : Tier) : Criterion → Option String
  | c@(.comparison p _ _) => if onRoot root p.tier then c.discourseLiteral? else none
  | _ => none

/-- The discourses a criterion names for the searched-for level. -/
def labels (root : Tier) (c : Criterion) : List String :=
  (c.tiers.filter (onRoot root)).filterMap (·.discourse) ++ (rootLiteral? root c).toList

def agree (scope : Option String) (label : String) : Except CompileError (Option String) :=
  match scope with
  | none => .ok (some label)
  | some d => if d = label then .ok scope else .error (.conflictingDiscourse d label)

/-- The common discourse of the searched-for type and the criteria. -/
def collect (root : Tier) (criteria : List Criterion) :
    Except CompileError (Option String) :=
  (criteria.flatMap (labels root)).foldlM agree root.discourse

/-- The tier under the scope. -/
def apply (scope : Option String) (a : Tier) : Except CompileError Tier :=
  match a.discourse, scope with
  | none, some d => .ok (a.withDiscourse (some d))
  | some own, some d => if own = d then .ok a else .error (.conflictingDiscourse d own)
  | _, none => .ok a

end TierQuery.Discourse
