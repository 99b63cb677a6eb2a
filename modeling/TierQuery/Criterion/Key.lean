import TierQuery.Criterion
import TierQuery.Json.Text

/-! The key of a criterion: one line of text from which the criterion can be read back. Names are
quoted, so that no separator can stand inside one. A query keeps one criterion per key. -/

namespace TierQuery

open Json (quoted)

def Hop.key : Hop → String
  | .following => ">"
  | .previous => "<"
  | .up level => "^" ++ quoted level
  | .speaker => "@"

/-- Every name quoted behind its mark. -/
def marked (mark : String) (names : List String) : String :=
  names.foldl (fun s n => s ++ mark ++ quoted n) ""

def Tier.key (a : Tier) : String :=
  quoted a.origin ++ a.hops.foldl (fun s h => s ++ h.key) ""
    ++ marked "#" a.discourse.toList
    ++ marked ":" a.typeSubsets.names ++ marked "+" a.tokenSubsets.names

def AttributePath.key (p : AttributePath) : String :=
  p.tier.key ++ "." ++ quoted p.property.name
    ++ (match p.alias? with
      | some name => " as " ++ quoted name
      | none => "")

def Operand.key : Operand → String
  | .value v => v.compact
  | .path p => p.key

def Criterion.key : Criterion → String
  | .comparison p op operand => p.key ++ " " ++ op.symbol ++ " " ++ operand.key
  | .contains c p v => c.key ++ " contains " ++ p.key ++ " = " ++ v.compact
  | .alignment kind a b => a.key ++ " " ++ kind.name ++ " " ++ b.key

end TierQuery
