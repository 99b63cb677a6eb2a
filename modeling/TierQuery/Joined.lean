/-! Pieces of text in a row with a separator between neighbours. -/

namespace TierQuery

def joinWith (sep : String) : List String → String
  | [] => ""
  | [s] => s
  | s :: t :: r => s ++ sep ++ joinWith sep (t :: r)

end TierQuery
