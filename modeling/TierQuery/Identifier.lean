/-! Names inside statement text. A plain identifier may stand as it is, any other name is written
between back quotes, and `snakeCase` turns arbitrary text into a plain fragment for variables and
parameters. All three look at ASCII letters and digits only. -/

namespace TierQuery.Identifier

def isHead (c : Char) : Bool := c.isAlpha || c == '_'

def isTail (c : Char) : Bool := c.isAlphanum || c == '_'

def isPlain (s : String) : Bool :=
  match s.toList with
  | [] => false
  | c :: cs => isHead c && cs.all isTail

def quote : Char := '\x60'

/-- Every back quote written twice. -/
def doubled : List Char → List Char
  | [] => []
  | c :: cs => if c = quote then quote :: quote :: doubled cs else c :: doubled cs

def escape (s : String) : String :=
  if isPlain s then s else String.ofList (quote :: doubled s.toList ++ [quote])

/-- Letters and digits in lower case. A run of other characters between two of them becomes one
underscore: `started` says that something was written, `gap` that an underscore is due. -/
def fragment (started gap : Bool) : List Char → List Char
  | [] => []
  | c :: cs =>
    if c.isAlphanum then
      if gap then '_' :: c.toLower :: fragment true false cs
      else c.toLower :: fragment true false cs
    else fragment started started cs

/-- An underscore in front of a fragment that is empty or starts with a digit. -/
def guardHead : List Char → List Char
  | [] => ['_']
  | c :: cs => if c.isDigit then '_' :: c :: cs else c :: cs

def snakeCase (s : String) : String :=
  String.ofList (guardHead (fragment false false s.toList))

end TierQuery.Identifier
