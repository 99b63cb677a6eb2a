import TierQuery.Joined
import TierQuery.Json.Shortest
import TierQuery.Json.Value

/-! JSON text. The compact form has no space at all, the indented form two spaces a level. A string
escapes the quote, the backslash and the characters below U+0020. A float has the fewest digits that
read back, is positional from 1e-5 up to 1e16, and always shows a point or an exponent. -/

namespace TierQuery.Json

def hexDigit (n : Nat) : Char :=
  if n < 10 then Char.ofNat (48 + n) else Char.ofNat (87 + n)

def escapeChar (c : Char) : List Char :=
  if c = '"' then ['\\', '"']
  else if c = '\\' then ['\\', '\\']
  else if c = '\x08' then ['\\', 'b']
  else if c = '\x0c' then ['\\', 'f']
  else if c = '\n' then ['\\', 'n']
  else if c = '\r' then ['\\', 'r']
  else if c = '\t' then ['\\', 't']
  else if c.toNat < 32 then ['\\', 'u', '0', '0', hexDigit (c.toNat / 16), hexDigit (c.toNat % 16)]
  else [c]

def quoted (s : String) : String :=
  String.ofList ('"' :: s.toList.flatMap escapeChar ++ ['"'])

def zeros (n : Nat) : String := String.ofList (List.replicate n '0')

/-- A decimal from 1e-5 up to 1e16 with its point, any other with an exponent after the first
digit. -/
def Decimal.text (d : Decimal) : String :=
  let ds := toString d.digits
  let n := ds.length
  let point := d.exponent + n
  if d.digits = 0 then "0.0"
  else if -4 ≤ point ∧ point ≤ 0 then "0." ++ zeros (-point).toNat ++ ds
  else if 0 < point ∧ point < n then
    String.ofList (ds.toList.take point.toNat) ++ "." ++ String.ofList (ds.toList.drop point.toNat)
  else if 0 < point ∧ point ≤ 16 then ds ++ zeros (point.toNat - n) ++ ".0"
  else
    let fraction := ds.toList.drop 1
    String.ofList (ds.toList.take 1)
      ++ (if fraction.isEmpty then "" else "." ++ String.ofList fraction)
      ++ (if point - 1 < 0 then "e-" else "e+") ++ toString (point - 1).natAbs

def Binary64.text (x : Binary64) : String :=
  (if x.negative then "-" else "") ++ x.shortest.text

def Number.text : Number → String
  | .whole n => toString n
  | .float x => x.text

namespace Value

mutual

def compact : Value → String
  | .null => "null"
  | .bool b => if b then "true" else "false"
  | .number n => n.text
  | .text s => quoted s
  | .array items => "[" ++ joinWith "," (compactItems items) ++ "]"
  | .object members => "\x7b" ++ joinWith "," (compactMembers members) ++ "\x7d"

def compactItems : List Value → List String
  | [] => []
  | v :: vs => compact v :: compactItems vs

def compactMembers : List (String × Value) → List String
  | [] => []
  | (k, v) :: ms => (quoted k ++ ":" ++ compact v) :: compactMembers ms

end

def indent (depth : Nat) : String := "\n" ++ String.ofList (List.replicate (2 * depth) ' ')

/-- Pieces on lines of their own, one level deeper than the brackets around them. -/
def block (opening closing : String) (depth : Nat) (pieces : List String) : String :=
  if pieces.isEmpty then opening ++ closing
  else opening ++ joinWith "," (pieces.map (indent (depth + 1) ++ ·)) ++ indent depth ++ closing

mutual

def indented (depth : Nat) : Value → String
  | .null => "null"
  | .bool b => if b then "true" else "false"
  | .number n => n.text
  | .text s => quoted s
  | .array items => block "[" "]" depth (indentedItems (depth + 1) items)
  | .object members => block "\x7b" "\x7d" depth (indentedMembers (depth + 1) members)

def indentedItems (depth : Nat) : List Value → List String
  | [] => []
  | v :: vs => indented depth v :: indentedItems depth vs

def indentedMembers (depth : Nat) : List (String × Value) → List String
  | [] => []
  | (k, v) :: ms => (quoted k ++ ": " ++ indented depth v) :: indentedMembers depth ms

end

end Value

end TierQuery.Json
