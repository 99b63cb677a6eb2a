import TierQuery.Json.Value

/-! JSON text as it was written: members in their order, repeated names included. A document may
break off, because the text ends or goes wrong, and then holds everything before that point. A
description can so be rejected for what it says before it is rejected for how it ends. -/

namespace TierQuery.Json

/-- Why a text is not JSON. -/
inductive Break
  | truncated
  | malformed
deriving DecidableEq

/-- Where a list of elements breaks off. -/
structure Cut where
  reason : Break
  /-- A separator stands before the break, so that one more element is due. -/
  separated : Bool
deriving DecidableEq

inductive Document
  | null
  | bool (b : Bool)
  | number (n : Number)
  | text (s : String)
  | array (items : List Document) (ending : Option Cut)
  | object (members : List (String × Document)) (ending : Option Cut)
  /-- An object that breaks off at once, because `key` stands where its first name should be. -/
  | nameless (key : Document)
  /-- The beginning of a number, or of the words `null`, `true` and `false`. -/
  | brokenWord (b : Break)
  /-- The beginning of a string, or nothing that begins a document. -/
  | broken (b : Break)

namespace Document

/-- What follows a list that ended well or broke off. -/
def closed (ending : Option Cut) (a : α) : Except Break α :=
  match ending with
  | none => .ok a
  | some cut => .error cut.reason

mutual

/-- The value of a whole document; of several members with one name the last counts. -/
def value? : Document → Except Break Value
  | .null => .ok .null
  | .bool b => .ok (.bool b)
  | .number n => .ok (.number n)
  | .text s => .ok (.text s)
  | .array items ending => do
    let vs ← items? items
    closed ending (.array vs)
  | .object members ending => do
    let ms ← members? members
    closed ending (.ofMembers ms)
  | .nameless _ => .error .malformed
  | .brokenWord b | .broken b => .error b

def items? : List Document → Except Break (List Value)
  | [] => .ok []
  | d :: ds => do
    let v ← value? d
    let vs ← items? ds
    .ok (v :: vs)

def members? : List (String × Document) → Except Break (List (String × Value))
  | [] => .ok []
  | (k, d) :: ds => do
    let v ← value? d
    let vs ← members? ds
    .ok ((k, v) :: vs)

end

end Document

end TierQuery.Json
