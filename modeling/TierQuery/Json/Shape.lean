import TierQuery.Json.Text
import TierQuery.Unprintable

/-! Reading values of a fixed shape. A structure is an object, or an array of its fields in their
order; members of an object are visited in ascending order of their names, and a missing member is
reported after all others were read. Inside a tagged object three rules are wider: a tag may be
written as its index, an empty object stands for a missing payload, and surplus elements of an array
are counted from the other end. -/

namespace TierQuery.Json

/-- What stands where something else was expected. -/
inductive Found
  | value (v : Value)
  | bareVariant

/-- Why a value does not have the expected shape. -/
inductive Mismatch
  | wrongType (found : Found) (expected : String)
  | wrongValue (found : Found) (expected : String)
  | wrongLength (length : Nat) (expected : String)
  | missingField (name : String)
  | duplicateField (name : String)
  | unknownField (name : String) (expected : List String)
  | unknownVariant (name : String) (expected : List String)
  | noShape (name : String)

/-- Names between back quotes; two are joined by "or", more are listed. -/
def alternatives (names : List String) : String :=
  match names.map fun n => "`" ++ n ++ "`" with
  | [a] => a
  | [a, b] => a ++ " or " ++ b
  | all => "one of " ++ joinWith ", " all

/-- The escapes of a string that is shown in a message. -/
def showChar (c : Char) : List Char :=
  if c = '"' then ['\\', '"']
  else if c = '\\' then ['\\', '\\']
  else if c = '\x00' then ['\\', '0']
  else if c = '\n' then ['\\', 'n']
  else if c = '\r' then ['\\', 'r']
  else if c = '\t' then ['\\', 't']
  else if isUnprintable c then ['\\', 'u', '\x7b'] ++ Nat.toDigits 16 c.toNat ++ ['\x7d']
  else [c]

def shown (s : String) : String :=
  String.ofList ('"' :: s.toList.flatMap showChar ++ ['"'])

def Found.text : Found → String
  | .value .null => "null"
  | .value (.bool b) => "boolean `" ++ (if b then "true" else "false") ++ "`"
  | .value (.number (.whole n)) => "integer `" ++ toString n ++ "`"
  | .value (.number (.float x)) => "floating point `" ++ x.text ++ "`"
  | .value (.text s) => "string " ++ shown s
  | .value (.array _) => "sequence"
  | .value (.object _) => "map"
  | .bareVariant => "unit variant"

def Mismatch.message : Mismatch → String
  | .wrongType f e => "invalid type: " ++ f.text ++ ", expected " ++ e
  | .wrongValue f e => "invalid value: " ++ f.text ++ ", expected " ++ e
  | .wrongLength n e => "invalid length " ++ toString n ++ ", expected " ++ e
  | .missingField f => "missing field `" ++ f ++ "`"
  | .duplicateField f => "duplicate field `" ++ f ++ "`"
  | .unknownField f fs => "unknown field `" ++ f ++ "`, expected " ++ alternatives fs
  | .unknownVariant v vs => "unknown variant `" ++ v ++ "`, expected " ++ alternatives vs
  | .noShape n => "data did not match any variant of untagged enum " ++ n

/-- Where a value stands: under its own name, or inside a tagged object. -/
inductive Place
  | direct
  | tagged
deriving DecidableEq

namespace Shape

abbrev Decoded (α : Type) := Except Mismatch α

def wrongType (v : Value) (expected : String) : Decoded α :=
  .error (.wrongType (.value v) expected)

def string : Value → Decoded String
  | .text s => .ok s
  | v => wrongType v "a string"

def boolean : Value → Decoded Bool
  | .bool b => .ok b
  | v => wrongType v "a boolean"

def anything (v : Value) : Decoded Value := .ok v

/-- A whole number of at least zero; `kind` names its width. -/
def natural (kind : String) : Value → Decoded Nat
  | .number (.whole (.ofNat n)) => .ok n
  | v@(.number (.whole _)) => .error (.wrongValue (.value v) kind)
  | v => wrongType v kind

def nullable (decode : Value → Decoded α) : Value → Decoded (Option α)
  | .null => .ok none
  | v => some <$> decode v

def sequence (decode : Value → Decoded α) : Value → Decoded (List α)
  | .array items => items.mapM decode
  | v => wrongType v "a sequence"

/-! Members of an object -/

/-- The member `name`, when there is one. -/
def member (ms : List (String × Value)) (name : String) (decode : Value → Decoded α) :
    Decoded (Option α) :=
  match Value.member? ms name with
  | none => .ok none
  | some v => some <$> decode v

def required (name : String) : Option α → Decoded α
  | some a => .ok a
  | none => .error (.missingField name)

/-! Elements of an array that stands for a structure -/

/-- The next element, which has to be there; `index` elements came before it. -/
def element (expected : String) (index : Nat) (decode : Value → Decoded α) :
    List Value → Decoded (α × List Value)
  | [] => .error (.wrongLength index expected)
  | v :: vs => do .ok (← decode v, vs)

/-- The next element, or the default after the last one. -/
def elementD (default : α) (decode : Value → Decoded α) : List Value → Decoded (α × List Value)
  | [] => .ok (default, [])
  | v :: vs => do .ok (← decode v, vs)

/-- No element may be left after the `used` first ones. -/
def exhausted (place : Place) (used : Nat) (rest : List Value) : Decoded Unit :=
  if rest.isEmpty then .ok ()
  else
    .error (.wrongLength (used + rest.length) (match place with
      | .direct => "fewer elements in array"
      | .tagged =>
        if used = 1 then "1 element in sequence" else toString used ++ " elements in sequence"))

/-! Variants -/

/-- The variant called `name`. -/
def named (variants : List (String × α)) (name : String) : Decoded α :=
  match variants.find? fun v => v.1 = name with
  | some v => .ok v.2
  | none => .error (.unknownVariant name (variants.map (·.1)))

/-- A variant with its payload: a bare name, or an object whose one member is the variant. -/
def variant (variants : List (String × α)) : Value → Decoded (α × Option Value)
  | .text s => do .ok (← named variants s, none)
  | .object [(name, payload)] => do .ok (← named variants name, some payload)
  | v@(.object _) => .error (.wrongValue (.value v) "map with a single key")
  | v => wrongType v "string or map"

def noPayload (place : Place) : Option Value → Decoded Unit
  | none => .ok ()
  | some .null => .ok ()
  | some v@(.object []) => if place = .tagged then .ok () else wrongType v "unit"
  | some v => wrongType v "unit"

def payload (decode : Value → Decoded α) : Option Value → Decoded α
  | some v => decode v
  | none => .error (.wrongType .bareVariant "newtype variant")

/-- One of a few names without payload. -/
def choice (place : Place) (variants : List (String × α)) (v : Value) : Decoded α := do
  let (a, p) ← variant variants v
  noPayload place p
  .ok a

/-- The tag itself. -/
def tag (place : Place) (variants : List (String × α)) : Value → Decoded α
  | .text s => named variants s
  | v@(.number (.whole (.ofNat n))) =>
    match place with
    | .direct => wrongType v "variant identifier"
    | .tagged =>
      match variants[n]? with
      | some a => .ok a.2
      | none =>
        .error (.wrongValue (.value v) ("variant index 0 <= i < " ++ toString variants.length))
  | v => wrongType v "variant identifier"

/-- A tagged object: its tag, and the value without it. In an array the tag stands first. -/
def taggedBy (place : Place) (key shape : String) (variants : List (String × α)) :
    Value → Decoded (α × Value)
  | .object ms => do
    let t ← required key (← member ms key (tag place variants))
    .ok (t, .object (ms.filter fun m => m.1 ≠ key))
  | .array (t :: rest) => do .ok (← tag place variants t, .array rest)
  | .array [] => .error (.missingField key)
  | v => wrongType v ("internally tagged enum " ++ shape)

end Shape

end TierQuery.Json
