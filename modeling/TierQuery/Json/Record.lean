import TierQuery.Json.Reader
import TierQuery.Json.Shape

/-! Reading a document of a fixed shape as it is written. Members are taken in their order, so the
first fault of the text is the one reported, be it a wrong value or the point where the text breaks
off. A record refuses members that it does not know and members that come twice; as an array it has
its fields in their order, and trailing fields may be left out. -/

namespace TierQuery.Json

inductive ReadError
  | text (b : Break)
  | shape (m : Mismatch)

def ReadError.message : ReadError → String
  | text .truncated => "the text ends too early"
  | text .malformed => "the text is not JSON"
  | shape m => m.message

namespace Record

abbrev Read (α : Type) := Except ReadError α

def ofBreak : Except Break α → Read α
  | .ok a => .ok a
  | .error b => .error (.text b)

def mismatch (m : Mismatch) : Read α := .error (.shape m)

/-- What a message shows of a document that is not as expected. -/
def found : Document → Value
  | .null => .null
  | .bool b => .bool b
  | .number n => .number n
  | .text s => .text s
  | .array _ _ => .array []
  | .object _ _ | .nameless _ => .object []
  | .brokenWord _ | .broken _ => .null

/-- The document is of another kind, unless it broke off before that could be seen. -/
def wrongType (d : Document) (expected : String) : Read α :=
  match d with
  | .brokenWord b | .broken b => .error (.text b)
  | d => mismatch (.wrongType (.value (found d)) expected)

def string : Document → Read String
  | .text s => .ok s
  | d => wrongType d "a string"

def boolean : Document → Read Bool
  | .bool b => .ok b
  | d => wrongType d "a boolean"

def nullable (read : Document → Read α) : Document → Read (Option α)
  | .null => .ok none
  | d => some <$> read d

def sequence (read : Document → Read α) : Document → Read (List α)
  | .array items ending => do
    let as ← items.mapM read
    ofBreak (Document.closed ending as)
  | d => wrongType d "a sequence"

/-- Nothing may follow the last element that is read, not even a separator. -/
def last (rest : List Document) (ending : Option Cut) (a : α) : Read α :=
  match ending with
  | some ⟨_, true⟩ => .error (.text .malformed)
  | _ => if rest.isEmpty then ofBreak (Document.closed ending a) else .error (.text .malformed)

/-- Any values under names, in their order. -/
def values : Document → Read (List (String × Value))
  | .object members ending => do
    let vs ← members.mapM fun m => do .ok (m.1, ← ofBreak m.2.value?)
    ofBreak (Document.closed ending vs)
  | .nameless _ => .error (.text .malformed)
  | d => wrongType d "a map"

/-- One of a few names: as a string, or as an object whose one member is the name with nothing in
it. Whatever begins in another way is no text for a name, even where it breaks off. -/
def choice (variants : List (String × α)) : Document → Read α
  | .text s => named s
  | .object ((name, payload) :: rest) ending => do
    let a ← named name
    match payload with
    | .null => last (rest.map (·.2)) ending a
    | d => wrongType d "unit"
  | .object [] (some cut) => .error (.text cut.reason)
  | .nameless key => wrongType key "variant identifier"
  | .broken b => .error (.text b)
  | _ => .error (.text .malformed)
where
  named (s : String) : Read α :=
    match Shape.named variants s with
    | .ok a => .ok a
    | .error m => mismatch m

/-- A field of a record that is read into `σ`. -/
structure RecordField (σ : Type) where
  name : String
  needed : Bool
  filled : σ → Bool
  fill : σ → Document → Read σ

def readMembers (fields : List (RecordField σ)) : σ → List (String × Document) → Read σ
  | s, [] => .ok s
  | s, (name, d) :: ms =>
    match fields.find? (·.name = name) with
    | none => mismatch (.unknownField name (fields.map (·.name)))
    | some f => if f.filled s then mismatch (.duplicateField name) else do
      readMembers fields (← f.fill s d) ms

/-- The first needed field that is not filled is missing. -/
def checkNeeded (fields : List (RecordField σ)) (s : σ) : Read Unit :=
  match fields.find? fun f => f.needed && !f.filled s with
  | some f => mismatch (.missingField f.name)
  | none => .ok ()

/-- Elements in the order of the fields; the fields after the last element have to be optional. -/
def readElements (shape : String) (total : Nat) (ending : Option Cut) :
    List (RecordField σ) → σ → List Document → Read σ
  | [], s, rest => last rest ending s
  | f :: fs, s, d :: ds => do readElements shape total ending fs (← f.fill s d) ds
  | f :: fs, s, [] =>
    match ending with
    | some cut => .error (.text cut.reason)
    | none =>
      if f.needed then
        mismatch (.wrongLength (total - (fs.length + 1))
          (shape ++ " with " ++ toString total ++ " elements"))
      else readElements shape total ending fs s []

def record (shape : String) (fields : List (RecordField σ)) (initial : σ) : Document → Read σ
  | .object members ending => do
    let s ← readMembers fields initial members
    let s ← ofBreak (Document.closed ending s)
    checkNeeded fields s
    .ok s
  | .nameless _ => .error (.text .malformed)
  | .array items ending => readElements shape fields.length ending fields initial items
  | d => wrongType d shape

end Record

end TierQuery.Json
