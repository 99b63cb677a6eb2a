import TierQuery.Json.Binary64

/-! JSON values. Whole numbers and floating-point numbers are different values. `ofMembers` puts the
members of an object in ascending order of their names, so that member order carries no meaning. -/

namespace TierQuery.Json

inductive Number
  | whole (n : Int)
  | float (x : Binary64)
deriving DecidableEq

inductive Value
  | null
  | bool (b : Bool)
  | number (n : Number)
  | text (s : String)
  | array (items : List Value)
  | object (members : List (String × Value))

namespace Value

instance : Inhabited Value := ⟨null⟩

mutual

def decEq : (v w : Value) → Decidable (v = w)
  | .null, .null => isTrue rfl
  | .bool a, .bool b =>
    if h : a = b then isTrue (by rw [h]) else isFalse (by simp [h])
  | .number a, .number b =>
    if h : a = b then isTrue (by rw [h]) else isFalse (by simp [h])
  | .text a, .text b =>
    if h : a = b then isTrue (by rw [h]) else isFalse (by simp [h])
  | .array a, .array b =>
    match decEqItems a b with
    | isTrue h => isTrue (by rw [h])
    | isFalse h => isFalse (by simp [h])
  | .object a, .object b =>
    match decEqMembers a b with
    | isTrue h => isTrue (by rw [h])
    | isFalse h => isFalse (by simp [h])
  | .null, .bool _ | .null, .number _ | .null, .text _ | .null, .array _ | .null, .object _
  | .bool _, .null | .bool _, .number _ | .bool _, .text _ | .bool _, .array _ | .bool _, .object _
  | .number _, .null | .number _, .bool _ | .number _, .text _ | .number _, .array _
  | .number _, .object _
  | .text _, .null | .text _, .bool _ | .text _, .number _ | .text _, .array _ | .text _, .object _
  | .array _, .null | .array _, .bool _ | .array _, .number _ | .array _, .text _
  | .array _, .object _
  | .object _, .null | .object _, .bool _ | .object _, .number _ | .object _, .text _
  | .object _, .array _ => isFalse nofun

def decEqItems : (xs ys : List Value) → Decidable (xs = ys)
  | [], [] => isTrue rfl
  | [], _ :: _ => isFalse nofun
  | _ :: _, [] => isFalse nofun
  | x :: xs, y :: ys =>
    match decEq x y, decEqItems xs ys with
    | isTrue h, isTrue hs => isTrue (by rw [h, hs])
    | isFalse h, _ => isFalse (by simp [h])
    | _, isFalse hs => isFalse (by simp [hs])

def decEqMembers : (xs ys : List (String × Value)) → Decidable (xs = ys)
  | [], [] => isTrue rfl
  | [], _ :: _ => isFalse nofun
  | _ :: _, [] => isFalse nofun
  | (k, x) :: xs, (l, y) :: ys =>
    if hk : k = l then
      match decEq x y, decEqMembers xs ys with
      | isTrue h, isTrue hs => isTrue (by rw [hk, h, hs])
      | isFalse h, _ => isFalse (by simp [h])
      | _, isFalse hs => isFalse (by simp [hs])
    else isFalse (by simp [hk])

end

instance : DecidableEq Value := decEq

/-- Put a member at its place in an ascending list; one of the same name is replaced. -/
def insertMember (name : String) (v : Value) : List (String × Value) → List (String × Value)
  | [] => [(name, v)]
  | (m, w) :: ms =>
    if name < m then (name, v) :: (m, w) :: ms
    else if name = m then (name, v) :: ms
    else (m, w) :: insertMember name v ms

/-- The object with these members; of several with one name the last counts. -/
def ofMembers (ms : List (String × Value)) : Value :=
  object (ms.foldl (fun acc m => insertMember m.1 m.2 acc) [])

def member? (ms : List (String × Value)) (name : String) : Option Value :=
  (ms.find? fun m => m.1 = name).map (·.2)

def text? : Value → Option String
  | text s => some s
  | _ => none

/-- The number counted, when the value is a whole number that is not negative. -/
def count? : Value → Option Nat
  | number (.whole (.ofNat n)) => some n
  | _ => none

def ofNat (n : Nat) : Value := number (.whole n)

end Value

/-- Equality of numbers as quantities: the two floating zeros are equal, `1` and `1.0` are not. -/
def Number.same : Number → Number → Bool
  | .whole a, .whole b => a == b
  | .float x, .float y => x == y || (x.rank == 0 && y.rank == 0)
  | _, _ => false

namespace Value

mutual

def same : Value → Value → Bool
  | .null, .null => true
  | .bool a, .bool b => a == b
  | .number a, .number b => a.same b
  | .text a, .text b => a == b
  | .array a, .array b => sameItems a b
  | .object a, .object b => sameMembers a b
  | _, _ => false

def sameItems : List Value → List Value → Bool
  | [], [] => true
  | x :: xs, y :: ys => same x y && sameItems xs ys
  | _, _ => false

def sameMembers : List (String × Value) → List (String × Value) → Bool
  | [], [] => true
  | (k, x) :: xs, (l, y) :: ys => k == l && same x y && sameMembers xs ys
  | _, _ => false

end

end Value

end TierQuery.Json
