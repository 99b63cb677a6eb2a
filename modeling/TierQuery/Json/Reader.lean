import TierQuery.Json.Document

/-! Reading JSON text. The grammar is the strict one: no comments, no trailing commas, no leading
zeros, no unpaired surrogate escapes, and at most 127 arrays and objects inside each other. A number
without fraction and exponent is whole when it fits 64 bits, signed or unsigned. -/

namespace TierQuery.Json.Reader

def isBlank (c : Char) : Bool := c == ' ' || c == '\n' || c == '\t' || c == '\r'

def skipBlank (cs : List Char) : List Char := cs.dropWhile isBlank

/-- The rest of a literal whose first letter has been seen. -/
def literal (a : α) : List Char → List Char → Except Break (α × List Char)
  | [], cs => .ok (a, cs)
  | _ :: _, [] => .error .truncated
  | x :: xs, c :: cs => if x = c then literal a xs cs else .error .malformed

/-! Numbers -/

def largestWord : Nat := twoTo 64 - 1

/-- Digits added to `acc` as long as the sum fits 64 bits, and the digits left over. -/
def accumulate (acc : Nat) : List Char → Nat × List Char
  | [] => (acc, [])
  | c :: cs =>
    let next := acc * 10 + (c.toNat - 48)
    if next ≤ largestWord then accumulate next cs else (acc, c :: cs)

def floatOf (negative : Bool) (digits : Nat) (exponent : Int) : Except Break Number :=
  match Binary64.ofDecimal? digits exponent with
  | some x => .ok (.float (if negative then x.negate else x))
  | none => .error .malformed

/-- A number from its parts. Digits past 64 bits count only for the scale. -/
def numberOf (negative : Bool) (integer fraction : List Char) (exponent : Option Int) :
    Except Break Number :=
  let (head, dropped) := accumulate 0 integer
  let (digits, ignored) := accumulate head fraction
  let scale : Int := dropped.length - (fraction.length - ignored.length : Nat)
  if fraction.isEmpty ∧ exponent.isNone ∧ dropped.isEmpty then
    if !negative then .ok (.whole head)
    else if 0 < head ∧ head ≤ twoTo 63 then .ok (.whole (-head))
    else floatOf true head 0
  else floatOf negative digits (scale + exponent.getD 0)

def digitsValue (cs : List Char) : Nat := cs.foldl (fun n c => n * 10 + (c.toNat - 48)) 0

/-- The digits at the front, at least one. -/
def digits1 (cs : List Char) : Except Break (List Char × List Char) :=
  match cs with
  | [] => .error .truncated
  | c :: _ =>
    if c.isDigit then .ok (cs.takeWhile Char.isDigit, cs.dropWhile Char.isDigit)
    else .error .malformed

/-- No digit may follow a leading zero. -/
def integerPart (cs : List Char) : Except Break (List Char × List Char) := do
  let (ds, rest) ← digits1 cs
  if ds.head? = some '0' ∧ 1 < ds.length then .error .malformed else .ok (ds, rest)

def fractionPart : List Char → Except Break (List Char × List Char)
  | '.' :: cs => digits1 cs
  | cs => .ok ([], cs)

def exponentPart : List Char → Except Break (Option Int × List Char)
  | c :: cs =>
    if c = 'e' ∨ c = 'E' then do
      let (sign, body) : Int × List Char := match cs with
        | '+' :: r => (1, r)
        | '-' :: r => (-1, r)
        | r => (1, r)
      let (ds, rest) ← digits1 body
      .ok (some (sign * digitsValue ds), rest)
    else .ok (none, c :: cs)
  | [] => .ok (none, [])

def number (cs : List Char) : Except Break (Number × List Char) := do
  let (negative, body) := match cs with
    | '-' :: r => (true, r)
    | r => (false, r)
  let (integer, rest) ← integerPart body
  let (fraction, rest) ← fractionPart rest
  let (exponent, rest) ← exponentPart rest
  let n ← numberOf negative integer fraction exponent
  .ok (n, rest)

/-! Strings -/

def hexValue? (c : Char) : Option Nat :=
  if '0' ≤ c ∧ c ≤ '9' then some (c.toNat - 48)
  else if 'a' ≤ c ∧ c ≤ 'f' then some (c.toNat - 87)
  else if 'A' ≤ c ∧ c ≤ 'F' then some (c.toNat - 55)
  else none

/-- Four hexadecimal digits. The text counts as ended when fewer than four bytes of it are left. -/
def hex4 (cs : List Char) : Except Break (Nat × List Char) :=
  if (String.ofList (cs.take 4)).utf8ByteSize < 4 then .error .truncated
  else
    match cs with
    | a :: b :: c :: d :: rest =>
      match hexValue? a, hexValue? b, hexValue? c, hexValue? d with
      | some a, some b, some c, some d => .ok (((a * 16 + b) * 16 + c) * 16 + d, rest)
      | _, _, _, _ => .error .malformed
    | _ => .error .malformed

/-- The character of a `\u` escape, two escapes for a surrogate pair. -/
def unicodeEscape (cs : List Char) : Except Break (Char × List Char) := do
  let (hi, rest) ← hex4 cs
  if 0xDC00 ≤ hi ∧ hi ≤ 0xDFFF then .error .malformed
  else if 0xD800 ≤ hi ∧ hi ≤ 0xDBFF then
    match rest with
    | [] => .error .truncated
    | '\\' :: [] => .error .truncated
    | '\\' :: 'u' :: rest => do
      let (lo, rest) ← hex4 rest
      if 0xDC00 ≤ lo ∧ lo ≤ 0xDFFF then
        .ok (Char.ofNat (0x10000 + (hi - 0xD800) * 0x400 + (lo - 0xDC00)), rest)
      else .error .malformed
    | _ => .error .malformed
  else .ok (Char.ofNat hi, rest)

def simpleEscape? : Char → Option Char
  | '"' => some '"'
  | '\\' => some '\\'
  | '/' => some '/'
  | 'b' => some '\x08'
  | 'f' => some '\x0c'
  | 'n' => some '\n'
  | 'r' => some '\r'
  | 't' => some '\t'
  | _ => none

/-- The rest of a string after its opening quote. -/
def stringBody : Nat → List Char → Except Break (List Char × List Char)
  | 0, _ => .error .truncated
  | _, [] => .error .truncated
  | fuel + 1, c :: cs =>
    if c = '"' then .ok ([], cs)
    else if c = '\\' then
      match cs with
      | [] => .error .truncated
      | e :: rest => do
        let (x, rest) ← if e = 'u' then unicodeEscape rest else
          match simpleEscape? e with
          | some x => .ok (x, rest)
          | none => .error .malformed
        let (xs, rest) ← stringBody fuel rest
        .ok (x :: xs, rest)
    else if c.toNat < 32 then .error .malformed
    else do
      let (xs, rest) ← stringBody fuel cs
      .ok (c :: xs, rest)

def string (cs : List Char) : Except Break (String × List Char) := do
  let (xs, rest) ← stringBody (cs.length + 1) cs
  .ok (String.ofList xs, rest)

/-! Documents -/

/-- A document, and the text after it unless it broke off. -/
abbrev Reading := Document × Option (List Char)

def Reading.ofStep (f : α → Document) (broken : Break → Document) :
    Except Break (α × List Char) → Reading
  | .ok (a, rest) => (f a, some rest)
  | .error b => (broken b, none)

def word (s : List Char) (d : Document) (cs : List Char) : Reading :=
  .ofStep id .brokenWord (literal d s cs)

/-- What stands between two elements of a list, or after the last. -/
inductive Turn
  | item (rest : List Char)
  | close (rest : List Char)
  | stop (cut : Cut)

/-- The next element of a list closed by `closer`; the separator goes before all but the first. -/
def turn (closer : Char) (first : Bool) (cs : List Char) : Turn :=
  match skipBlank cs with
  | [] => .stop ⟨.truncated, false⟩
  | c :: rest =>
    if c = closer then .close rest
    else if first then .item (c :: rest)
    else if c = ',' then
      match skipBlank rest with
      | [] => .stop ⟨.truncated, true⟩
      | d :: rest => if d = closer then .stop ⟨.malformed, true⟩ else .item (d :: rest)
    else .stop ⟨.malformed, false⟩

/-- A member's name and the colon, in two steps, because the name stands even where the colon is
missing. -/
def memberName : List Char → Except Break (String × List Char)
  | '"' :: cs => string cs
  | _ => .error .malformed

def colon (cs : List Char) : Except Break (Unit × List Char) :=
  match skipBlank cs with
  | [] => .error .truncated
  | ':' :: rest => .ok ((), rest)
  | _ => .error .malformed

/-- What follows an opening brace is neither a name nor the closing brace. -/
def startsNameless (cs : List Char) : Bool :=
  match skipBlank cs with
  | [] => false
  | c :: _ => c != '"' && c != '\x7d'

/-- One more than the arrays and objects that may stand inside each other. -/
def depthLimit : Nat := 128

mutual

/-- The document at the front. `depth` counts the brackets that may still open, and one more; `fuel`
is used up once for a document and once for an element, and each of the two takes a character. -/
def document (fuel depth : Nat) (cs : List Char) : Reading :=
  match fuel with
  | 0 => (.broken .malformed, none)
  | fuel + 1 =>
    match skipBlank cs with
    | [] => (.broken .truncated, none)
    | c :: rest =>
      if c = 'n' then word ['u', 'l', 'l'] .null rest
      else if c = 't' then word ['r', 'u', 'e'] (.bool true) rest
      else if c = 'f' then word ['a', 'l', 's', 'e'] (.bool false) rest
      else if c = '"' then .ofStep .text .broken (string rest)
      else if c = '-' ∨ c.isDigit then .ofStep .number .brokenWord (number (c :: rest))
      else if c = '[' then
        if depth ≤ 1 then (.array [] (some ⟨.malformed, false⟩), none)
        else
          let (items, ending) := itemsFrom fuel (depth - 1) true rest
          match ending with
          | .ok rest => (.array items none, some rest)
          | .error cut => (.array items (some cut), none)
      else if c = '\x7b' then
        if depth ≤ 1 then (.object [] (some ⟨.malformed, false⟩), none)
        else if startsNameless rest then (.nameless (document fuel (depth - 1) rest).1, none)
        else
          let (members, ending) := membersFrom fuel (depth - 1) true rest
          match ending with
          | .ok rest => (.object members none, some rest)
          | .error cut => (.object members (some cut), none)
      else (.broken .malformed, none)

def itemsFrom (fuel depth : Nat) (first : Bool) (cs : List Char) :
    List Document × Except Cut (List Char) :=
  match fuel with
  | 0 => ([], .error ⟨.malformed, false⟩)
  | fuel + 1 =>
    match turn ']' first cs with
    | .close rest => ([], .ok rest)
    | .stop cut => ([], .error cut)
    | .item rest =>
      match document fuel depth rest with
      | (d, none) => ([d], .error ⟨.malformed, false⟩)
      | (d, some rest) =>
        let (ds, ending) := itemsFrom fuel depth false rest
        (d :: ds, ending)

def membersFrom (fuel depth : Nat) (first : Bool) (cs : List Char) :
    List (String × Document) × Except Cut (List Char) :=
  match fuel with
  | 0 => ([], .error ⟨.malformed, false⟩)
  | fuel + 1 =>
    match turn '\x7d' first cs with
    | .close rest => ([], .ok rest)
    | .stop cut => ([], .error cut)
    | .item rest =>
      match memberName rest with
      | .error b => ([], .error ⟨b, !first⟩)
      | .ok (name, rest) =>
        match colon rest with
        | .error b => ([(name, .broken b)], .error ⟨b, false⟩)
        | .ok ((), rest) =>
          match document fuel depth rest with
          | (d, none) => ([(name, d)], .error ⟨.malformed, false⟩)
          | (d, some rest) =>
            let (ms, ending) := membersFrom fuel depth false rest
            ((name, d) :: ms, ending)

end

end Reader

/-- The document of a text, and what is wrong with the text after it, if anything is. -/
def Document.read (s : String) : Document × Option Break :=
  let cs := s.toList
  match Reader.document (2 * cs.length + 2) Reader.depthLimit cs with
  | (d, none) => (d, none)
  | (d, some rest) => (d, if (Reader.skipBlank rest).isEmpty then none else some .malformed)

end TierQuery.Json
