import TierQuery.AttributePath

/-! Dotted paths: an origin and hops between dots, each segment with subsets behind it, `:` before a
type subset and `+` before a token subset. An attribute path has a property as its last segment. -/

namespace TierQuery

inductive PathError
  | emptySegment (source : String)
  | missingProperty (source : String)
deriving DecidableEq

def PathError.message : PathError → String
  | emptySegment s => "empty segment in `" ++ s ++ "`"
  | missingProperty s => "`" ++ s ++ "` names no property"

namespace DottedPath

/-- The pieces between separators, one more than there are separators. -/
def splitAt (sep : Char → Bool) : List Char → List (List Char)
  | [] => [[]]
  | c :: cs =>
    if sep c then [] :: splitAt sep cs
    else
      match splitAt sep cs with
      | [] => [[c]]
      | piece :: pieces => (c :: piece) :: pieces

def isMark (c : Char) : Bool := c == ':' || c == '+'

/-- A subset behind its mark. -/
structure Qualifier where
  mark : Char
  name : List Char

/-- Every mark with the text up to the next one. -/
def qualifiers : List Char → List Qualifier
  | [] => []
  | c :: cs =>
    if isMark c then ⟨c, cs.takeWhile (!isMark ·)⟩ :: qualifiers cs else qualifiers cs

def segmentName (cs : List Char) : List Char := cs.takeWhile (!isMark ·)

/-- The first segment is the origin, any other a hop. -/
def step (a? : Option Tier) (name : String) : Tier :=
  match a? with
  | none => .ofLevel name
  | some a =>
    if name = "following" then a.hop .following
    else if name = "previous" then a.hop .previous
    else if name = "speaker" then a.hop .speaker
    else a.hop (.up name)

def qualify (a : Tier) (q : Qualifier) : Tier :=
  if q.mark = ':' then a.withTypeSubset (String.ofList q.name)
  else a.withTokenSubset (String.ofList q.name)

/-- A segment after those before it; none when a name in it is empty. -/
def segment? (a? : Option Tier) (cs : List Char) : Option Tier :=
  let name := segmentName cs
  let marks := qualifiers cs
  if name.isEmpty || marks.any (·.name.isEmpty) then none
  else some (marks.foldl qualify (step a? (String.ofList name)))

def tier? (a? : Option Tier) : List (List Char) → Option Tier
  | [] => a?
  | s :: ss => do tier? (some (← segment? a? s)) ss

/-- The text before and after the last dot. -/
def splitLast (cs : List Char) : Option (List Char × List Char) :=
  match splitAt (· == '.') cs with
  | [] => none
  | pieces =>
    if pieces.length < 2 then none
    else some (List.intercalate ['.'] pieces.dropLast, pieces.getLastD [])

end DottedPath

open DottedPath

def Tier.ofDotted (source : String) : Except PathError Tier :=
  match tier? none (splitAt (· == '.') source.toList) with
  | some a => .ok a
  | none => .error (.emptySegment source)

def AttributePath.ofDotted (source : String) : Except PathError AttributePath :=
  match splitLast source.toList with
  | none => .error (.missingProperty source)
  | some (before, property) =>
    if property.isEmpty then .error (.emptySegment source)
    else do
      let a ← Tier.ofDotted (String.ofList before)
      .ok (a.attribute ⟨String.ofList property⟩)

end TierQuery
