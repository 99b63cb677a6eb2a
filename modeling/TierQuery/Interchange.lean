import TierQuery.Aggregate
import TierQuery.Criterion
import TierQuery.Json.Shape

/-! The JSON forms of tiers, paths, criteria and aggregates. What is empty or absent is left
out when written, and members of an object are written in ascending order of their names. -/

namespace TierQuery

open Json (Value Place)
open Json.Shape

/-! Writing -/

def present (name : String) (v : Option Value) : List (String × Value) :=
  (v.map fun v => (name, v)).toList

def textList (names : List String) : Value := .array (names.map .text)

/-- The list, unless it is empty. -/
def unlessEmpty (items : List Value) : Option Value :=
  if items.isEmpty then none else some (.array items)

def Hop.toJson : Hop → Value
  | .up level => .object [("hop", .text "up"), ("level", .text level)]
  | .following => .object [("hop", .text "following")]
  | .previous => .object [("hop", .text "previous")]
  | .speaker => .object [("hop", .text "speaker")]

def Tier.toJson (a : Tier) : Value :=
  .object (present "discourse" (a.discourse.map .text)
    ++ present "hops" (unlessEmpty (a.hops.map Hop.toJson))
    ++ [("origin", .text a.origin)]
    ++ present "token_subsets" (unlessEmpty (a.tokenSubsets.names.map .text))
    ++ present "type_subsets" (unlessEmpty (a.typeSubsets.names.map .text)))

def Property.toJson (p : Property) : Value := .text p.name

def AttributePath.toJson (p : AttributePath) : Value :=
  .object (present "alias" (p.alias?.map .text)
    ++ [("annotation", p.tier.toJson), ("property", p.property.toJson)])

def CompareOp.toJson (op : CompareOp) : Value := .text op.name

def Alignment.toJson (k : Alignment) : Value := .text k.name

def Operand.toJson : Operand → Value
  | .value v => .object [("value", v)]
  | .path p => .object [("path", p.toJson)]

def Criterion.toJson : Criterion → Value
  | .comparison p op operand =>
    .object [("kind", .text "comparison"), ("op", op.toJson), ("operand", operand.toJson),
      ("path", p.toJson)]
  | .contains c p v =>
    .object [("container", c.toJson), ("kind", .text "contains"), ("path", p.toJson), ("value", v)]
  | .alignment k a b =>
    .object [("alignment", k.toJson), ("first", a.toJson), ("kind", .text "alignment"),
      ("second", b.toJson)]

def AggregateFunction.toJson (f : AggregateFunction) : Value := .text f.name

def Aggregate.toJson (a : Aggregate) : Value :=
  .object (present "alias" (a.alias?.map .text)
    ++ [("function", a.function.toJson)]
    ++ present "path" (a.path?.map AttributePath.toJson))

def Hierarchy.toJson (h : Hierarchy) : Value := textList h.levels

/-! Reading -/

inductive HopTag
  | following | previous | up | speaker
deriving DecidableEq

def HopTag.variants : List (String × HopTag) :=
  [("following", following), ("previous", previous), ("up", up), ("speaker", speaker)]

/-- Nothing may follow the tag in an array; members of an object are ignored. -/
def noFields (h : Hop) : Value → Decoded Hop
  | .array rest => do
    exhausted .tagged 0 rest
    .ok h
  | _ => .ok h

def upOfJson : Value → Decoded Hop
  | .object ms => do
    let level ← member ms "level" string
    .ok (.up (← required "level" level))
  | .array items => do
    let (level, items) ← element "struct variant Hop::Up with 1 element" 0 string items
    exhausted .tagged 1 items
    .ok (.up level)
  | v => wrongType v "struct variant Hop::Up"

def Hop.ofJson (place : Place) (v : Value) : Decoded Hop := do
  let (tag, rest) ← taggedBy place "hop" "Hop" HopTag.variants v
  match tag with
  | .following => noFields .following rest
  | .previous => noFields .previous rest
  | .speaker => noFields .speaker rest
  | .up => upOfJson rest

def nameSetOfJson (v : Value) : Decoded NameSet := do
  .ok (.ofList (← sequence string v))

def Tier.ofJson (place : Place) : Value → Decoded Tier
  | .object ms => do
    let discourse ← member ms "discourse" (nullable string)
    let hops ← member ms "hops" (sequence (Hop.ofJson place))
    let origin ← member ms "origin" string
    let tokens ← member ms "token_subsets" nameSetOfJson
    let types ← member ms "type_subsets" nameSetOfJson
    let origin ← required "origin" origin
    .ok ⟨origin, hops.getD [], discourse.join, types.getD .empty, tokens.getD .empty⟩
  | .array items => do
    let (origin, items) ← element "struct AnnotationType with 5 elements" 0 string items
    let (hops, items) ← elementD [] (sequence (Hop.ofJson place)) items
    let (discourse, items) ← elementD none (nullable string) items
    let (types, items) ← elementD .empty nameSetOfJson items
    let (tokens, items) ← elementD .empty nameSetOfJson items
    exhausted place 5 items
    .ok ⟨origin, hops, discourse, types, tokens⟩
  | v => wrongType v "struct AnnotationType"

def Property.ofJson (v : Value) : Decoded Property := do .ok ⟨← string v⟩

def AttributePath.ofJson (place : Place) : Value → Decoded AttributePath
  | .object ms => do
    let name ← member ms "alias" (nullable string)
    let tier ← member ms "annotation" (Tier.ofJson place)
    let property ← member ms "property" Property.ofJson
    let tier ← required "annotation" tier
    let property ← required "property" property
    .ok ⟨tier, property, name.join⟩
  | .array items => do
    let shape := "struct AttributePath with 3 elements"
    let (tier, items) ← element shape 0 (Tier.ofJson place) items
    let (property, items) ← element shape 1 Property.ofJson items
    let (name, items) ← elementD none (nullable string) items
    exhausted place 3 items
    .ok ⟨tier, property, name⟩
  | v => wrongType v "struct AttributePath"

/-- The names of a plain enumeration. -/
def variantsOf (name : α → String) (all : List α) : List (String × α) := all.map fun a => (name a, a)

def CompareOp.ofJson (place : Place) : Value → Decoded CompareOp :=
  choice place (variantsOf CompareOp.name CompareOp.all)

def Alignment.ofJson (place : Place) : Value → Decoded Alignment :=
  choice place (variantsOf Alignment.name Alignment.all)

def AggregateFunction.ofJson (place : Place) : Value → Decoded AggregateFunction :=
  choice place (variantsOf AggregateFunction.name AggregateFunction.all)

inductive OperandTag
  | value | path
deriving DecidableEq

def Operand.ofJson (place : Place) (v : Value) : Decoded Operand := do
  let (tag, content) ← variant [("value", OperandTag.value), ("path", OperandTag.path)] v
  match tag with
  | .value => .value <$> payload anything content
  | .path => .path <$> payload (AttributePath.ofJson place) content

inductive CriterionTag
  | comparison | contains | alignment
deriving DecidableEq

def CriterionTag.variants : List (String × CriterionTag) :=
  [("comparison", comparison), ("contains", contains), ("alignment", alignment)]

def comparisonOfJson : Value → Decoded Criterion
  | .object ms => do
    let op ← member ms "op" (CompareOp.ofJson .tagged)
    let operand ← member ms "operand" (Operand.ofJson .tagged)
    let path ← member ms "path" (AttributePath.ofJson .tagged)
    let path ← required "path" path
    let op ← required "op" op
    let operand ← required "operand" operand
    .ok (.comparison path op operand)
  | .array items => do
    let shape := "struct variant ClauseElement::Comparison with 3 elements"
    let (path, items) ← element shape 0 (AttributePath.ofJson .tagged) items
    let (op, items) ← element shape 1 (CompareOp.ofJson .tagged) items
    let (operand, items) ← element shape 2 (Operand.ofJson .tagged) items
    exhausted .tagged 3 items
    .ok (.comparison path op operand)
  | v => wrongType v "struct variant ClauseElement::Comparison"

def containsOfJson : Value → Decoded Criterion
  | .object ms => do
    let container ← member ms "container" (Tier.ofJson .tagged)
    let path ← member ms "path" (AttributePath.ofJson .tagged)
    let value ← member ms "value" anything
    let container ← required "container" container
    let path ← required "path" path
    let value ← required "value" value
    .ok (.contains container path value)
  | .array items => do
    let shape := "struct variant ClauseElement::Contains with 3 elements"
    let (container, items) ← element shape 0 (Tier.ofJson .tagged) items
    let (path, items) ← element shape 1 (AttributePath.ofJson .tagged) items
    let (value, items) ← element shape 2 anything items
    exhausted .tagged 3 items
    .ok (.contains container path value)
  | v => wrongType v "struct variant ClauseElement::Contains"

def alignmentOfJson : Value → Decoded Criterion
  | .object ms => do
    let kind ← member ms "alignment" (Alignment.ofJson .tagged)
    let first ← member ms "first" (Tier.ofJson .tagged)
    let second ← member ms "second" (Tier.ofJson .tagged)
    let kind ← required "alignment" kind
    let first ← required "first" first
    let second ← required "second" second
    .ok (.alignment kind first second)
  | .array items => do
    let shape := "struct variant ClauseElement::Alignment with 3 elements"
    let (kind, items) ← element shape 0 (Alignment.ofJson .tagged) items
    let (first, items) ← element shape 1 (Tier.ofJson .tagged) items
    let (second, items) ← element shape 2 (Tier.ofJson .tagged) items
    exhausted .tagged 3 items
    .ok (.alignment kind first second)
  | v => wrongType v "struct variant ClauseElement::Alignment"

def Criterion.ofJson (place : Place) (v : Value) : Decoded Criterion := do
  let (tag, rest) ← taggedBy place "kind" "ClauseElement" CriterionTag.variants v
  match tag with
  | .comparison => comparisonOfJson rest
  | .contains => containsOfJson rest
  | .alignment => alignmentOfJson rest

def Aggregate.ofJson (place : Place) : Value → Decoded Aggregate
  | .object ms => do
    let name ← member ms "alias" (nullable string)
    let function ← member ms "function" (AggregateFunction.ofJson place)
    let path ← member ms "path" (nullable (AttributePath.ofJson place))
    .ok ⟨← required "function" function, path.join, name.join⟩
  | .array items => do
    let (function, items) ← element "struct Aggregate with 3 elements" 0
      (AggregateFunction.ofJson place) items
    let (path, items) ← elementD none (nullable (AttributePath.ofJson place)) items
    let (name, items) ← elementD none (nullable string) items
    exhausted place 3 items
    .ok ⟨function, path, name⟩
  | v => wrongType v "struct Aggregate"

/-- The list as it is, repetitions included. -/
def Hierarchy.ofJson (v : Value) : Decoded Hierarchy := do .ok ⟨← sequence string v⟩

end TierQuery
