import TierQuery.Tier

/-! Attribute paths: a property of a tier, with the name of its output column when one was
given. -/

namespace TierQuery

/-- A property is its name. Six names have a meaning of their own, and there is no custom property
beside them that is called the same: one of the name `label` is the label. -/
structure Property where
  name : String
deriving DecidableEq

namespace Property

def id : Property := ⟨"id"⟩
def label : Property := ⟨"label"⟩
def begin : Property := ⟨"begin"⟩
def «end» : Property := ⟨"end"⟩
def duration : Property := ⟨"duration"⟩
def discourse : Property := ⟨"discourse"⟩

def isId (p : Property) : Bool := p = id

/-- Where a token stands: its ends, the time between them and its discourse. -/
def isAnchor (p : Property) : Bool :=
  p = begin ∨ p = «end» ∨ p = duration ∨ p = discourse

def isArbitrary (p : Property) : Bool := !p.isAnchor && !p.isId

end Property

structure AttributePath where
  tier : Tier
  property : Property
  alias? : Option String
deriving DecidableEq

namespace AttributePath

def withTier (p : AttributePath) (a : Tier) : AttributePath := { p with tier := a }

def withAlias (p : AttributePath) (name : String) : AttributePath := { p with alias? := some name }

/-- The alias, or the hops and the property joined by underscores. -/
def outputName (p : AttributePath) : String :=
  match p.alias? with
  | some name => name
  | none =>
    let segments := p.tier.segmentPath
    if segments = "" then p.property.name else segments ++ "_" ++ p.property.name

/-- The same property of the same tier, whatever the aliases. -/
def sameTarget (p q : AttributePath) : Bool :=
  p.tier = q.tier ∧ p.property = q.property

end AttributePath

def Tier.attribute (a : Tier) (p : Property) : AttributePath := ⟨a, p, none⟩

end TierQuery
