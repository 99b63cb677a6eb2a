import TierQuery.Json.Binary64

/-! The decimal digits of a floating-point number: of all decimals that lie closer to it than to its
neighbours, those with the fewest digits, and of these the nearest, a tie going to the even last digit.
Both ends of the interval belong to a number whose rank is even. -/

namespace TierQuery.Json

/-- The value `digits * 10 ^ exponent`. -/
structure Decimal where
  digits : Nat
  exponent : Int
deriving DecidableEq

namespace Decimal

/-- `numer` and `denom` with `d * 10 ^ exponent = numer / denom`. -/
def ratio (d : Decimal) : Nat × Nat :=
  match d.exponent with
  | .ofNat e => (d.digits * tenTo e, 1)
  | .negSucc e => (d.digits, tenTo (e + 1))

/-- Divide out factors of ten, at most `fuel` of them. -/
def trimmed : Nat → Decimal → Decimal
  | 0, d => d
  | fuel + 1, d =>
    if d.digits ≠ 0 ∧ d.digits % 10 = 0 then trimmed fuel ⟨d.digits / 10, d.exponent + 1⟩ else d

end Decimal

/-- The numbers that round to one magnitude, as quarters of a unit of 2^-1074. -/
structure RoundingInterval where
  low : Nat
  middle : Nat
  high : Nat
  closed : Bool

namespace RoundingInterval

def ofRank (rank : Nat) : RoundingInterval :=
  let spacing := twoTo (Binary64.binade rank)
  let middle := 4 * Binary64.significand rank * spacing
  let below := if rank % twoTo 52 = 0 ∧ twoTo 52 < rank then spacing else 2 * spacing
  ⟨middle - below, middle, middle + 2 * spacing, rank % 2 = 0⟩

def quartersPerOne : Nat := twoTo 1076

def contains (i : RoundingInterval) (d : Decimal) : Bool :=
  let (numer, denom) := d.ratio
  let x := numer * quartersPerOne
  if i.closed then i.low * denom ≤ x && x ≤ i.high * denom
  else i.low * denom < x && x < i.high * denom

/-- The middle lies nearer to `d` than to `e`, the next decimal above; half-way between them the one
with the even last digit is taken. -/
def prefersLower (i : RoundingInterval) (d e : Decimal) : Bool :=
  let (a, b) := d.ratio
  let (a', b') := e.ratio
  let lower := a * b' * quartersPerOne
  let upper := a' * b * quartersPerOne
  let doubled := 2 * i.middle * b * b'
  doubled < lower + upper || (doubled = lower + upper && d.digits % 2 = 0)

/-- The least `p` with the middle below `10 ^ p`, counted from -323. -/
def magnitude (i : RoundingInterval) : Int :=
  let below (n : Nat) : Bool :=
    let (numer, denom) := (Decimal.mk 1 (Int.ofNat n - 323)).ratio
    i.middle * denom < numer * quartersPerOne
  Int.ofNat (((List.range 640).find? below).getD 0) - 323

/-- The better of the middle's two neighbours among the decimals with `n` digits. -/
def onGrid? (i : RoundingInterval) (p : Int) (n : Nat) : Option Decimal :=
  let exponent := p - n
  let (numer, denom) := (Decimal.mk 1 exponent).ratio
  let lower : Decimal := ⟨i.middle * denom / (numer * quartersPerOne), exponent⟩
  let upper : Decimal := { lower with digits := lower.digits + 1 }
  match i.contains lower && lower.digits ≠ 0, i.contains upper with
  | true, true => some (if i.prefersLower lower upper then lower else upper)
  | true, false => some lower
  | false, true => some upper
  | false, false => none

end RoundingInterval

/-- The shortest decimal of a magnitude, without trailing zeros. -/
def Binary64.shortest (x : Binary64) : Decimal :=
  if x.rank = 0 then ⟨0, 0⟩
  else
    let i := RoundingInterval.ofRank x.rank
    let p := i.magnitude
    (((List.range 17).findSome? fun n => i.onGrid? p (n + 1)).getD ⟨0, 0⟩).trimmed 17

end TierQuery.Json
