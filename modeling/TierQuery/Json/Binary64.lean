/-! Finite 64-bit floating-point numbers in exact arithmetic. A number is its sign and its rank among
the magnitudes, zero being the least; every magnitude is a whole number of units of 2^-1074, and all
operations round to the nearest magnitude, a tie going to the even rank. -/

namespace TierQuery.Json

/-- Two to the power of `n`. -/
def twoTo (n : Nat) : Nat := Nat.pow 2 n

/-- Ten to the power of `n`. -/
def tenTo (n : Nat) : Nat := Nat.pow 10 n

/-- Ranks from here on are infinite. -/
def infiniteRank : Nat := 2047 * twoTo 52

structure Binary64 where
  negative : Bool
  rank : Nat
  finite : rank < infiniteRank
deriving DecidableEq

/-- The whole number nearest to `n / d`, the even one of two. -/
def nearestEven (n d : Nat) : Nat :=
  let q := n / d
  let r := n % d
  if 2 * r < d then q else if d < 2 * r then q + 1 else q + q % 2

namespace Binary64

def zero : Binary64 := ⟨false, 0, by decide⟩

def negate (x : Binary64) : Binary64 := { x with negative := !x.negative }

/-- The exponent's steps above the smallest one; a step doubles the spacing of magnitudes. -/
def binade (rank : Nat) : Nat := rank / twoTo 52 - 1

/-- The integer multiple of the spacing at this rank. -/
def significand (rank : Nat) : Nat :=
  if rank < twoTo 52 then rank else twoTo 52 + rank % twoTo 52

/-- The magnitude in units of 2^-1074. -/
def units (x : Binary64) : Nat := significand x.rank * twoTo (binade x.rank)

/-- The rank nearest to `n / d` units, which may be infinite. -/
def rankOfUnits (n d : Nat) : Nat :=
  let step := Nat.log2 (n / d) - 52
  step * twoTo 52 + nearestEven n (d * twoTo step)

def ofUnits? (n d : Nat) : Option Binary64 :=
  let rank := rankOfUnits n d
  if h : rank < infiniteRank then some ⟨false, rank, h⟩ else none

def ofNat? (n : Nat) : Option Binary64 := ofUnits? (n * twoTo 1074) 1

def mul? (x y : Binary64) : Option Binary64 := ofUnits? (x.units * y.units) (twoTo 1074)

def div? (x y : Binary64) : Option Binary64 := ofUnits? (x.units * twoTo 1074) y.units

/-- Divide by powers of ten of at most 308 places until none is left or nothing is left to divide. -/
def shrink (x : Binary64) (places : Nat) : Option Binary64 :=
  if places ≤ 308 then do div? x (← ofNat? (tenTo places))
  else if x.rank = 0 then some x
  else do shrink (← div? x (← ofNat? (tenTo 308))) (places - 308)
termination_by places

/-- `digits * 10 ^ exponent`, rounded first as a whole number and again after each scaling; `none`
when it is too large. -/
def ofDecimal? (digits : Nat) (exponent : Int) : Option Binary64 := do
  let x ← ofNat? digits
  match exponent with
  | .ofNat places =>
    if places ≤ 308 then mul? x (← ofNat? (tenTo places))
    else if x.rank = 0 then some x else none
  | .negSucc n => shrink x (n + 1)

end Binary64

end TierQuery.Json
