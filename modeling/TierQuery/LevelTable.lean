import TierQuery.Frame
import TierQuery.Identifier

/-! The levels of a query: every tier it refers to in canonical form, together with the hop
prefixes that lead there. Each level becomes one node of the pattern and has a variable of its own. -/

namespace TierQuery

/-- Index of a level in order of first mention. -/
abbrev LevelId := Nat

/-- What refers to a level: the n-th entry of a part of the query. -/
inductive Reference
  | criterion (n : Nat)
  | column (n : Nat)
  | groupBy (n : Nat)
  | orderBy (n : Nat)
  | aggregate (n : Nat)
deriving DecidableEq

/-- The parts of a query that refer to levels. -/
structure References where
  criteria : List Criterion
  columns : List AttributePath
  groupBy : List AttributePath
  orderBy : List AttributePath
  aggregates : List AttributePath

/-- A tier as a query writes it. A binding mention needs a token to be there. -/
structure Mention where
  tier : Tier
  reference : Reference
  binding : Bool
deriving DecidableEq

namespace References

def pathMentions (reference : Nat → Reference) (paths : List AttributePath) : List Mention :=
  paths.zipIdx.map fun (p, n) => ⟨p.tier, reference n, false⟩

def mentions (r : References) : List Mention :=
  (r.criteria.zipIdx.flatMap fun (c, n) =>
      c.boundTiers.map fun a => ⟨a, .criterion n, true⟩)
    ++ pathMentions .column r.columns
    ++ pathMentions .groupBy r.groupBy
    ++ pathMentions .orderBy r.orderBy
    ++ pathMentions .aggregate r.aggregates

end References

structure Level where
  tier : Tier
  var : String
  typeVar : String
  /-- Steps above the searched-for level; neighbours and speakers count as where they start. -/
  position : Nat
  required : Bool
  parent? : Option LevelId
  references : List Reference
deriving DecidableEq

/-- The levels in order of first mention, the searched-for one among them, and the level of every
spelling in the query. -/
structure LevelTable where
  levels : List Level
  spellings : List (Tier × LevelId)
  nonempty : levels ≠ []
deriving DecidableEq

/-- A tier after the hop prefixes that lead to it from the origin. -/
def Tier.chain (a : Tier) : List Tier :=
  ((List.range (a.depth - 1)).map fun n =>
      { a.withoutSubsets with hops := a.hops.take (n + 1) })
    ++ [a]

theorem Tier.chain_ne_nil (a : Tier) : a.chain ≠ [] := by simp [Tier.chain]

/-! Variables -/

/-- The n-th candidate: the stem itself, then the stem with 2, 3 and so on behind it. -/
def numbered (stem : String) : Nat → String
  | 0 => stem
  | n + 1 => stem ++ "_" ++ toString (n + 2)

/-- The first candidate that is not taken; one of `taken.length + 1` candidates is free. -/
def freshName (taken : List String) (stem : String) : String :=
  (((List.range (taken.length + 1)).map (numbered stem)).find? (!taken.contains ·)).getD stem

def freshNames (stems : List String) : List String :=
  stems.foldl (fun taken stem => taken ++ [freshName taken stem]) []

theorem length_foldl_freshName (stems taken : List String) :
    (stems.foldl (fun taken stem => taken ++ [freshName taken stem]) taken).length
      = taken.length + stems.length := by
  induction stems generalizing taken with
  | nil => rfl
  | cons s ss ih => rw [List.foldl_cons, ih]; simp; omega

theorem length_freshNames (stems : List String) : (freshNames stems).length = stems.length := by
  simp [freshNames, length_foldl_freshName]

def Tier.stem (a : Tier) : String :=
  joinWith "_" (Identifier.snakeCase a.origin :: a.hops.map (Identifier.snakeCase ·.segment))

namespace LevelTable

/-- Where `a` stands in `as`, counting from zero. -/
def index? (as : List Tier) (a : Tier) : Option LevelId := as.findIdx? (· == a)

/-- The node that a level is reached from: the searched-for one after a single hop. -/
def parentId? (as : List Tier) (a : Tier) : Option LevelId :=
  match a.parent? with
  | none => none
  | some p => if p.hops = [] then some 0 else index? as p

def positionAbove (f : Frame) (a : Tier) : Nat :=
  match a.position? f.hierarchy, f.root.position? f.hierarchy with
  | some p, some r => p - r
  | _, _ => 0

/-- A mention with the canonical form of its tier. -/
def place (f : Frame) (m : Mention) : Except CompileError (Mention × Tier) := do
  .ok (m, ← f.canonical m.tier)

/-- The tiers of the levels, given the mentions in canonical form. -/
def tiersOf (f : Frame) (placed : List (Mention × Tier)) : List Tier :=
  distinct (f.root.chain ++ placed.flatMap fun m => m.2.chain)

/-- The tiers that have to be there: the searched-for one, and those on the way to a binding
mention. -/
def requiredOf (f : Frame) (placed : List (Mention × Tier)) : List Tier :=
  f.root.chain ++ (placed.filter (·.1.binding)).flatMap fun m => m.2.chain

def levelOf (f : Frame) (placed : List (Mention × Tier)) (as : List Tier)
    (a : Tier) (name : String) : Level where
  tier := a
  var := "node_" ++ name
  typeVar := "type_" ++ name
  position := positionAbove f a
  required := (requiredOf f placed).contains a
  parent? := parentId? as a
  references := (placed.filter (·.2 == a)).map (·.1.reference)

theorem tiersOf_ne_nil (f : Frame) (placed : List (Mention × Tier)) :
    tiersOf f placed ≠ [] := by
  unfold tiersOf
  cases h : f.root.chain with
  | nil => exact absurd h f.root.chain_ne_nil
  | cons a as => simp [distinct]

def levelsOf (f : Frame) (placed : List (Mention × Tier)) : List Level :=
  let as := tiersOf f placed
  as.zipWith (levelOf f placed as) (freshNames (as.map Tier.stem))

theorem levelsOf_ne_nil (f : Frame) (placed : List (Mention × Tier)) :
    levelsOf f placed ≠ [] := by
  have h := List.length_pos_iff.2 (tiersOf_ne_nil f placed)
  apply List.length_pos_iff.1
  simpa [levelsOf, length_freshNames] using h

def ofPlaced (f : Frame) (placed : List (Mention × Tier)) : LevelTable where
  levels := levelsOf f placed
  spellings := placed.map fun m =>
    (m.1.tier, (index? (tiersOf f placed) m.2).getD 0)
  nonempty := levelsOf_ne_nil f placed

/-- What resolving comes to, if it comes to an end: see `Resolves`. -/
def resolve (f : Frame) (r : References) : Except CompileError LevelTable := do
  let placed ← r.mentions.mapM (place f)
  .ok (ofPlaced f placed)

/-- The level of a tier, as written in the query or in canonical form. -/
def find? (t : LevelTable) (a : Tier) : Option LevelId :=
  match t.spellings.find? (·.1 == a) with
  | some s => some s.2
  | none => t.levels.findIdx? (·.tier == a)

/-- The level of a tier that the query mentions. -/
def lookup (f : Frame) (t : LevelTable) (a : Tier) : Except CompileError (LevelId × Level) :=
  match t.find? a with
  | none => .error (f.unreachable a)
  | some n =>
    match t.levels[n]? with
    | none => .error (f.unreachable a)
    | some l => .ok (n, l)

/-! Resolving mention by mention -/

/-- The level that a level is reached from. -/
def parentOf (t : LevelTable) (n : LevelId) : Option LevelId :=
  t.levels[n]?.bind fun l : Level => l.parent?

/-- The way back from a level, from parent to parent, comes to a level that has none. -/
inductive WayEnds (t : LevelTable) : LevelId → Prop
  | top {n : LevelId} : t.parentOf n = none → WayEnds t n
  | back {n m : LevelId} : t.parentOf n = some m → WayEnds t m → WayEnds t n

/-- Placing the mentions one after the other, behind those that are placed already, has the outcome.
From the level of a binding mention the way back is walked, for all that it passes has to be there; if
the way does not end, there is no outcome. -/
inductive Resolves (f : Frame) :
    List (Mention × Tier) → List Mention → Except CompileError LevelTable → Prop
  | done (placed : List (Mention × Tier)) : Resolves f placed [] (.ok (ofPlaced f placed))
  | rejected {placed : List (Mention × Tier)} {m : Mention} {ms : List Mention} {e : CompileError} :
    f.canonical m.tier = .error e → Resolves f placed (m :: ms) (.error e)
  | placed {placed : List (Mention × Tier)} {m : Mention} {ms : List Mention} {a : Tier}
    {outcome : Except CompileError LevelTable} :
    f.canonical m.tier = .ok a →
    (m.binding = true → ∃ n, (ofPlaced f (placed ++ [(m, a)])).find? m.tier = some n ∧
      (ofPlaced f (placed ++ [(m, a)])).WayEnds n) →
    Resolves f (placed ++ [(m, a)]) ms outcome → Resolves f placed (m :: ms) outcome

/-- The level that writes go to. -/
def root (t : LevelTable) : Level := t.levels.head t.nonempty

/-- Put `x` into a list before the first element that has to come after it. -/
def insertBefore (after : α → Bool) (x : α) : List α → List α
  | [] => [x]
  | y :: ys => if after y then x :: y :: ys else y :: insertBefore after x ys

/-- Sorted so that no element comes before one that precedes it; ties keep their order. -/
def stableSort (precedes : α → α → Bool) : List α → List α
  | [] => []
  | x :: xs => insertBefore (!precedes · x) x (stableSort precedes xs)

/-- Levels higher in the hierarchy come first, then those with fewer hops. -/
def precedes (a b : LevelId × Level) : Bool :=
  b.2.position < a.2.position ∨
    (a.2.position = b.2.position ∧ a.2.tier.depth < b.2.tier.depth)

def indexed (t : LevelTable) : List (LevelId × Level) := t.levels.zipIdx.map fun (l, n) => (n, l)

/-- The levels to be matched, in pattern order. -/
def required (t : LevelTable) : List (LevelId × Level) :=
  stableSort precedes (t.indexed.filter (·.2.required))

/-- The levels that may be missing, in order of first mention. -/
def optional (t : LevelTable) : List (LevelId × Level) :=
  t.indexed.filter (!·.2.required)

end LevelTable

end TierQuery
