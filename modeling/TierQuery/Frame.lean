import TierQuery.Discourse

/-! The frame of reference of one query: its hierarchy, its searched-for type and its discourse. In
the frame every tier has one canonical form, which starts at the searched-for level. -/

namespace TierQuery

structure Frame where
  hierarchy : Hierarchy
  /-- The searched-for type under the scope. -/
  root : Tier
  scope : Option String
deriving DecidableEq

namespace Frame

def ofQuery (h : Hierarchy) (find : Tier) (criteria : List Criterion) :
    Except CompileError Frame := do
  let scope ← Discourse.collect find criteria
  let root ← Discourse.apply scope find
  .ok ⟨h, root, scope⟩

/-- Every hop can be made from where the hops before it lead. Neighbours stay on their level,
containment goes strictly up, and from a speaker there is no way on. -/
def walkable (h : Hierarchy) : Option String → List Hop → Bool
  | _, [] => true
  | none, _ :: _ => false
  | some l, .following :: hs => walkable h (some l) hs
  | some l, .previous :: hs => walkable h (some l) hs
  | some l, .up u :: hs => h.isAbove u l && walkable h (some u) hs
  | some _, .speaker :: hs => walkable h none hs

def unreachable (f : Frame) (a : Tier) : CompileError :=
  .unreachable a.dotted f.root.origin

/-- The tier as seen from the searched-for level. -/
def rooted (f : Frame) (a : Tier) : Except CompileError Tier :=
  if a.origin = f.root.origin then .ok a
  else if f.hierarchy.isAbove a.origin f.root.origin then .ok (a.rebased f.root.origin)
  else .error (f.unreachable a)

/-- A mention of the searched-for level itself: it repeats the subsets searched for, or has none. -/
def bindRoot (f : Frame) (a : Tier) : Except CompileError Tier :=
  if (!a.hasSubsets || (a.typeSubsets = f.root.typeSubsets ∧ a.tokenSubsets = f.root.tokenSubsets))
      ∧ a.discourse = f.root.discourse then .ok f.root
  else .error (.ambiguousLevel f.root.origin)

def canonical (f : Frame) (a : Tier) : Except CompileError Tier := do
  let r ← f.rooted a
  if walkable f.hierarchy (some r.origin) r.hops then
    let s ← Discourse.apply f.scope r
    if s.hops = [] then f.bindRoot s else .ok s
  else .error (f.unreachable a)

end Frame

end TierQuery
