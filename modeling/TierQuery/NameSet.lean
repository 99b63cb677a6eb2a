/-! Finite sets of names, kept in ascending order, so that equal sets are equal values and every
listing of a set is sorted by code point. -/

namespace TierQuery

/-- Put `n` at its place in an ascending list, unless it is there. -/
def insertName (n : String) : List String → List String
  | [] => [n]
  | m :: ms =>
    if n < m then n :: m :: ms
    else if n = m then m :: ms
    else m :: insertName n ms

theorem mem_insertName {n x : String} {ms : List String} :
    x ∈ insertName n ms ↔ x = n ∨ x ∈ ms := by
  induction ms with
  | nil => simp [insertName]
  | cons m ms ih =>
    unfold insertName
    split
    · simp
    · split
      · next h => subst h; simp
      · simp only [List.mem_cons, ih]
        constructor <;> (rintro (h | h | h) <;> simp [h])

theorem pairwise_insertName {n : String} {ms : List String} (h : ms.Pairwise (· < ·)) :
    (insertName n ms).Pairwise (· < ·) := by
  induction ms with
  | nil => simp [insertName]
  | cons m ms ih =>
    rw [List.pairwise_cons] at h
    unfold insertName
    split
    · next hlt =>
      refine List.pairwise_cons.2 ⟨fun x hx => ?_, List.pairwise_cons.2 h⟩
      rcases List.mem_cons.1 hx with rfl | hx
      · exact hlt
      · exact String.lt_trans hlt (h.1 x hx)
    · split
      · exact List.pairwise_cons.2 h
      · next hlt hne =>
        refine List.pairwise_cons.2 ⟨fun x hx => ?_, ih h.2⟩
        rcases mem_insertName.1 hx with rfl | hx
        · exact (Std.lt_trichotomy m x).resolve_right (by simp [hlt, Ne.symm hne])
        · exact h.1 x hx

structure NameSet where
  names : List String
  ascending : names.Pairwise (· < ·)
deriving DecidableEq

namespace NameSet

def empty : NameSet := ⟨[], List.Pairwise.nil⟩

def insert (s : NameSet) (n : String) : NameSet :=
  ⟨insertName n s.names, pairwise_insertName s.ascending⟩

def ofList (ns : List String) : NameSet := ns.foldl insert empty

def isEmpty (s : NameSet) : Bool := s.names.isEmpty

instance : Inhabited NameSet := ⟨empty⟩

end NameSet

end TierQuery
