import TierQuery.Json.Value

/-! Values under names, in the order in which the names were first bound. Binding a name again
replaces its value where it stands. -/

namespace TierQuery

open Json (Value)

def bindEntry (name : String) (v : Value) : List (String × Value) → List (String × Value)
  | [] => [(name, v)]
  | (n, w) :: es => if n = name then (n, v) :: es else (n, w) :: bindEntry name v es

theorem mem_names_bindEntry {x name : String} {v : Value} {es : List (String × Value)} :
    x ∈ (bindEntry name v es).map Prod.fst ↔ x = name ∨ x ∈ es.map Prod.fst := by
  induction es with
  | nil => simp [bindEntry]
  | cons e es ih =>
    obtain ⟨n, w⟩ := e
    unfold bindEntry
    split
    · next h => subst h; simp
    · simp only [List.map_cons, List.mem_cons, ih]
      constructor <;> (rintro (h | h | h) <;> simp [h])

theorem nodup_names_bindEntry {name : String} {v : Value} {es : List (String × Value)}
    (h : (es.map Prod.fst).Nodup) : ((bindEntry name v es).map Prod.fst).Nodup := by
  induction es with
  | nil => simp [bindEntry]
  | cons e es ih =>
    obtain ⟨n, w⟩ := e
    simp only [List.map_cons, List.nodup_cons] at h
    unfold bindEntry
    split
    · simpa using h
    · next hn =>
      simp only [List.map_cons, List.nodup_cons]
      refine ⟨fun hm => ?_, ih h.2⟩
      rcases mem_names_bindEntry.1 hm with rfl | hm
      · exact hn rfl
      · exact h.1 hm

structure Bindings where
  entries : List (String × Value)
  distinctNames : (entries.map Prod.fst).Nodup
deriving DecidableEq

namespace Bindings

def empty : Bindings := ⟨[], List.nodup_nil⟩

def bind (b : Bindings) (name : String) (v : Value) : Bindings :=
  ⟨bindEntry name v b.entries, nodup_names_bindEntry b.distinctNames⟩

def extend (b : Bindings) (es : List (String × Value)) : Bindings :=
  es.foldl (fun b e => b.bind e.1 e.2) b

def ofList (es : List (String × Value)) : Bindings := empty.extend es

def get? (b : Bindings) (name : String) : Option Value := Value.member? b.entries name

def size (b : Bindings) : Nat := b.entries.length

def isEmpty (b : Bindings) : Bool := b.entries.isEmpty

def names (b : Bindings) : List String := b.entries.map Prod.fst

end Bindings

end TierQuery
