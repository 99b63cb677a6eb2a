import TierQuery.Json.Shape

/-! What a store answers: rows under column names, or the counts of a write. -/

namespace TierQuery

open Json (Value Place)
open Json.Shape

structure RowSet where
  columns : List String
  rows : List (List Value)
deriving DecidableEq

namespace RowSet

def empty : RowSet := ⟨[], []⟩

def ofColumns (columns : List String) : RowSet := ⟨columns, []⟩

def push (r : RowSet) (row : List Value) : RowSet := { r with rows := r.rows ++ [row] }

def size (r : RowSet) : Nat := r.rows.length

def isEmpty (r : RowSet) : Bool := r.rows.isEmpty

/-- The value under a column name in a row; a repeated name means its first column. -/
def get? (r : RowSet) (row : Nat) (column : String) : Option Value := do
  let n ← r.columns.findIdx? (· == column)
  (← r.rows[row]?)[n]?

/-- The first value of the first row. -/
def one? (r : RowSet) : Option Value := r.rows.head?.bind List.head?

def toJson (r : RowSet) : Value :=
  .object [("columns", .array (r.columns.map .text)), ("rows", .array (r.rows.map .array))]

def ofJson (place : Place) : Value → Decoded RowSet
  | .object ms => do
    let columns ← member ms "columns" (sequence string)
    let rows ← member ms "rows" (sequence (sequence anything))
    let columns ← required "columns" columns
    let rows ← required "rows" rows
    .ok ⟨columns, rows⟩
  | .array items => do
    let (columns, items) ← element "struct RowSet with 2 elements" 0 (sequence string) items
    let (rows, items) ← element "struct RowSet with 2 elements" 1
      (sequence (sequence anything)) items
    exhausted place 2 items
    .ok ⟨columns, rows⟩
  | v => wrongType v "struct RowSet"

end RowSet

/-- What a write did. -/
structure WriteAck where
  nodesDeleted : Nat
  relationshipsDeleted : Nat
  propertiesSet : Nat
deriving DecidableEq

namespace WriteAck

def toJson (a : WriteAck) : Value :=
  .object [("nodes_deleted", .ofNat a.nodesDeleted), ("properties_set", .ofNat a.propertiesSet),
    ("relationships_deleted", .ofNat a.relationshipsDeleted)]

def ofJson (place : Place) : Value → Decoded WriteAck
  | .object ms => do
    let nodes ← member ms "nodes_deleted" (natural "u64")
    let properties ← member ms "properties_set" (natural "u64")
    let relationships ← member ms "relationships_deleted" (natural "u64")
    let nodes ← required "nodes_deleted" nodes
    let relationships ← required "relationships_deleted" relationships
    let properties ← required "properties_set" properties
    .ok ⟨nodes, relationships, properties⟩
  | .array items => do
    let shape := "struct WriteAck with 3 elements"
    let (nodes, items) ← element shape 0 (natural "u64") items
    let (relationships, items) ← element shape 1 (natural "u64") items
    let (properties, items) ← element shape 2 (natural "u64") items
    exhausted place 3 items
    .ok ⟨nodes, relationships, properties⟩
  | v => wrongType v "struct WriteAck"

end WriteAck

end TierQuery
