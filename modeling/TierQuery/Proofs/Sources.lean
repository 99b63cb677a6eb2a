import Mathlib.Data.Fintype.EquivFin
import TierQuery.Proofs.Endings
import TierQuery.Proofs.Literals
import TierQuery.Statement.Text

/-! Literals never reach the text of a statement. They are the values of its parameters, and every
parameter has one source: a place of the query, or a value that is the same whatever the literals are.
The sources are found by compiling the query with a mark of its own in every place. -/

namespace TierQuery

open Json (Value)

variable {root : Tier} {R : Value → Value → Prop}

/-! Queries that are equal but for their literals -/

/-- Equal but for the value that a comparison or a containment tests for. The value of a comparison on
`discourse` is no literal here, for it may fix the scope. -/
inductive Criterion.EqualUpToLiteral : Criterion → Criterion → Prop
  | value {path : AttributePath} (op : CompareOp) {v w : Value} :
    (path.property = .discourse → v = w) →
    EqualUpToLiteral (.comparison path op (.value v)) (.comparison path op (.value w))
  | path (path : AttributePath) (op : CompareOp) (other : AttributePath) :
    EqualUpToLiteral (.comparison path op (.path other)) (.comparison path op (.path other))
  | contains (container : Tier) (path : AttributePath) (v w : Value) :
    EqualUpToLiteral (.contains container path v) (.contains container path w)
  | alignment (kind : Alignment) (a b : Tier) :
    EqualUpToLiteral (.alignment kind a b) (.alignment kind a b)

/-- Equal but for the literals of the criteria and the values of the updates. -/
structure Query.EqualUpToLiterals (q q' : Query) : Prop where
  hierarchy : q.hierarchy = q'.hierarchy
  corpus : q.corpus? = q'.corpus?
  find : q.find = q'.find
  criteria : List.Forall₂ Criterion.EqualUpToLiteral q.criteria q'.criteria
  columns : q.columns = q'.columns
  ordering : q.ordering = q'.ordering
  grouping : q.grouping = q'.grouping
  aggregates : q.aggregates = q'.aggregates
  typeKeys : q.mutation.typeProperties.names = q'.mutation.typeProperties.names
  tokenKeys : q.mutation.tokenProperties.names = q'.mutation.tokenProperties.names
  delete : q.mutation.delete = q'.mutation.delete

theorem Criterion.EqualUpToLiteral.refl (c : Criterion) : c.EqualUpToLiteral c := by
  cases c with
  | comparison path op operand =>
    cases operand with
    | value v => exact .value op fun _ => rfl
    | path other => exact .path path op other
  | contains container path v => exact .contains container path v v
  | alignment kind a b => exact .alignment kind a b

theorem Query.EqualUpToLiterals.refl (q : Query) : q.EqualUpToLiterals q :=
  ⟨rfl, rfl, rfl, List.forall₂_same.2 fun c _ => .refl c, rfl, rfl, rfl, rfl, rfl, rfl, rfl⟩

/-- Where a query holds a literal. -/
inductive Slot
  | criterion (n : Nat)
  | typeProperty (key : String)
  | tokenProperty (key : String)

def Criterion.literal? : Criterion → Option Value
  | comparison _ _ (.value v) => some v
  | contains _ _ v => some v
  | _ => none

def Query.literal? (q : Query) : Slot → Option Value
  | .criterion n => q.criteria[n]?.bind Criterion.literal?
  | .typeProperty key => q.mutation.typeProperties.get? key
  | .tokenProperty key => q.mutation.tokenProperties.get? key

/-! Sources of values -/

/-- Where the value of a parameter comes from. -/
inductive Source
  | literal (x : Slot)
  | value (v : Value)

def Source.value? (q : Query) : Source → Option Value
  | literal x => q.literal? x
  | value v => some v

/-- The parameters have the names, and in this query the values, that the sources tell. -/
def Bindings.ComeFrom (q : Query) (sources : List (String × Source)) (b : Bindings) : Prop :=
  List.Forall₂ (fun source entry => source.1 = entry.1 ∧ source.2.value? q = some entry.2)
    sources b.entries

theorem Bindings.ComeFrom.names_eq {q : Query} {sources : List (String × Source)} {b : Bindings}
    (h : b.ComeFrom q sources) : b.names = sources.map Prod.fst := by
  have hnames : List.Forall₂ Eq (sources.map Prod.fst) (b.entries.map Prod.fst) := by
    rw [List.forall₂_map_left_iff, List.forall₂_map_right_iff]
    exact h.imp fun _ _ hentry => hentry.1
  rw [List.forall₂_eq_eq_eq] at hnames
  exact hnames.symm

/-! Other literals in the places of a query -/

/-- The mark of a place, in one of many series. -/
def Slot.mark (series : Nat) (x : Slot) : Value :=
  .array (.array (List.replicate series .null) ::
    match x with
    | .criterion n => [.array (List.replicate n .null)]
    | .typeProperty key => [.text key]
    | .tokenProperty key => [.text key, .null])

end TierQuery
