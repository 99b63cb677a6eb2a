import TierQuery.Description
import TierQuery.Proofs.Records

/-! What becomes of the members of a description. The description and its aggregates are records and
have nothing but their fields. Filters, columns and orderings come in several shapes: such an
element is read from the members of its shape, and whatever else it has is passed over. -/

namespace TierQuery

open Json (Document Value)
open Json.Record

/-! Elements of several shapes -/

/-- The members of the shape that was read. -/
def FilterSpec.members : FilterSpec → List String
  | paths _ _ _ => ["path", "op", "other"]
  | value _ _ _ => ["path", "op", "value"]
  | contains _ _ => ["contains", "value"]
  | aligned _ _ => ["aligned", "with"]

def ColumnSpec.members : List String := ["path", "as"]

def OrderSpec.members : List String := ["path", "descending"]

namespace Description

/-- The members with a name in `own`. -/
def kept (own : List String) (ms : List (String × Document)) : List (String × Document) :=
  ms.filter (·.1 ∈ own)

/-- The element is read from its members in `own`, none of which comes twice, and it would be read
alike if it had no others. -/
def ReadFrom {α : Type} (shape? : Document → Option α) (own : α → List String) (e : Document)
    (a : α) : Prop :=
  shape? e = some a ∧ ∀ ms ending, e = .object ms ending →
    (∀ n ∈ own a, (ms.filter (·.1 = n)).length ≤ 1) ∧
      shape? (.object (kept (own a) ms) ending) = some a

variable {ms : List (String × Document)} {own : List String} {n : String}

theorem filter_kept (h : n ∈ own) : (kept own ms).filter (·.1 = n) = ms.filter (·.1 = n) := by
  rw [kept, List.filter_filter]
  refine List.filter_congr fun m _ => ?_
  by_cases hm : m.1 = n <;> simp [hm, h]

theorem single?_kept (h : n ∈ own) : single? (kept own ms) n = single? ms n := by
  rw [single?, filter_kept h, single?]

theorem flag?_kept (h : n ∈ own) : flag? (kept own ms) n = flag? ms n := by
  rw [flag?, filter_kept h, flag?]

theorem single?_kept_of_not_mem (h : n ∉ own) : single? (kept own ms) n = none := by
  have : (kept own ms).filter (·.1 = n) = [] := by
    rw [kept, List.filter_filter, List.filter_eq_nil_iff]
    rintro m - hm
    simp only [Bool.and_eq_true, decide_eq_true_eq] at hm
    exact h (hm.1 ▸ hm.2)
  rw [single?, this]

theorem length_of_single? (h : (single? ms n).isSome) : (ms.filter (·.1 = n)).length ≤ 1 := by
  unfold single? at h
  split at h
  · next hm => rw [hm]; exact Nat.le_refl 1
  · cases h

theorem length_of_flag? (h : (flag? ms n).isSome) : (ms.filter (·.1 = n)).length ≤ 1 := by
  unfold flag? at h
  split at h
  · next hm => rw [hm]; exact Nat.zero_le 1
  · next hm => rw [hm]; exact Nat.le_refl 1
  · cases h

/-- A shape with the members `own`: they have to be there, and no others are looked at. -/
structure IsShape (shape? : List (String × Document) → Option FilterSpec) (own : List String) :
    Prop where
  kept : ∀ ms, shape? (kept own ms) = shape? ms
  single : ∀ ms a, shape? ms = some a → a.members = own ∧ ∀ n ∈ own, (single? ms n).isSome

theorem isShape_paths : IsShape pathsFilter? ["path", "op", "other"] where
  kept ms := by simp [pathsFilter?, single?_kept]
  single ms a h := by
    simp only [pathsFilter?, Option.bind_eq_bind, Option.bind_eq_some_iff] at h
    obtain ⟨_, hpath, _, -, _, hop, _, -, _, hother, _, -, ha⟩ := h
    cases ha
    simp [FilterSpec.members, hpath, hop, hother]

theorem isShape_value : IsShape valueFilter? ["path", "op", "value"] where
  kept ms := by simp [valueFilter?, single?_kept]
  single ms a h := by
    simp only [valueFilter?, Option.bind_eq_bind, Option.bind_eq_some_iff] at h
    obtain ⟨_, hpath, _, -, _, hop, _, -, _, hv, _, -, ha⟩ := h
    cases ha
    simp [FilterSpec.members, hpath, hop, hv]

theorem isShape_contains : IsShape containsFilter? ["contains", "value"] where
  kept ms := by simp [containsFilter?, single?_kept]
  single ms a h := by
    simp only [containsFilter?, Option.bind_eq_bind, Option.bind_eq_some_iff] at h
    obtain ⟨_, hpath, _, -, _, hv, _, -, ha⟩ := h
    cases ha
    simp [FilterSpec.members, hpath, hv]

theorem isShape_aligned : IsShape alignedFilter? ["aligned", "with"] where
  kept ms := by simp [alignedFilter?, single?_kept]
  single ms a h := by
    simp only [alignedFilter?, Option.bind_eq_bind, Option.bind_eq_some_iff] at h
    obtain ⟨_, hkind, _, -, _, hother, _, -, ha⟩ := h
    cases ha
    simp [FilterSpec.members, hkind, hother]

namespace IsShape

variable {shape? : List (String × Document) → Option FilterSpec} {a : FilterSpec}

/-- A shape is not read where one of its members is missing. -/
theorem none_of_not_mem (h : IsShape shape? own) {others : List String} (hn : n ∈ own)
    (hothers : n ∉ others) : shape? (Description.kept others ms) = none := by
  cases hread : shape? (Description.kept others ms) with
  | none => rfl
  | some a =>
    have := (h.single _ a hread).2 n hn
    rw [single?_kept_of_not_mem hothers] at this
    cases this

theorem length_le (h : IsShape shape? own) (ha : shape? ms = some a) :
    ∀ n ∈ a.members, (ms.filter (·.1 = n)).length ≤ 1 := by
  obtain ⟨hmembers, hsingle⟩ := h.single ms a ha
  rw [hmembers]
  exact fun n hn => length_of_single? (hsingle n hn)

end IsShape

theorem readFrom_filter {e : Document} {a : FilterSpec} (h : filter? e = some a) :
    ReadFrom filter? FilterSpec.members e a := by
  refine ⟨h, ?_⟩
  rintro ms ending rfl
  -- The members of one shape are not enough for the shapes that are tried before it.
  rcases Option.or_eq_some_iff.1 h with hpaths | ⟨-, h⟩
  · obtain ⟨hown, -⟩ := isShape_paths.single ms a hpaths
    refine ⟨isShape_paths.length_le hpaths, ?_⟩
    rw [hown, filter?, isShape_paths.kept, hpaths]
    rfl
  rcases Option.or_eq_some_iff.1 h with hvalue | ⟨-, h⟩
  · obtain ⟨hown, -⟩ := isShape_value.single ms a hvalue
    refine ⟨isShape_value.length_le hvalue, ?_⟩
    rw [hown, filter?, isShape_paths.none_of_not_mem (n := "other") (by decide) (by decide),
      isShape_value.kept, hvalue]
    rfl
  rcases Option.or_eq_some_iff.1 h with hcontains | ⟨-, haligned⟩
  · obtain ⟨hown, -⟩ := isShape_contains.single ms a hcontains
    refine ⟨isShape_contains.length_le hcontains, ?_⟩
    rw [hown, filter?, isShape_paths.none_of_not_mem (n := "path") (by decide) (by decide),
      isShape_value.none_of_not_mem (n := "path") (by decide) (by decide),
      isShape_contains.kept, hcontains]
    rfl
  · obtain ⟨hown, -⟩ := isShape_aligned.single ms a haligned
    refine ⟨isShape_aligned.length_le haligned, ?_⟩
    rw [hown, filter?, isShape_paths.none_of_not_mem (n := "path") (by decide) (by decide),
      isShape_value.none_of_not_mem (n := "path") (by decide) (by decide),
      isShape_contains.none_of_not_mem (n := "contains") (by decide) (by decide),
      isShape_aligned.kept, haligned]
    rfl

theorem readFrom_column {e : Document} {a : ColumnSpec} (h : column? e = some a) :
    ReadFrom column? (fun _ => ColumnSpec.members) e a := by
  refine ⟨h, ?_⟩
  rintro ms ending rfl
  have hkept : column? (.object (kept ColumnSpec.members ms) ending) = some a := by
    rw [← h]
    simp [column?, ColumnSpec.members, single?_kept]
  refine ⟨?_, hkept⟩
  simp only [column?, Option.bind_eq_bind, Option.bind_eq_some_iff] at h
  obtain ⟨_, hpath, _, -, _, hname, -⟩ := h
  simp [ColumnSpec.members, length_of_single?, hpath, hname]

theorem readFrom_order {e : Document} {a : OrderSpec} (h : order? e = some a) :
    ReadFrom order? (fun _ => OrderSpec.members) e a := by
  refine ⟨h, ?_⟩
  rintro ms ending rfl
  have hkept : order? (.object (kept OrderSpec.members ms) ending) = some a := by
    rw [← h]
    simp [order?, OrderSpec.members, single?_kept, flag?_kept]
  refine ⟨?_, hkept⟩
  simp only [order?, Option.bind_eq_bind, Option.bind_eq_some_iff] at h
  obtain ⟨_, hpath, _, -, _, hflag, -⟩ := h
  simp [OrderSpec.members, length_of_single?, length_of_flag?, hpath, hflag]

/-! The records -/

theorem apart_aggregateFields : Apart aggregateFields := by
  intro f hf s d s' h
  simp only [aggregateFields, List.mem_cons, List.not_mem_nil, or_false] at hf
  rcases hf with rfl | rfl | rfl <;>
  · obtain ⟨_, -, h⟩ := bind_eq_ok_iff.1 h
    cases h
    simp [aggregateFields]

theorem apart_fields : Apart fields := by
  intro f hf s d s' h
  simp only [fields, List.mem_cons, List.not_mem_nil, or_false] at hf
  rcases hf with rfl | rfl | rfl | rfl | rfl | rfl | rfl | rfl | rfl | rfl | rfl | rfl | rfl <;>
  · obtain ⟨_, -, h⟩ := bind_eq_ok_iff.1 h
    cases h
    simp [fields]

/-- The lists of elements are held by their own fields. -/
theorem sees_fields :
    Sees fields "filters" (sequence (shaped "FilterSpec" filter?)) (·.filters?) ∧
    Sees fields "columns" (sequence (shaped "ColumnSpec" column?)) (·.columns?) ∧
    Sees fields "order_by" (sequence (shaped "OrderSpec" order?)) (·.orderBy?) ∧
    Sees fields "aggregate" (sequence aggregate) (·.aggregates?) := by
  refine ⟨?_, ?_, ?_, ?_⟩ <;>
  · intro f hf s d s' h
    simp only [fields, List.mem_cons, List.not_mem_nil, or_false] at hf
    rcases hf with rfl | rfl | rfl | rfl | rfl | rfl | rfl | rfl | rfl | rfl | rfl | rfl | rfl <;>
    · obtain ⟨_, hread, h⟩ := bind_eq_ok_iff.1 h
      cases h
      simp [hread]

theorem shaped_eq_ok {α : Type} {name : String} {shape? : Document → Option α} {e : Document}
    {a : α} (h : shaped name shape? e = .ok a) : shape? e = some a := by
  obtain ⟨-, -, h⟩ := bind_eq_ok_iff.1 h
  split at h
  · next hshape => rw [hshape, Except.ok.inj h]
  · cases h

theorem known_of_aggregate {e : Document} {a : AggregateSpec} (h : aggregate e = .ok a) :
    Known aggregateFields e := by
  obtain ⟨s, hs, -⟩ := bind_eq_ok_iff.1 h
  exact (fills_of_record apart_aggregateFields hs).1

theorem ofPartial_eq_ok {s : PartialDescription} {d : Description} (h : ofPartial s = .ok d) :
    d.filters = s.filters?.getD [] ∧ d.columns = s.columns?.getD [] ∧
      d.orderBy = s.orderBy?.getD [] ∧ d.aggregates = s.aggregates?.getD [] := by
  unfold ofPartial at h
  split at h
  · cases h
  · cases h
  · cases h
    exact ⟨rfl, rfl, rfl, rfl⟩

theorem ofText_eq_ok {text : String} {d : Description} (h : ofText text = .ok d) :
    ofDocument (Document.read text).1 = .ok d := by
  obtain ⟨d', hd', h⟩ := bind_eq_ok_iff.1 h
  split at h
  · cases h
    exact hd'
  · cases h

/-- How the members of a document became a description: the document and its aggregates have nothing
but their fields, each of them once, while a filter, a column and an ordering are read from the
members of their shape, whatever others they have. -/
structure MembersOf (doc : Document) (d : Description) : Prop where
  known : Known fields doc
  aggregates : List.Forall₂ (fun e a => aggregate e = .ok a ∧ Known aggregateFields e)
    (elements fields "aggregate" doc) d.aggregates
  filters : List.Forall₂ (ReadFrom filter? FilterSpec.members)
    (elements fields "filters" doc) d.filters
  columns : List.Forall₂ (ReadFrom column? fun _ => ColumnSpec.members)
    (elements fields "columns" doc) d.columns
  orderBy : List.Forall₂ (ReadFrom order? fun _ => OrderSpec.members)
    (elements fields "order_by" doc) d.orderBy

theorem membersOf_of_ofDocument {doc : Document} {d : Description} (h : ofDocument doc = .ok d) :
    MembersOf doc d := by
  obtain ⟨s, hs, hpartial⟩ := bind_eq_ok_iff.1 h
  obtain ⟨hfilters, hcolumns, horder, haggregates⟩ := ofPartial_eq_ok hpartial
  obtain ⟨hsf, hsc, hso, hsa⟩ := sees_fields
  have hnames : (fields.map (·.name)).Nodup := by decide
  refine ⟨(fills_of_record apart_fields hs).1, ?_, ?_, ?_, ?_⟩
  · rw [haggregates]
    exact (forall₂_elements apart_fields hnames hsa rfl hs).imp
      fun _ _ he => ⟨he, known_of_aggregate he⟩
  · rw [hfilters]
    exact (forall₂_elements apart_fields hnames hsf rfl hs).imp
      fun _ _ he => readFrom_filter (shaped_eq_ok he)
  · rw [hcolumns]
    exact (forall₂_elements apart_fields hnames hsc rfl hs).imp
      fun _ _ he => readFrom_column (shaped_eq_ok he)
  · rw [horder]
    exact (forall₂_elements apart_fields hnames hso rfl hs).imp
      fun _ _ he => readFrom_order (shaped_eq_ok he)

end Description

theorem Request.ofText_eq_ok_iff {text : String} {count : Bool} {r : Request} :
    Request.ofText text count = .ok r ↔
      ∃ d, Description.ofText text = .ok d ∧ d.request count = .ok r := by
  unfold ofText
  cases Description.ofText text <;> simp [Except.mapError, bind, Except.bind]

open Description

/-- Every member of an accepted description is one of its fields, and so is every member of an
aggregate. Only filters, columns and orderings may have members that belong to no shape or to
another one, and these make no difference. -/
theorem only_elements_of_several_shapes_have_other_members {text : String} {count : Bool}
    {r : Request} (h : Request.ofText text count = .ok r) :
    ∃ d, Description.ofText text = .ok d ∧ d.request count = .ok r ∧
      d.MembersOf (Document.read text).1 := by
  obtain ⟨d, hd, hrequest⟩ := Request.ofText_eq_ok_iff.1 h
  exact ⟨d, hd, hrequest, membersOf_of_ofDocument (ofText_eq_ok hd)⟩

/-- Phones in the order of their labels, with the direction misspelt. -/
def misspeltText : String :=
  "\x7b\"hierarchy\":[\"phone\"],\"find\":\"phone\",\"order_by\":[\x7b\"path\":\"phone.label\",\"descendin\":true\x7d]\x7d"

theorem exists_request_misspeltText : ∃ r, Request.ofText misspeltText false = .ok r :=
  exists_ok_of_isOk (by decide +kernel)

theorem misspeltText_sorts_ascending :
    ∃ r d, Request.ofText misspeltText false = .ok r ∧ Description.ofText misspeltText = .ok d ∧
      d.MembersOf (Document.read misspeltText).1 ∧ d.orderBy = [⟨"phone.label", false⟩] := by
  obtain ⟨r, hr⟩ := exists_request_misspeltText
  obtain ⟨d, hd, -, hmembers⟩ := only_elements_of_several_shapes_have_other_members hr
  obtain ⟨d', hd', horder⟩ := exists_ok_of_toOption_map (x := Description.ofText misspeltText)
    (g := (·.orderBy)) (b := [⟨"phone.label", false⟩]) (by decide +kernel)
  obtain rfl : d' = d := Except.ok.inj (hd'.symm.trans hd)
  exact ⟨r, d', hr, hd, hmembers, horder⟩

/-- So not every member that is accepted belongs to the shape that was read. -/
theorem misspelt_direction_is_passed_over :
    ¬ ∀ (text : String) (count : Bool) (r : Request), Request.ofText text count = .ok r →
      ∀ e ∈ elements fields "order_by" (Document.read text).1, ∀ n ∈ e.memberNames,
        n ∈ OrderSpec.members := by
  intro h
  obtain ⟨r, hr⟩ := exists_request_misspeltText
  have hnames : "descendin" ∈ (elements fields "order_by" (Document.read misspeltText).1).flatMap
      Document.memberNames := by decide +kernel
  obtain ⟨e, he, hn⟩ := List.mem_flatMap.1 hnames
  exact absurd (h misspeltText false r hr e he "descendin" hn) (by decide)

end TierQuery
