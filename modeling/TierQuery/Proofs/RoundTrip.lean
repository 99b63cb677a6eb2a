import TierQuery.Interchange
import TierQuery.Proofs.Keys

/-! What is written as JSON reads back as what was written. A value that is left out is the one that
is assumed when it is missing, a set is listed in the order in which it is kept, and a tag is a member
of its own, so no two values have one JSON form. -/

namespace TierQuery

open Json (Value Place)
open Json.Shape

/-- Values that are written and read: what is written reads back, different values are written
differently, and whatever form a value was read from, the one it is written in reads as the same. -/
structure Interchanges {α : Type} (encode : α → Value) (decode : Value → Decoded α) : Prop where
  reads_back : ∀ a, decode (encode a) = .ok a
  injective : Function.Injective encode
  normal : ∀ v a, decode v = .ok a → decode (encode a) = decode v

theorem Interchanges.of_reads_back {α : Type} {encode : α → Value} {decode : Value → Decoded α}
    (h : ∀ a, decode (encode a) = .ok a) : Interchanges encode decode where
  reads_back := h
  injective a b hab := by
    have hb := h b
    rw [← hab, h a] at hb
    exact Except.ok.inj hb
  normal v a hv := (h a).trans hv.symm

/-! Sets of names -/

theorem insertName_of_forall_lt {n : String} {ms : List String} (h : ∀ m ∈ ms, m < n) :
    insertName n ms = ms ++ [n] := by
  induction ms with
  | nil => rfl
  | cons m ms ih =>
    obtain ⟨hm, hms⟩ := List.forall_mem_cons.1 h
    have hne : n ≠ m := by
      rintro rfl
      exact String.lt_irrefl n hm
    have hle : ¬ n < m := fun hlt => String.lt_irrefl n (String.lt_trans hlt hm)
    simp only [insertName, if_neg hle, if_neg hne, ih hms, List.cons_append]

/-- Names that come in ascending order are put behind those that are there. -/
theorem NameSet.names_foldl_insert {ns : List String} {s : NameSet}
    (h : (s.names ++ ns).Pairwise (· < ·)) : (ns.foldl insert s).names = s.names ++ ns := by
  induction ns generalizing s with
  | nil => simp
  | cons n ns ih =>
    have hlt : ∀ m ∈ s.names, m < n := fun m hm =>
      (List.pairwise_append.1 h).2.2 m hm n List.mem_cons_self
    have hnames : (s.insert n).names = s.names ++ [n] := insertName_of_forall_lt hlt
    have hsplit : s.names ++ n :: ns = (s.insert n).names ++ ns := by
      rw [hnames, List.append_assoc, List.singleton_append]
    rw [List.foldl_cons, ih (hsplit ▸ h), hsplit]

theorem NameSet.ofList_names (s : NameSet) : ofList s.names = s :=
  eq_of_names (names_foldl_insert (s := empty) s.ascending)

/-! Members of an object -/

section Members

variable {α : Type} {ms : List (String × Value)} {name : String} {decode : Value → Decoded α}

theorem member?_nil (name : String) : Value.member? [] name = none := rfl

@[simp] theorem member?_cons (key : String) (v : Value) (name : String) :
    Value.member? ((key, v) :: ms) name = if key = name then some v else Value.member? ms name := by
  unfold Value.member?
  by_cases h : key = name <;> simp [h]

@[simp] theorem member?_present_append (key : String) (v? : Option Value) (name : String) :
    Value.member? (present key v? ++ ms) name
      = if key = name then v?.or (Value.member? ms name) else Value.member? ms name := by
  cases v? <;> simp [present]

@[simp] theorem member?_present (key : String) (v? : Option Value) (name : String) :
    Value.member? (present key v?) name = if key = name then v? else none := by
  cases v? <;> simp [present, member?_nil]

theorem member_eq_ok {v : Value} {a : α} (hm : Value.member? ms name = some v)
    (hd : decode v = .ok a) : member ms name decode = .ok (some a) := by
  simp only [member, hm, hd]
  rfl

/-- What is not there is left out, and nothing that is there is written as null. -/
theorem member_nullable (encode : α → Value) {a? : Option α}
    (hm : Value.member? ms name = a?.map encode)
    (hd : ∀ a, decode (encode a) = .ok a) (hn : ∀ a, encode a ≠ .null) :
    ∃ b?, member ms name (nullable decode) = .ok b? ∧ b?.join = a? := by
  cases a? with
  | none => exact ⟨none, by simp only [member, hm, Option.map_none], rfl⟩
  | some a =>
    refine ⟨some (some a), member_eq_ok hm ?_, rfl⟩
    have hnull : nullable decode (encode a) = some <$> decode (encode a) := by
      unfold nullable
      split
      · next h => exact absurd h (hn a)
      · rfl
    rw [hnull, hd]
    rfl

/-- A list is left out when it is empty, and nothing is what is assumed then. -/
theorem member_unlessEmpty {empty a : α} {items : List Value}
    (hm : Value.member? ms name = unlessEmpty items) (hd : decode (.array items) = .ok a)
    (he : items = [] → a = empty) :
    ∃ a?, member ms name decode = .ok a? ∧ a?.getD empty = a := by
  by_cases h : items = []
  · refine ⟨none, ?_, (he h).symm⟩
    simp [member, hm, unlessEmpty, h]
  · refine ⟨some a, member_eq_ok (v := .array items) ?_ hd, rfl⟩
    simp [hm, unlessEmpty, h]

end Members

/-! Lists and tags -/

theorem sequence_map {α : Type} (encode : α → Value) {decode : Value → Decoded α}
    (hd : ∀ a, decode (encode a) = .ok a) (as : List α) :
    sequence decode (.array (as.map encode)) = .ok as :=
  mapM_eq_ok_iff.2 (List.forall₂_map_left_iff.2 (List.forall₂_same.2 fun a _ => hd a))

theorem nameSetOfJson_names (s : NameSet) : nameSetOfJson (.array (s.names.map .text)) = .ok s := by
  have h : sequence string (.array (s.names.map .text)) = .ok s.names :=
    sequence_map Value.text (fun _ => rfl) _
  simp only [nameSetOfJson, h]
  exact congrArg Except.ok s.ofList_names

/-- A tag is read as its variant, and taken off. -/
theorem taggedBy_eq_ok {α : Type} {ms : List (String × Value)} {key name shape : String}
    {variants : List (String × α)} {a : α} (place : Place)
    (hm : Value.member? ms key = some (.text name)) (ha : named variants name = .ok a) :
    taggedBy place key shape variants (.object ms)
      = .ok (a, .object (ms.filter fun m => m.1 ≠ key)) := by
  have htag : member ms key (tag place variants) = .ok (some a) := member_eq_ok hm ha
  simp only [taggedBy, htag]
  rfl

theorem choice_text {α : Type} {variants : List (String × α)} {name : String} {a : α} (place : Place)
    (ha : named variants name = .ok a) : choice place variants (.text name) = .ok a := by
  simp only [choice, variant, ha]
  rfl

/-! Tiers and paths -/

theorem Hop.reads_back (place : Place) (hop : Hop) : ofJson place hop.toJson = .ok hop := by
  have bare (name : String) (tag : HopTag) (hn : named HopTag.variants name = .ok tag) :
      taggedBy place "hop" "Hop" HopTag.variants (.object [("hop", .text name)])
        = .ok (tag, .object []) :=
    taggedBy_eq_ok place (by simp) hn
  cases hop with
  | following =>
    rw [ofJson, toJson, bare "following" .following rfl]
    rfl
  | previous =>
    rw [ofJson, toJson, bare "previous" .previous rfl]
    rfl
  | up level =>
    have htag : taggedBy place "hop" "Hop" HopTag.variants (Hop.up level).toJson
        = .ok (.up, .object [("level", .text level)]) :=
      taggedBy_eq_ok place rfl rfl
    rw [ofJson, htag]
    rfl
  | speaker =>
    rw [ofJson, toJson, bare "speaker" .speaker rfl]
    rfl

theorem Tier.reads_back (place : Place) (a : Tier) : ofJson place a.toJson = .ok a := by
  unfold toJson
  generalize hms : present "discourse" _ ++ _ ++ _ ++ _ ++ _ = ms
  have horigin : member ms "origin" string = .ok (some a.origin) :=
    member_eq_ok (v := .text a.origin) (by simp [← hms]) rfl
  obtain ⟨discourse, hdiscourse, ed⟩ : ∃ d?, member ms "discourse" (nullable string) = .ok d? ∧
      d?.join = a.discourse :=
    member_nullable .text (by simp [← hms]) (fun _ => rfl) (by simp)
  obtain ⟨hops, hhops, eh⟩ : ∃ hs?, member ms "hops" (sequence (Hop.ofJson place)) = .ok hs? ∧
      hs?.getD [] = a.hops :=
    member_unlessEmpty (by simp [← hms]) (sequence_map Hop.toJson (Hop.reads_back place) a.hops)
      (by simp)
  obtain ⟨types, htypes, et⟩ : ∃ s?, member ms "type_subsets" nameSetOfJson = .ok s? ∧
      s?.getD .empty = a.typeSubsets :=
    member_unlessEmpty (by simp [← hms]) (nameSetOfJson_names a.typeSubsets)
      fun h => NameSet.eq_of_names (List.map_eq_nil_iff.1 h)
  obtain ⟨tokens, htokens, ek⟩ : ∃ s?, member ms "token_subsets" nameSetOfJson = .ok s? ∧
      s?.getD .empty = a.tokenSubsets :=
    member_unlessEmpty (by simp [← hms]) (nameSetOfJson_names a.tokenSubsets)
      fun h => NameSet.eq_of_names (List.map_eq_nil_iff.1 h)
  simp only [ofJson, hdiscourse, hhops, horigin, htokens, htypes, bind, Except.bind, required, ed,
    eh, et, ek]

theorem AttributePath.reads_back (place : Place) (p : AttributePath) :
    ofJson place p.toJson = .ok p := by
  unfold toJson
  generalize hms : present "alias" _ ++ _ = ms
  have htier : member ms "annotation" (Tier.ofJson place) = .ok (some p.tier) :=
    member_eq_ok (by simp [← hms]) (p.tier.reads_back place)
  have hproperty : member ms "property" Property.ofJson = .ok (some p.property) :=
    member_eq_ok (v := p.property.toJson) (by simp [← hms]) rfl
  obtain ⟨name, hname, en⟩ : ∃ a?, member ms "alias" (nullable string) = .ok a? ∧
      a?.join = p.alias? :=
    member_nullable .text (by simp [← hms, member?_nil]) (fun _ => rfl) (by simp)
  simp only [ofJson, hname, htier, hproperty, bind, Except.bind, required, en]

theorem AttributePath.toJson_ne_null (p : AttributePath) : p.toJson ≠ .null := by simp [toJson]

/-! Plain enumerations -/

theorem CompareOp.reads_back (place : Place) (op : CompareOp) : ofJson place op.toJson = .ok op :=
  choice_text place (by cases op <;> rfl)

theorem Alignment.reads_back (place : Place) (k : Alignment) : ofJson place k.toJson = .ok k :=
  choice_text place (by cases k <;> rfl)

theorem AggregateFunction.reads_back (place : Place) (f : AggregateFunction) :
    ofJson place f.toJson = .ok f :=
  choice_text place (by cases f <;> rfl)

/-! Criteria and aggregates -/

/-- Null is a value like any other here: the payload is what stands under the one member. -/
theorem Operand.reads_back (place : Place) (operand : Operand) :
    ofJson place operand.toJson = .ok operand := by
  cases operand with
  | value v => rfl
  | path p =>
    have hp : payload (AttributePath.ofJson place) (some p.toJson) = .ok p := p.reads_back place
    have hv : variant [("value", OperandTag.value), ("path", OperandTag.path)] (Operand.path p).toJson
        = .ok (.path, some p.toJson) := rfl
    rw [ofJson, hv]
    exact congrArg (Operand.path <$> ·) hp

theorem Criterion.reads_back (place : Place) (c : Criterion) : ofJson place c.toJson = .ok c := by
  cases c with
  | comparison p op operand =>
    have htag : taggedBy place "kind" "ClauseElement" CriterionTag.variants
        (comparison p op operand).toJson = .ok (.comparison, .object
          [("op", op.toJson), ("operand", operand.toJson), ("path", p.toJson)]) :=
      taggedBy_eq_ok place rfl rfl
    generalize hms : [("op", op.toJson), _, _] = ms at htag
    have hop : member ms "op" (CompareOp.ofJson .tagged) = .ok (some op) :=
      member_eq_ok (by simp [← hms]) (op.reads_back _)
    have hoperand : member ms "operand" (Operand.ofJson .tagged) = .ok (some operand) :=
      member_eq_ok (by simp [← hms]) (operand.reads_back _)
    have hpath : member ms "path" (AttributePath.ofJson .tagged) = .ok (some p) :=
      member_eq_ok (by simp [← hms]) (p.reads_back _)
    rw [ofJson, htag]
    simp only [comparisonOfJson, hop, hoperand, hpath, bind, Except.bind, required]
  | contains container p v =>
    have htag : taggedBy place "kind" "ClauseElement" CriterionTag.variants
        (contains container p v).toJson = .ok (.contains, .object
          [("container", container.toJson), ("path", p.toJson), ("value", v)]) :=
      taggedBy_eq_ok place rfl rfl
    generalize hms : [("container", container.toJson), _, _] = ms at htag
    have hcontainer : member ms "container" (Tier.ofJson .tagged) = .ok (some container) :=
      member_eq_ok (by simp [← hms]) (container.reads_back _)
    have hpath : member ms "path" (AttributePath.ofJson .tagged) = .ok (some p) :=
      member_eq_ok (by simp [← hms]) (p.reads_back _)
    have hvalue : member ms "value" anything = .ok (some v) :=
      member_eq_ok (by simp [← hms]) rfl
    rw [ofJson, htag]
    simp only [containsOfJson, hcontainer, hpath, hvalue, bind, Except.bind, required]
  | alignment kind a b =>
    have htag : taggedBy place "kind" "ClauseElement" CriterionTag.variants
        (alignment kind a b).toJson = .ok (.alignment, .object
          [("alignment", kind.toJson), ("first", a.toJson), ("second", b.toJson)]) :=
      taggedBy_eq_ok place rfl rfl
    generalize hms : [("alignment", kind.toJson), _, _] = ms at htag
    have hkind : member ms "alignment" (Alignment.ofJson .tagged) = .ok (some kind) :=
      member_eq_ok (by simp [← hms]) (kind.reads_back _)
    have hfirst : member ms "first" (Tier.ofJson .tagged) = .ok (some a) :=
      member_eq_ok (by simp [← hms]) (a.reads_back _)
    have hsecond : member ms "second" (Tier.ofJson .tagged) = .ok (some b) :=
      member_eq_ok (by simp [← hms]) (b.reads_back _)
    rw [ofJson, htag]
    simp only [alignmentOfJson, hkind, hfirst, hsecond, bind, Except.bind, required]

theorem Aggregate.reads_back (place : Place) (a : Aggregate) : ofJson place a.toJson = .ok a := by
  unfold toJson
  generalize hms : present "alias" _ ++ _ ++ _ = ms
  have hfunction : member ms "function" (AggregateFunction.ofJson place) = .ok (some a.function) :=
    member_eq_ok (by simp [← hms]) (a.function.reads_back place)
  obtain ⟨name, hname, en⟩ : ∃ a?, member ms "alias" (nullable string) = .ok a? ∧
      a?.join = a.alias? :=
    member_nullable .text (by simp [← hms]) (fun _ => rfl) (by simp)
  obtain ⟨path, hpath, ep⟩ : ∃ p?,
      member ms "path" (nullable (AttributePath.ofJson place)) = .ok p? ∧ p?.join = a.path? :=
    member_nullable AttributePath.toJson (by simp [← hms]) (AttributePath.reads_back place)
      AttributePath.toJson_ne_null
  simp only [ofJson, hname, hfunction, hpath, bind, Except.bind, required, en, ep]

/-- Tiers, paths, criteria and aggregates keep what they say when they are written and read, under a
name of their own and inside a tagged object alike. -/
theorem json_forms_read_back (place : Place) :
    Interchanges Tier.toJson (Tier.ofJson place) ∧
    Interchanges AttributePath.toJson (AttributePath.ofJson place) ∧
    Interchanges Criterion.toJson (Criterion.ofJson place) ∧
    Interchanges Aggregate.toJson (Aggregate.ofJson place) :=
  ⟨.of_reads_back (Tier.reads_back place), .of_reads_back (AttributePath.reads_back place),
    .of_reads_back (Criterion.reads_back place), .of_reads_back (Aggregate.reads_back place)⟩

/-- A null literal is kept, and so is a null inside of one. -/
example : (Criterion.ofJson .direct ((Tier.ofLevel "phone").attribute .label |>.compare .isIn
      (.array [.null, .object [("a", .null)]])).toJson).toOption
    = some (((Tier.ofLevel "phone").attribute .label).compare .isIn
      (.array [.null, .object [("a", .null)]])) := by
  decide

end TierQuery
