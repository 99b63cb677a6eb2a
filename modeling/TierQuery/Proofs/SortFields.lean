import TierQuery.Proofs.Projection

/-! What rows are sorted by. The field of an ordering is looked up among the returned columns as it is
written, and else by its name. A column that reads the same under another spelling is found only if
its name is that of the field, and a column of that name is taken whatever it reads. -/

namespace TierQuery

namespace Plan

/-- Both paths read the same property on the same level. -/
def SameField (p : Plan) (path field : AttributePath) : Prop :=
  path.property = field.property ∧
    ∃ t, p.frame.canonical path.tier = .ok t ∧ p.frame.canonical field.tier = .ok t

/-- Rows are sorted by one column, in the direction of the field. What the column reads is what the
field reads exactly when a returned column is written like the field, or when the one that is named
like the field reads the same. -/
structure Finds (p : Plan) (returned : List AttributePath) (items : List (ReturnItem String))
    (o : OrderField) (x : OrderItem) : Prop where
  direction : x.descending = o.descending
  column : ∃ e, items.filter (·.name = x.name) = [⟨.value e, x.name⟩] ∧
    (p.Reads o.path e ↔ (∃ r ∈ returned, r.sameTarget o.path = true) ∨
      ∃ r ∈ returned, r.outputName = o.path.outputName ∧ p.SameField r o.path)

end Plan

theorem Query.nodup_returned {q : Query} (h : (q.outputs.map Output.name).Nodup) :
    (q.returned.map AttributePath.outputName).Nodup := by
  rw [outputs, List.map_append, List.map_map] at h
  exact (List.nodup_append.1 h).1

namespace Analysis

variable {q : Query} {p : Plan} {placed : List (Mention × Tier)} {e : Expr String}
  {r field : AttributePath}

/-- An expression reads two paths at once exactly when they are one field. -/
theorem reads_iff_sameField (h : Analysis q .rows p placed) (hr : p.Reads r e) :
    p.Reads field e ↔ p.SameField r field := by
  obtain ⟨l, hl, hc, rfl⟩ := hr
  refine ⟨?_, ?_⟩
  · rintro ⟨k, hk, hck, he⟩
    obtain ⟨hvar, hproperty⟩ := Expr.property.inj he
    obtain rfl : l = k := h.level_of_var hl hk hvar
    exact ⟨hproperty, l.tier, hc, hck⟩
  · rintro ⟨hproperty, t, ht, htf⟩
    obtain rfl : l.tier = t := Except.ok.inj (hc.symm.trans ht)
    exact ⟨l, hl, htf, by rw [hproperty]⟩

end Analysis

/-- The path that is found reads the field exactly when the field is found as it is written, or under
its name and rightly so. -/
theorem Plan.sameField_found_iff {q : Query} {p : Plan} {e : Expr String} {r field : AttributePath}
    (hn : (q.returned.map AttributePath.outputName).Nodup) (hr : p.Reads r e)
    (hf : findReturned? q.returned field = some r) :
    p.SameField r field ↔ (∃ r' ∈ q.returned, r'.sameTarget field = true) ∨
      ∃ r' ∈ q.returned, r'.outputName = field.outputName ∧ p.SameField r' field := by
  rcases Option.or_eq_some_iff.1 hf with hfound | ⟨hnone, hfound⟩
  · -- written alike, so also the same field
    have hmem := List.mem_of_find?_eq_some hfound
    have hsame : r.sameTarget field = true := by simpa using List.find?_some hfound
    have htarget : r.tier = field.tier ∧ r.property = field.property := by
      simpa [AttributePath.sameTarget] using hsame
    obtain ⟨l, -, hc, -⟩ := hr
    exact iff_of_true ⟨htarget.2, l.tier, hc, htarget.1 ▸ hc⟩ (Or.inl ⟨r, hmem, hsame⟩)
  · have hmem := List.mem_of_find?_eq_some hfound
    have hname : r.outputName = field.outputName := by simpa using List.find?_some hfound
    refine ⟨fun hs => Or.inr ⟨r, hmem, hname, hs⟩, ?_⟩
    rintro (⟨r', hr', hs⟩ | ⟨r', hr', hname', hs⟩)
    · exact absurd hs (List.find?_eq_none.1 hnone r' hr')
    · obtain rfl := List.inj_on_of_nodup_map hn hmem hr' (hname.trans hname'.symm)
      exact hs

/-- Every field of an ordering sorts by one returned column, and by what the field reads as long as
the lookup does not depend on how it is spelled. -/
theorem rows_are_sorted_as_spelled {q : Query} {s : Statement} (hs : q.statement = .ok s) :
    ∃ (p : Plan) (items : List (ReturnItem String)) (order : List OrderItem),
      q.plan .rows = .ok p ∧ s.body.tail = .select items order ∧
      List.Forall₂ p.Returns q.outputs items ∧
      List.Forall₂ (p.Finds q.returned items) q.ordering order := by
  obtain ⟨p, placed, items, h, hproj⟩ := Query.projects_of_statement hs
  obtain ⟨-, hnames, hordering⟩ :=
    Query.validate_rows_eq_ok_iff.1 (Query.compile_eq_ok_iff.1 hs).1
  refine ⟨p, items, _, Query.plan_eq_ok_iff.2 ⟨placed, h⟩, hproj.tail, hproj.returned, ?_⟩
  rw [Plan.orderItems, List.forall₂_map_right_iff]
  refine List.forall₂_same.2 fun o ho => ⟨rfl, ?_⟩
  obtain ⟨r, hf⟩ := hordering o ho
  have hnd : (items.map (·.name)).Nodup := by
    have honce := hproj.once
    rwa [Statement.columns, hproj.tail] at honce
  have hout : Output.path r ∈ q.outputs :=
    List.mem_append_left _ (List.mem_map_of_mem (findReturned?_eq_some hf).1)
  obtain ⟨x, hx, hret⟩ := forall₂_mem_left hproj.returned hout
  cases hret with
  | @path path e he =>
    refine ⟨e, ?_, ?_⟩
    · simp only [hf, Option.getD_some]
      exact Plan.filter_name hnd hx
    · rw [h.reads_iff_sameField he]
      exact Plan.sameField_found_iff (Query.nodup_returned hnames) he hf

/-- The word of a phone, as it is reached from the phone. -/
def Tier.wordOfPhone : Tier := (ofLevel "phone").hop (.up "word")

/-- Phones with the label of their word, in the order of the label of a tier. -/
def Query.phonesByLabelOf (tier : Tier) : Query :=
  ((Query.ofFind (.ofList ["phone", "word"]) (Tier.ofLevel "phone")).withColumns
    [Tier.wordOfPhone.attribute .label]).orderBy (tier.attribute .label) false

/-- What the statement for these phones returns. -/
def phoneAndWordLabels : List (ReturnItem String) :=
  [⟨.value (.property "node_phone" .id), "id"⟩, ⟨.value (.property "node_phone" .label), "label"⟩,
    ⟨.value (.property "node_phone_word" .label), "word_label"⟩]

theorem wordOfPhone_sorts_by_its_label :
    ∃ (s : Statement) (p : Plan), (Query.phonesByLabelOf .wordOfPhone).statement = .ok s ∧
      s.body.tail = .select phoneAndWordLabels [⟨"word_label", false⟩] ∧
      List.Forall₂ (p.Finds (Query.phonesByLabelOf .wordOfPhone).returned phoneAndWordLabels)
        (Query.phonesByLabelOf .wordOfPhone).ordering [⟨"word_label", false⟩] := by
  obtain ⟨s, hs, htail⟩ := exists_ok_of_toOption_map
    (x := (Query.phonesByLabelOf .wordOfPhone).statement)
    (g := (·.body.tail)) (b := .select phoneAndWordLabels [⟨"word_label", false⟩]) (by decide +kernel)
  obtain ⟨p, items, order, -, htail', -, hfinds⟩ := rows_are_sorted_as_spelled hs
  obtain ⟨rfl, rfl⟩ := Tail.select.inj (htail'.symm.trans htail)
  exact ⟨s, p, hs, htail, hfinds⟩

/-- Written without the phones the word is the same tier, and its label is returned. But now the field
is called like the label of the phones, and rows are sorted by that. -/
theorem bare_word_sorts_by_the_label_of_phones :
    ∃ (s : Statement) (p : Plan), (Query.phonesByLabelOf (.ofLevel "word")).statement = .ok s ∧
      (Query.phonesByLabelOf (.ofLevel "word")).plan .rows = .ok p ∧
      s.body.tail = .select phoneAndWordLabels [⟨"label", false⟩] ∧
      p.Reads ((Tier.ofLevel "word").attribute .label)
        (.property "node_phone_word" .label : Expr String) ∧
      ¬ p.Reads ((Tier.ofLevel "word").attribute .label)
        (.property "node_phone" .label : Expr String) := by
  obtain ⟨s, hs, htail⟩ := exists_ok_of_toOption_map
    (x := (Query.phonesByLabelOf (.ofLevel "word")).statement)
    (g := (·.body.tail)) (b := .select phoneAndWordLabels [⟨"label", false⟩]) (by decide +kernel)
  obtain ⟨p, hp, hfound⟩ := exists_ok_of_toOption_map
    (x := (Query.phonesByLabelOf (.ofLevel "word")).plan .rows)
    (g := fun p => (p.frame.canonical (.ofLevel "word"), p.table.levels.map fun l => (l.tier, l.var)))
    (b := (.ok .wordOfPhone, [(.ofLevel "phone", "node_phone"), (.wordOfPhone, "node_phone_word")]))
    (by decide +kernel)
  obtain ⟨hcanonical, hlevels⟩ := Prod.mk.inj hfound
  refine ⟨s, p, hs, hp, htail, ?_, ?_⟩
  · have hmem : (Tier.wordOfPhone, "node_phone_word")
        ∈ p.table.levels.map fun l => (l.tier, l.var) := by
      rw [hlevels]
      simp
    obtain ⟨l, hl, he⟩ := List.mem_map.1 hmem
    obtain ⟨ht, hv⟩ := Prod.mk.inj he
    exact ⟨l, hl, ht ▸ hcanonical, by rw [hv]; rfl⟩
  · rintro ⟨l, hl, hc, he⟩
    have ht : Tier.wordOfPhone = l.tier := Except.ok.inj (hcanonical.symm.trans hc)
    have hmem : (l.tier, l.var) ∈ p.table.levels.map fun l => (l.tier, l.var) :=
      List.mem_map_of_mem hl
    rw [hlevels, ← ht, ← (Expr.property.inj he).1] at hmem
    revert hmem
    decide

end TierQuery
