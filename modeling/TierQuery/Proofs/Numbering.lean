import TierQuery.Proofs.Criteria
import TierQuery.Proofs.Clauses
import TierQuery.Proofs.Spelling

/-! Every parameter of a compiled statement has its own number. The statement refers to its
parameters in the order in which the table has them, and to nothing else, and each stands for the
value of the criterion, label or property that it was made from. -/

namespace TierQuery

open Json (Value)

variable {π : Type}

/-! Parameters referred to -/

def Tail.assignments : Tail π → List (Assignment π)
  | select _ _ | delete _ => []
  | set _ assignments => assignments

/-- The parameters referred to: per node its identity and then its conditions, constraints, filters,
conditions of optional nodes, assignments. -/
def Body.references (b : Body π) : List π :=
  b.nodes.flatMap (fun n => n.identity?.toList ++ n.inline.flatMap Predicate.params)
    ++ b.constraints.flatMap Constraint.params
    ++ b.filters.flatMap Predicate.params
    ++ b.optional.flatMap (fun o => o.node.inline.flatMap Predicate.params)
    ++ b.tail.assignments.map (·.param)

/-- Optional nodes are not pinned, and nothing returned is a parameter. -/
structure Body.Plain (b : Body π) : Prop where
  optional : ∀ o ∈ b.optional, o.node.identity? = none
  tail : ∀ items order, b.tail = .select items order → ∀ x ∈ items, x.expr.params = []

theorem Body.Plain.references_eq {b : Body π} (h : b.Plain) :
    b.references = b.matchParams ++ b.laterParams := by
  have hoptional : b.optional.flatMap (fun o => o.node.inline.flatMap Predicate.params)
      = b.optional.flatMap (·.node.params) := by
    apply List.flatMap_congr
    intro o ho
    rw [NodePattern.params, h.optional o ho]
    rfl
  have htail : b.tail.assignments.map (·.param) = b.tail.params := by
    cases ht : b.tail with
    | select items order =>
      symm
      exact List.flatMap_eq_nil_iff.2 (h.tail items order ht)
    | set link? assignments => rfl
    | delete var => rfl
  rw [references, hoptional, htail, matchParams, laterParams]
  simp only [List.append_assoc]
  rfl

/-! Numbering adds no references -/

theorem Expr.yields_params (e : Expr Literal) :
    Yields (e.replace Literal.number) fun e' => e'.params.length = e.params.length := by
  cases e with
  | property var p => exact .pure rfl
  | param l => exact (Yields.trivial _).bind fun _ _ => .pure rfl

theorem ReturnExpr.yields_params (e : ReturnExpr Literal) :
    Yields (e.replace Literal.number) fun e' => e'.params.length = e.params.length := by
  cases e with
  | value e => exact e.yields_params.bind fun e' he => .pure he
  | aggregate function arg? =>
    cases arg? with
    | none => exact .pure rfl
    | some e =>
      have hsome : Yields ((some e).mapM (·.replace Literal.number))
          fun a? => (a?.toList.flatMap Expr.params).length = e.params.length :=
        e.yields_params.bind fun e' he => .pure (by simpa using he)
      exact hsome.bind fun a? ha => .pure (by simpa [params] using ha)

theorem OptionalMatch.yields_identity (o : OptionalMatch Literal) :
    Yields (o.replace Literal.number)
      fun o' => o'.node.identity?.isSome = o.node.identity?.isSome := by
  have hidentity : Yields (o.node.identity?.mapM Literal.number)
      fun n? => n?.isSome = o.node.identity?.isSome := by
    cases o.node.identity? with
    | none => exact .pure rfl
    | some l => exact fun _ => rfl
  have hnode : Yields (o.node.replace Literal.number)
      fun n => n.identity?.isSome = o.node.identity?.isSome :=
    hidentity.bind fun _ hi => (Yields.trivial _).bind fun _ _ => .pure hi
  exact hnode.bind fun _ hn => .pure hn

theorem Tail.yields_params (t : Tail Literal)  :
    Yields (t.replace Literal.number) fun t' =>
      ∀ items' order', t' = .select items' order' → ∃ items order, t = .select items order ∧
        items'.map (·.expr.params.length) = items.map (·.expr.params.length) := by
  cases t with
  | select items order =>
    have hitem (x : ReturnItem Literal) : Yields (x.replace Literal.number)
        fun x' => x'.expr.params.length = x.expr.params.length :=
      x.expr.yields_params.bind fun _ he => .pure he
    refine (Yields.mapM hitem items).bind fun items' hitems => .pure ?_
    rintro _ _ ⟨⟩
    exact ⟨items, order, rfl, hitems⟩
  | set link? assignments => exact (Yields.trivial _).bind fun _ _ => .pure nofun
  | delete var => exact .pure nofun

theorem Statement.plain_ofBody {b : Body Literal} (h : b.Plain) : (ofBody b).body.Plain := by
  have hyields : Yields (b.replace Literal.number) fun b' =>
      b'.optional.map (·.node.identity?.isSome) = b.optional.map (·.node.identity?.isSome) ∧
      ∀ items' order', b'.tail = .select items' order' →
        ∃ items order, b.tail = .select items order ∧
          items'.map (·.expr.params.length) = items.map (·.expr.params.length) :=
    (Yields.trivial _).bind fun _ _ => (Yields.trivial _).bind fun _ _ =>
      (Yields.trivial _).bind fun _ _ =>
        (Yields.mapM OptionalMatch.yields_identity b.optional).bind fun _ ho =>
          b.tail.yields_params.bind fun _ ht => .pure ⟨ho, ht⟩
  obtain ⟨hoptional, htail⟩ := hyields .empty
  refine ⟨fun o ho => ?_, fun items' order' he x hx => ?_⟩
  · have hmem : o.node.identity?.isSome ∈ b.optional.map (·.node.identity?.isSome) :=
      hoptional ▸ List.mem_map_of_mem ho
    obtain ⟨o', ho', hsome⟩ := List.mem_map.1 hmem
    rw [h.optional o' ho'] at hsome
    simpa using hsome.symm
  · obtain ⟨items, order, ht, hitems⟩ := htail items' order' he
    have hmem : x.expr.params.length ∈ items.map (·.expr.params.length) :=
      hitems ▸ List.mem_map_of_mem hx
    obtain ⟨x', hx', hlength⟩ := List.mem_map.1 hmem
    rw [h.tail items order ht x' hx'] at hlength
    simpa using hlength.symm

/-! A draft is plain -/

theorem Plan.identity_of_optionalMatch {p : Plan} {l : LevelId × Level} {o : OptionalMatch Literal}
    (h : p.optionalMatch l = .ok (some o)) : o.node.identity? = none := by
  obtain ⟨n, hn, h⟩ := bind_eq_ok_iff.1 h
  obtain ⟨own, -, hn⟩ := bind_eq_ok_iff.1 hn
  obtain ⟨added, -, hn⟩ := bind_eq_ok_iff.1 hn
  cases hn
  obtain ⟨e, -, rfl⟩ := Option.map_eq_some_iff.1 (Except.ok.inj h)
  rfl

theorem Plan.params_pathExpr {p : Plan} {path : AttributePath} {e : Expr Literal}
    (h : p.pathExpr path = .ok e) : e.params = [] := by
  obtain ⟨v, -, h⟩ := bind_eq_ok_iff.1 h
  cases h
  rfl

theorem Plan.params_aggregate {p : Plan} {a : Aggregate} {x : ReturnItem Literal}
    (h : p.aggregate a = .ok x) : x.expr.params = [] := by
  obtain ⟨arg?, harg, h⟩ := bind_eq_ok_iff.1 h
  cases h
  cases hpath : a.path? with
  | none =>
    rw [hpath] at harg
    cases harg
    rfl
  | some path =>
    rw [hpath] at harg
    obtain ⟨e, he, harg⟩ := bind_eq_ok_iff.1 harg
    cases harg
    simpa [ReturnExpr.params] using Plan.params_pathExpr he

theorem Plan.params_tail {p : Plan} {q : Query} {i : Intent} {items : List (ReturnItem Literal)}
    {order : List OrderItem} (h : p.tail q i = .ok (.select items order)) :
    ∀ x ∈ items, x.expr.params = [] := by
  cases i with
  | rows =>
    obtain ⟨items', order', he, hitems⟩ := Plan.rowsTail_eq_ok h
    cases he
    intro x hx
    rcases hitems x hx with ⟨path, hcolumn⟩ | ⟨a, haggregate⟩
    · obtain ⟨e, he, hcolumn⟩ := bind_eq_ok_iff.1 hcolumn
      cases hcolumn
      exact Plan.params_pathExpr he
    · exact Plan.params_aggregate haggregate
  | count =>
    cases h
    intro x hx
    rw [List.mem_singleton.1 hx]
    rfl
  | mutation =>
    have h := Except.ok.inj h
    unfold mutationTail at h
    split at h <;> cases h

theorem Plan.plain_body {p : Plan} {q : Query} {i : Intent} {b : Body Literal}
    (h : p.body q i = .ok b) : b.Plain := by
  obtain ⟨-, ⟨os, hos, ho⟩, ht⟩ := Plan.body_eq_ok_iff.1 h
  refine ⟨fun o hmem => ?_, fun items order he => ?_⟩
  · rw [ho] at hmem
    obtain ⟨o?, ho?, hsome⟩ := List.mem_filterMap.1 hmem
    obtain ⟨l, -, hl⟩ := forall₂_mem_right (mapM_eq_ok_iff.1 hos) ho?
    obtain rfl : o? = some o := hsome
    exact Plan.identity_of_optionalMatch hl
  · rw [he] at ht
    exact Plan.params_tail ht

/-! The table -/

theorem Statement.numbered_ofBody (b : Body Literal) : (ofBody b).params.Numbered := by
  obtain ⟨ns, cs, fs, t, os, tl, t', hm, hl, he⟩ := ofBody_eq b
  obtain ⟨-, -, ht, -⟩ := numberMatch_emits b _ _ _ Bindings.numbered_empty hm
  obtain ⟨-, -, ht', -⟩ := numberLater_emits b _ _ _ ht hl
  rw [he]
  exact ht'

theorem Statement.names_ofBody (b : Body Literal) :
    (ofBody b).params.names = (ofBody b).body.matchParams ++ (ofBody b).body.laterParams := by
  obtain ⟨t, later, -, he, hm, hl⟩ := params_ofBody b
  rw [Bindings.names, he, List.map_append, hm, hl]

/-- What a write assigns: its properties, to the type of the first level and to the level itself. -/
def Plan.updates (p : Plan) (m : Mutation) : List (Assignment Value) :=
  m.typeProperties.entries.map (fun e => ⟨p.table.root.typeVar, e.1, e.2⟩)
    ++ m.tokenProperties.entries.map fun e => ⟨p.table.root.var, e.1, e.2⟩

theorem Plan.assignments_values {p : Plan} {q : Query} {i : Intent} {t : Tail Literal}
    (h : p.tail q i = .ok t) :
    t.values.assignments =
      if i = .mutation ∧ q.mutation.delete = false then p.updates q.mutation else [] := by
  cases i with
  | rows =>
    obtain ⟨items, order, rfl, -⟩ := Plan.rowsTail_eq_ok h
    rfl
  | count =>
    cases h
    rfl
  | mutation =>
    cases h
    unfold mutationTail
    by_cases hd : q.mutation.delete = true
    · rw [if_pos hd, if_neg (by simp [hd])]
      rfl
    · have hvalues (link? : Option TypeLink) (as : List (Assignment Literal)) :
          (Tail.set link? as).values.assignments = as.map fun a => ⟨a.var, a.key, a.param.value⟩ :=
        mapM_id _ as
      rw [if_neg hd, if_pos ⟨rfl, by simpa using hd⟩, hvalues]
      simp [updates, Plan.assignments, Function.comp_def]

/-- The parameters of a compiled statement, in the order in which its text mentions them, are
exactly the names of its table, each there once. The k-th name ends in k, and no two numbers share a
name. With the values in place of the names the sections say what the criteria say, and the
assignments are those of the mutation. -/
theorem parameters_are_numbered_in_text_order {q : Query} {i : Intent} {s : Statement}
    (hs : q.compile i = .ok s) :
    s.body.references = s.params.names ∧ s.params.names.Nodup ∧
      (∃ text, Spells text s.params.names ∧ text id = s.text ∧
        ∀ f, text f = (⟨s.body.replace (m := Id) f, s.params⟩ : Statement).text) ∧
      (∀ (k : Nat) n, s.params.names[k]? = some n →
        ∃ hint, n = Identifier.snakeCase hint ++ "_" ++ toString k) ∧
      (∀ hint hint' m n, m ≠ n → parameterName hint m ≠ parameterName hint' n) ∧
      ∃ p v, q.plan i = .ok p ∧ s.resolved = some v ∧ p.Expresses q.criteria v ∧
        v.tail.assignments =
          if i = .mutation ∧ q.mutation.delete = false then p.updates q.mutation else [] := by
  obtain ⟨-, p, b, hp, hb, rfl⟩ := Query.compile_eq_ok_iff.1 hs
  obtain ⟨placed, h⟩ := Query.plan_eq_ok_iff.1 hp
  have hnames := Statement.names_ofBody b
  refine ⟨?_, (Statement.ofBody b).params.distinctNames, ?_, ?_, ?_, p, b.values, hp,
    Statement.resolved_ofBody b, h.expresses hb, ?_⟩
  · rw [(Statement.plain_ofBody (Plan.plain_body hb)).references_eq, hnames]
  · refine ⟨_, hnames ▸ (Statement.ofBody b).body.spells, ?_, fun f => rfl⟩
    rw [Body.replace_id]
  · intro k n hk
    rw [Bindings.names, List.getElem?_map, Option.map_eq_some_iff] at hk
    obtain ⟨e, he, rfl⟩ := hk
    exact Statement.numbered_ofBody b k e he
  · exact fun hint hint' m n hne h => hne (parameterName_injective h)
  · exact Plan.assignments_values (Plan.body_eq_ok_iff.1 hb).2.2

theorem relabelBeforePause_numbers_its_parameters :
    ∃ s, Query.relabelBeforePause.compile .mutation = .ok s ∧
      s.body.references = s.params.names ∧ s.params.names =
        ["id_0", "discourse_1", "discourse_2", "discourse_3", "label_4", "set_label_5"] := by
  obtain ⟨s, hs, hnames⟩ := exists_ok_of_toOption_map
    (x := Query.relabelBeforePause.compile .mutation) (g := (·.params.names))
    (b := ["id_0", "discourse_1", "discourse_2", "discourse_3", "label_4", "set_label_5"])
    (by decide +kernel)
  exact ⟨s, hs, (parameters_are_numbered_in_text_order hs).1, hnames⟩

end TierQuery
