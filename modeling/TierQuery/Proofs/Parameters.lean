import TierQuery.Proofs.Names

/-! The parameter table. Numbering a statement only ever appends to the table, each parameter stands
in the table exactly where the text mentions it, and reading the names back through the table gives
the statement as it was with its literals. -/

namespace TierQuery

open Json (Value)

variable {π ρ α β : Type}

/-! Parameters mentioned, in the order of the text -/

def Expr.params : Expr π → List π
  | property _ _ => []
  | param p => [p]

def Predicate.params (p : Predicate π) : List π := p.left.params ++ p.right.params

def NodePattern.params (n : NodePattern π) : List π :=
  n.identity?.toList ++ n.inline.flatMap Predicate.params

def Constraint.params : Constraint π → List π
  | compare p => p.params
  | contains c => [c.param]

def ReturnExpr.params : ReturnExpr π → List π
  | value e => e.params
  | aggregate _ arg? => arg?.toList.flatMap Expr.params

def Tail.params : Tail π → List π
  | select items _ => items.flatMap (·.expr.params)
  | set _ assignments => assignments.map (·.param)
  | delete _ => []

namespace Body

/-- The parameters of nodes, constraints and filters. -/
def matchParams (b : Body π) : List π :=
  b.nodes.flatMap NodePattern.params ++ b.constraints.flatMap Constraint.params
    ++ b.filters.flatMap Predicate.params

/-- The parameters behind the filters. -/
def laterParams (b : Body π) : List π :=
  b.optional.flatMap (·.node.params) ++ b.tail.params

end Body

/-! Literals by themselves -/

abbrev Expr.values (e : Expr Literal) : Expr Value := e.replace (m := Id) Literal.value

abbrev Predicate.values (p : Predicate Literal) : Predicate Value :=
  p.replace (m := Id) Literal.value

abbrev NodePattern.values (n : NodePattern Literal) : NodePattern Value :=
  n.replace (m := Id) Literal.value

abbrev Constraint.values (c : Constraint Literal) : Constraint Value :=
  c.replace (m := Id) Literal.value

abbrev OptionalMatch.values (o : OptionalMatch Literal) : OptionalMatch Value :=
  o.replace (m := Id) Literal.value

abbrev Tail.values (t : Tail Literal) : Tail Value := t.replace (m := Id) Literal.value

abbrev Body.values (b : Body Literal) : Body Value := b.replace (m := Id) Literal.value

/-- Replacing in the identity monad is mapping. -/
theorem mapM_id {γ : Type} (g : α → Id γ) (xs : List α) : xs.mapM g = xs.map g := by
  induction xs with
  | nil => rfl
  | cons x xs ih =>
    rw [List.mapM_cons, ih]
    rfl

@[simp] theorem NodePattern.values_identity? (n : NodePattern Literal) :
    n.values.identity? = n.identity?.map (·.value) := by
  cases n with
  | mk level var labels identity? typeNode? inline => cases identity? <;> rfl

@[simp] theorem NodePattern.values_inline (n : NodePattern Literal) :
    n.values.inline = n.inline.map Predicate.values :=
  mapM_id _ n.inline

namespace Body

variable (b : Body Literal)

@[simp] theorem values_nodes : b.values.nodes = b.nodes.map NodePattern.values := mapM_id _ b.nodes

@[simp] theorem values_constraints :
    b.values.constraints = b.constraints.map Constraint.values :=
  mapM_id _ b.constraints

@[simp] theorem values_filters : b.values.filters = b.filters.map Predicate.values :=
  mapM_id _ b.filters

@[simp] theorem values_optional : b.values.optional = b.optional.map OptionalMatch.values :=
  mapM_id _ b.optional

end Body

/-! The table -/

namespace Bindings

/-- The n-th name ends in n. -/
def Numbered (b : Bindings) : Prop :=
  ∀ n e, b.entries[n]? = some e → ∃ hint, e.1 = parameterName hint n

theorem numbered_empty : Numbered empty := by
  intro n e h
  simp [empty] at h

end Bindings

theorem bindEntry_of_notMem {name : String} {v : Value} {es : List (String × Value)}
    (h : name ∉ es.map Prod.fst) : bindEntry name v es = es ++ [(name, v)] := by
  induction es with
  | nil => rfl
  | cons e es ih =>
    simp only [List.map_cons, List.mem_cons, not_or] at h
    simp [bindEntry, Ne.symm h.1, ih h.2]

theorem member?_eq_some_of_mem {es : List (String × Value)} (h : (es.map Prod.fst).Nodup)
    {e : String × Value} (he : e ∈ es) : Value.member? es e.1 = some e.2 := by
  induction es with
  | nil => simp at he
  | cons d es ih =>
    simp only [List.map_cons, List.nodup_cons] at h
    rcases List.mem_cons.1 he with rfl | he
    · simp [Value.member?]
    · have hne : d.1 ≠ e.1 := fun hd => h.1 (hd ▸ List.mem_map_of_mem he)
      have := ih h.2 he
      simpa [Value.member?, List.find?_cons, hne] using this

namespace Bindings

theorem get?_eq_some_of_mem {b : Bindings} {e : String × Value} (h : e ∈ b.entries) :
    b.get? e.1 = some e.2 :=
  member?_eq_some_of_mem b.distinctNames h

/-- The next name is new, so that pushing appends. -/
theorem entries_push {b : Bindings} (hb : b.Numbered) (hint : String) (v : Value) :
    (b.push hint v).2.entries = b.entries ++ [(parameterName hint b.size, v)] := by
  apply bindEntry_of_notMem
  intro hm
  obtain ⟨e, he, heq⟩ := List.mem_map.1 hm
  obtain ⟨n, hn⟩ := List.mem_iff_getElem?.1 he
  obtain ⟨other, hother⟩ := hb n e hn
  have hlt := (List.getElem?_eq_some_iff.1 hn).1
  have : n = b.size := parameterName_injective (hother.symm.trans heq)
  exact absurd hlt (by simp [this, size])

theorem numbered_push {b : Bindings} (hb : b.Numbered) (hint : String) (v : Value) :
    (b.push hint v).2.Numbered := by
  intro n e hn
  rw [entries_push hb] at hn
  rcases Nat.lt_or_ge n b.entries.length with hlt | hge
  · rw [List.getElem?_append_left hlt] at hn
    exact hb n e hn
  · have hn0 : n = b.entries.length := by
      have := (List.getElem?_eq_some_iff.1 hn).1
      simp only [List.length_append, List.length_singleton] at this
      omega
    subst hn0
    obtain rfl : (parameterName hint b.size, v) = e := by simpa using hn
    exact ⟨hint, rfl⟩

end Bindings

/-! Numbering -/

/-- Started from a numbered table, `x` only appends to it, and its result and what it appends are in
the relation `P`. -/
def Emits (x : Numbering α) (P : α → List (String × Value) → Prop) : Prop :=
  ∀ b a b', b.Numbered → x.run b = (a, b') →
    ∃ added, b'.entries = b.entries ++ added ∧ b'.Numbered ∧ P a added

namespace Emits

theorem pure {a : α} {P : α → List (String × Value) → Prop} (h : P a []) :
    Emits (Pure.pure a) P := by
  intro b a' b' hb hr
  cases hr
  exact ⟨[], by simp, hb, h⟩

theorem bind {x : Numbering α} {g : α → Numbering β} {P : α → List (String × Value) → Prop}
    {Q : β → List (String × Value) → Prop} (hx : Emits x P)
    (hg : ∀ a added, P a added → Emits (g a) fun c more => Q c (added ++ more)) :
    Emits (x >>= g) Q := by
  intro b c b'' hb hr
  obtain ⟨a, b', hxb⟩ : ∃ a b', x.run b = (a, b') := ⟨_, _, rfl⟩
  obtain ⟨added, he, hb', hP⟩ := hx b a b' hb hxb
  have hgr : (g a).run b' = (c, b'') := by rw [StateT.run_bind, hxb] at hr; exact hr
  obtain ⟨more, he', hb'', hQ⟩ := hg a added hP b' c b'' hb' hgr
  exact ⟨added ++ more, by rw [he', he, List.append_assoc], hb'', hQ⟩

end Emits

/-- The result mentions exactly what was appended, and reads back as `y`. -/
def ReadsBack (params : α → List String) (read : (String → Option Value) → α → Option β) (y : β)
    (a : α) (added : List (String × Value)) : Prop :=
  params a = added.map Prod.fst ∧ ∀ g, (∀ e ∈ added, g e.1 = some e.2) → read g a = some y

theorem Literal.emits (l : Literal) :
    Emits l.number (ReadsBack (fun n => [n]) (fun g n => g n) l.value) := by
  intro b a b' hb hr
  cases hr
  refine ⟨_, Bindings.entries_push hb _ _, Bindings.numbered_push hb _ _, rfl, fun g hg => ?_⟩
  exact hg _ (List.mem_singleton_self _)

/-- A traversal of parts. -/
theorem emits_mapM {γ : Type} {params : α → List String}
    {read : (String → Option Value) → α → Option β} {number : γ → Numbering α} {value : γ → β}
    (h : ∀ x, Emits (number x) (ReadsBack params read (value x))) (xs : List γ) :
    Emits (xs.mapM number)
      (ReadsBack (List.flatMap params) (fun g as => as.mapM (read g)) (xs.map value)) := by
  induction xs with
  | nil =>
    rw [List.mapM_nil]
    exact Emits.pure ⟨rfl, fun g _ => rfl⟩
  | cons x xs ih =>
    rw [List.mapM_cons]
    refine (h x).bind fun a added ha => ih.bind fun as more has => Emits.pure ⟨?_, fun g hg => ?_⟩
    · simp [ha.1, has.1]
    · have hg1 := ha.2 g fun e he => hg e (by simp [he])
      have hg2 := has.2 g fun e he => hg e (by simp [he])
      simp only [List.mapM_cons, hg1, hg2]
      rfl

theorem emits_mapM_option {γ : Type} {params : α → List String}
    {read : (String → Option Value) → α → Option β} {number : γ → Numbering α} {value : γ → β}
    (h : ∀ x, Emits (number x) (ReadsBack params read (value x))) (x? : Option γ) :
    Emits (x?.mapM number)
      (ReadsBack (fun a? => a?.toList.flatMap params) (fun g a? => a?.mapM (read g))
        (x?.map value)) := by
  cases x? with
  | none => exact Emits.pure ⟨rfl, fun g _ => rfl⟩
  | some x =>
    refine (h x).bind fun a added ha => Emits.pure ⟨by simp [ha.1], fun g hg => ?_⟩
    have hread := ha.2 g fun e he => hg e (by simp [he])
    simp [hread]

/-- A part put into a whole that mentions nothing else. -/
theorem emits_wrap {γ δ : Type} {params : α → List String} {params' : γ → List String}
    {read : (String → Option Value) → α → Option β} {read' : (String → Option Value) → γ → Option δ}
    {y : β} {z : δ} {x : Numbering α} (hx : Emits x (ReadsBack params read y)) (wrap : α → γ)
    (hp : ∀ a, params' (wrap a) = params a)
    (hr : ∀ g a, read g a = some y → read' g (wrap a) = some z) :
    Emits (x >>= fun a => pure (wrap a)) (ReadsBack params' read' z) := by
  refine hx.bind fun a added ha => Emits.pure ⟨?_, fun g hg => hr g a (ha.2 g fun e he => ?_)⟩
  · simp [hp, ha.1]
  · exact hg e (by simp [he])

theorem Expr.emits (e : Expr Literal) :
    Emits (e.replace Literal.number)
      (ReadsBack params (fun g e => e.replace g) e.values) := by
  cases e with
  | property var p => exact Emits.pure ⟨rfl, fun g _ => rfl⟩
  | param l =>
    refine emits_wrap l.emits param (fun _ => rfl) fun g n h => ?_
    simp only [replace, h]
    rfl

theorem Predicate.emits (p : Predicate Literal) :
    Emits (p.replace Literal.number)
      (ReadsBack params (fun g p => p.replace g) p.values) := by
  refine p.left.emits.bind fun l added hl => p.right.emits.bind fun r more hr =>
    Emits.pure ⟨by simp [params, hl.1, hr.1], fun g hg => ?_⟩
  have hl' := hl.2 g fun e he => hg e (by simp [he])
  have hr' := hr.2 g fun e he => hg e (by simp [he])
  simp only [replace, hl', hr']
  rfl

theorem NodePattern.emits (n : NodePattern Literal) :
    Emits (n.replace Literal.number)
      (ReadsBack params (fun g n => n.replace g) n.values) := by
  refine (emits_mapM_option Literal.emits n.identity?).bind fun i added hi =>
    (emits_mapM Predicate.emits n.inline).bind fun ps more hps =>
      Emits.pure ⟨?_, fun g hg => ?_⟩
  · have := hi.1
    simp only [List.flatMap_singleton'] at this
    simp [params, this, hps.1]
  · have hi' := hi.2 g fun e he => hg e (by simp [he])
    have hps' := hps.2 g fun e he => hg e (by simp [he])
    simp only [replace, hi', hps', mapM_id]
    cases n.identity? <;> rfl

theorem Constraint.emits (c : Constraint Literal) :
    Emits (c.replace Literal.number)
      (ReadsBack params (fun g c => c.replace g) c.values) := by
  cases c with
  | compare p =>
    refine emits_wrap p.emits compare (fun _ => rfl) fun g q h => ?_
    simp only [replace, h]
    rfl
  | contains c =>
    have hc : Emits (c.replace Literal.number) (ReadsBack (fun c => [c.param])
        (fun g c => c.replace g) (c.replace (m := Id) Literal.value)) := by
      refine emits_wrap c.param.emits _ (fun _ => rfl) fun g n h => ?_
      simp only [Containment.replace, h]
      rfl
    refine emits_wrap hc contains (fun _ => rfl) fun g d h => ?_
    simp only [replace, h]
    rfl

theorem OptionalMatch.emits (o : OptionalMatch Literal) :
    Emits (o.replace Literal.number)
      (ReadsBack (fun o => o.node.params) (fun g o => o.replace g)
        o.values) := by
  refine emits_wrap o.node.emits _ (fun _ => rfl) fun g n h => ?_
  simp only [replace, h]
  rfl

theorem ReturnExpr.emits (e : ReturnExpr Literal) :
    Emits (e.replace Literal.number)
      (ReadsBack params (fun g e => e.replace g) (e.replace (m := Id) Literal.value)) := by
  cases e with
  | value e =>
    refine emits_wrap e.emits value (fun _ => rfl) fun g e' h => ?_
    simp only [replace, h]
    rfl
  | aggregate function arg? =>
    refine emits_wrap (emits_mapM_option Expr.emits arg?) (aggregate function) (fun _ => rfl)
      fun g a h => ?_
    simp only [replace, h]
    cases arg? <;> rfl

theorem ReturnItem.emits (i : ReturnItem Literal) :
    Emits (i.replace Literal.number)
      (ReadsBack (fun i => i.expr.params) (fun g i => i.replace g)
        (i.replace (m := Id) Literal.value)) := by
  refine emits_wrap i.expr.emits _ (fun _ => rfl) fun g e h => ?_
  simp only [replace, h]
  rfl

theorem Assignment.emits (a : Assignment Literal) :
    Emits (a.replace Literal.number)
      (ReadsBack (fun a => [a.param]) (fun g a => a.replace g)
        (a.replace (m := Id) Literal.value)) := by
  refine emits_wrap a.param.emits _ (fun _ => rfl) fun g n h => ?_
  simp only [replace, h]
  rfl

theorem Tail.emits (t : Tail Literal) :
    Emits (t.replace Literal.number)
      (ReadsBack params (fun g t => t.replace g) t.values) := by
  cases t with
  | select items order =>
    refine emits_wrap (emits_mapM ReturnItem.emits items) (select · order) (fun _ => rfl)
      fun g is h => ?_
    simp only [replace, h, mapM_id]
    rfl
  | set link? assignments =>
    refine emits_wrap (emits_mapM Assignment.emits assignments) (set link?)
      (fun as => by simp [params, List.map_eq_flatMap]) fun g as h => ?_
    simp only [replace, h, mapM_id]
    rfl
  | delete var => exact Emits.pure ⟨rfl, fun g _ => rfl⟩

namespace Statement

/-- The numbering of the match section. It looks at nothing behind the filters. -/
def numberMatch (nodes : List (NodePattern Literal)) (constraints : List (Constraint Literal))
    (filters : List (Predicate Literal)) :
    Numbering (List (NodePattern String) × List (Constraint String) × List (Predicate String)) := do
  let ns ← nodes.mapM (·.replace Literal.number)
  let cs ← constraints.mapM (·.replace Literal.number)
  let fs ← filters.mapM (·.replace Literal.number)
  return (ns, cs, fs)

def numberLater (optional : List (OptionalMatch Literal)) (tail : Tail Literal) :
    Numbering (List (OptionalMatch String) × Tail String) := do
  let os ← optional.mapM (·.replace Literal.number)
  let t ← tail.replace Literal.number
  return (os, t)

theorem numberMatch_emits (b : Body Literal) :
    Emits (numberMatch b.nodes b.constraints b.filters)
      (ReadsBack
        (fun m => m.1.flatMap NodePattern.params ++ m.2.1.flatMap Constraint.params
          ++ m.2.2.flatMap Predicate.params)
        (fun g m => do
          return (← m.1.mapM (·.replace g), ← m.2.1.mapM (·.replace g), ← m.2.2.mapM (·.replace g)))
        (b.nodes.map NodePattern.values, b.constraints.map Constraint.values,
          b.filters.map Predicate.values)) := by
  refine (emits_mapM NodePattern.emits b.nodes).bind fun ns a1 h1 =>
    (emits_mapM Constraint.emits b.constraints).bind fun cs a2 h2 =>
      (emits_mapM Predicate.emits b.filters).bind fun fs a3 h3 =>
        Emits.pure ⟨by simp [h1.1, h2.1, h3.1], fun g hg => ?_⟩
  have h1' := h1.2 g fun e he => hg e (by simp [he])
  have h2' := h2.2 g fun e he => hg e (by simp [he])
  have h3' := h3.2 g fun e he => hg e (by simp [he])
  simp only [h1', h2', h3']
  rfl

theorem numberLater_emits (b : Body Literal) :
    Emits (numberLater b.optional b.tail)
      (ReadsBack (fun r => r.1.flatMap (·.node.params) ++ r.2.params)
        (fun g r => do return (← r.1.mapM (·.replace g), ← r.2.replace g))
        (b.optional.map OptionalMatch.values, b.tail.values)) := by
  refine (emits_mapM OptionalMatch.emits b.optional).bind fun os a1 h1 =>
    b.tail.emits.bind fun t a2 h2 => Emits.pure ⟨by simp [h1.1, h2.1], fun g hg => ?_⟩
  have h1' := h1.2 g fun e he => hg e (by simp [he])
  have h2' := h2.2 g fun e he => hg e (by simp [he])
  simp only [h1', h2']
  rfl

/-- The two halves of a numbering: what is matched, and what comes after it. -/
theorem ofBody_eq (b : Body Literal) :
    ∃ ns cs fs t os tl t',
      (numberMatch b.nodes b.constraints b.filters).run .empty = ((ns, cs, fs), t) ∧
      (numberLater b.optional b.tail).run t = ((os, tl), t') ∧
      ofBody b = ⟨⟨ns, b.edges, cs, fs, os, tl⟩, t'⟩ :=
  ⟨_, _, _, _, _, _, _, rfl, rfl, rfl⟩

/-- The parameters of the match section open the table, those behind it close it. -/
theorem params_ofBody (b : Body Literal) :
    ∃ t later, (numberMatch b.nodes b.constraints b.filters).run .empty =
        (((ofBody b).body.nodes, (ofBody b).body.constraints, (ofBody b).body.filters), t) ∧
      (ofBody b).params.entries = t.entries ++ later ∧
      t.entries.map Prod.fst = (ofBody b).body.matchParams ∧
      later.map Prod.fst = (ofBody b).body.laterParams := by
  obtain ⟨ns, cs, fs, t, os, tl, t', hm, hl, he⟩ := ofBody_eq b
  obtain ⟨a, ha, ht, hpa, -⟩ := numberMatch_emits b _ _ _ Bindings.numbered_empty hm
  obtain ⟨a', ha', -, hpa', -⟩ := numberLater_emits b _ _ _ ht hl
  rw [he]
  refine ⟨t, a', hm, ha', ?_, hpa'.symm⟩
  rw [ha]
  exact hpa.symm

/-- The statement with every parameter replaced by its value in the table. -/
def resolved (s : Statement) : Option (Body Value) := s.body.replace s.params.get?

theorem resolved_ofBody (b : Body Literal) :
    (ofBody b).resolved = some b.values := by
  obtain ⟨ns, cs, fs, t, os, tl, t', hm, hl, he⟩ := ofBody_eq b
  obtain ⟨a, ha, ht, -, hra⟩ := numberMatch_emits b _ _ _ Bindings.numbered_empty hm
  obtain ⟨a', ha', -, -, hra'⟩ := numberLater_emits b _ _ _ ht hl
  have hget (e : String × Value) (h : e ∈ a ∨ e ∈ a') : t'.get? e.1 = some e.2 := by
    apply Bindings.get?_eq_some_of_mem
    rw [ha', ha]
    simpa [Bindings.empty] using h
  have hr := hra t'.get? fun e h => hget e (Or.inl h)
  have hr' := hra' t'.get? fun e h => hget e (Or.inr h)
  simp only [Option.bind_eq_bind, Option.bind_eq_some_iff, Option.pure_def, Option.some.injEq,
    Prod.mk.injEq] at hr hr'
  obtain ⟨ns', hns, cs', hcs, fs', hfs, rfl, rfl, rfl⟩ := hr
  obtain ⟨os', hos, tl', htl, rfl, rfl⟩ := hr'
  simp only [he, resolved, Body.replace, hns, hcs, hfs, hos, htl, mapM_id]
  rfl

end Statement

end TierQuery
