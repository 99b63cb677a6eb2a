import TierQuery.Proofs.Clauses
import TierQuery.Proofs.Criteria

/-! Lowering fails on a conflict of discourses only, and whatever it returns is well scoped. Every
spelling has a level, the required levels are matched before anything mentions them, and an optional
level comes after the one that it is reached from. -/

namespace TierQuery

open Json (Value)

variable {α β π : Type}

/-- The result has the property, or a level would be of two discourses. -/
def Lowers (x : Except CompileError α) (P : α → Prop) : Prop :=
  (∃ a, x = .ok a ∧ P a) ∨ ∃ d d', x = .error (.conflictingDiscourse d d')

namespace Lowers

theorem ok {x : Except CompileError α} {P : α → Prop} {a : α} (hx : x = .ok a) (ha : P a) :
    Lowers x P :=
  Or.inl ⟨a, hx, ha⟩

theorem bind {x : Except CompileError α} {g : α → Except CompileError β} {P : α → Prop}
    {Q : β → Prop} (hx : Lowers x P) (hg : ∀ a, P a → Lowers (g a) Q) : Lowers (x >>= g) Q := by
  rcases hx with ⟨a, rfl, ha⟩ | ⟨d, d', rfl⟩
  · exact hg a ha
  · exact Or.inr ⟨d, d', rfl⟩

theorem mapM {g : α → Except CompileError β} {R : α → β → Prop} {xs : List α}
    (h : ∀ x ∈ xs, Lowers (g x) (R x)) : Lowers (xs.mapM g) (List.Forall₂ R xs) := by
  induction xs with
  | nil => exact .ok rfl .nil
  | cons x xs ih =>
    rw [List.mapM_cons]
    refine (h x List.mem_cons_self).bind fun y hy => ?_
    refine (ih fun z hz => h z (List.mem_cons_of_mem _ hz)).bind fun ys hys => ?_
    exact .ok rfl (.cons hy hys)

theorem mapM_all {g : α → Except CompileError β} {P : β → Prop} {xs : List α}
    (h : ∀ x ∈ xs, Lowers (g x) P) : Lowers (xs.mapM g) fun ys => ∀ y ∈ ys, P y := by
  induction xs with
  | nil => exact .ok rfl (by simp)
  | cons x xs ih =>
    rw [List.mapM_cons]
    refine (h x List.mem_cons_self).bind fun y hy => ?_
    refine (ih fun z hz => h z (List.mem_cons_of_mem _ hz)).bind fun ys hys => ?_
    exact .ok rfl (List.forall_mem_cons.2 ⟨hy, hys⟩)

end Lowers

/-! Variables of a level -/

def Level.typeVar? (l : Level) : Option String :=
  if l.tier.typeSubsets.isEmpty then none else some l.typeVar

/-- The variables that the node of a level binds. -/
def Level.binds (l : Level) : List String := l.var :: l.typeVar?.toList

theorem Level.typeVar?_eq_some {l : Level} {v : String} (h : l.typeVar? = some v) :
    v = l.typeVar := by
  unfold typeVar? at h
  split at h
  · cases h
  · exact (Option.some.inj h).symm

theorem Level.mem_binds {l : Level} {v : String} :
    v ∈ l.binds ↔ v = l.var ∨ l.typeVar? = some v := by
  simp [binds]

namespace LevelTable

variable {f : Frame} {placed : List (Mention × Tier)}

theorem var_eq_of_typeVar_eq {l m : Level} (hl : l ∈ levelsOf f placed) (hm : m ∈ levelsOf f placed)
    (h : l.typeVar = m.typeVar) : l.var = m.var := by
  obtain ⟨x, hx, hx'⟩ := typeVar_of_mem hl
  obtain ⟨y, hy, hy'⟩ := typeVar_of_mem hm
  rw [hx', hy', String.append_right_inj] at h
  rw [hx, hy, h]

/-- Different levels have no variable in common. -/
theorem disjoint_binds {l m : Level} (hl : l ∈ levelsOf f placed) (hm : m ∈ levelsOf f placed)
    (h : l.var ≠ m.var) : l.binds.Disjoint m.binds := by
  intro v hv hv'
  rcases Level.mem_binds.1 hv with rfl | ht
  · rcases Level.mem_binds.1 hv' with e | ht'
    · exact h e
    · exact var_ne_typeVar hl hm (Level.typeVar?_eq_some ht')
  · obtain rfl := Level.typeVar?_eq_some ht
    rcases Level.mem_binds.1 hv' with e | ht'
    · exact var_ne_typeVar hm hl e.symm
    · exact h (var_eq_of_typeVar_eq hl hm (Level.typeVar?_eq_some ht'))

theorem nodup_binds : ((levelsOf f placed).flatMap Level.binds).Nodup := by
  refine List.nodup_flatMap.2 ⟨fun l hl => ?_, ?_⟩
  · refine List.nodup_cons.2 ⟨fun h => ?_, by cases l.typeVar? <;> simp⟩
    exact var_ne_typeVar hl hl (Level.typeVar?_eq_some (by simpa using h))
  · exact (List.pairwise_map.1 nodup_vars).imp_of_mem disjoint_binds

end LevelTable

/-! Nodes -/

/-- The node binds the variables of its level, and its conditions are about it alone. -/
structure NodePattern.Stands (l : LevelId × Level) (x : NodePattern π) : Prop where
  level : x.level = l.1
  var : x.var = l.2.var
  typeVar : x.typeNode?.map (·.var) = l.2.typeVar?
  own : ∀ v ∈ x.inline.flatMap Predicate.vars, v = l.2.var

namespace Plan

variable {p : Plan}

theorem discourseCondition_lowers (a : Tier) (var : String) (conditions : List Placed) :
    Lowers (discourseCondition a var conditions)
      fun added => ∀ v ∈ added.flatMap Predicate.vars, v = var := by
  unfold discourseCondition
  split
  · exact .ok rfl (by simp)
  · next label _ =>
    have hfix : Lowers (fixesDiscourse label conditions) fun _ => True := by
      cases hf : fixesDiscourse label conditions with
      | ok b => exact .ok rfl trivial
      | error e =>
        obtain ⟨d, rfl⟩ := fixesDiscourse_eq_error hf
        exact Or.inr ⟨label, d, rfl⟩
    refine hfix.bind fun fixed _ => ?_
    split
    · exact .ok rfl (by simp)
    · exact .ok rfl (by simp [Predicate.vars, Expr.vars])

theorem predicates_lowers {v : String} {cs : List Criterion}
    (h : ∀ path op other, .comparison path op (.path other) ∈ cs → p.var other.tier = .ok v) :
    Lowers (p.predicates v cs) fun xs => ∀ w ∈ xs.flatMap Predicate.vars, w = v := by
  induction cs with
  | nil => exact .ok rfl (by simp)
  | cons c cs ih =>
    have ih := ih fun path op other hm => h path op other (List.mem_cons_of_mem _ hm)
    cases c with
    | alignment kind a b => exact ih
    | contains container path x => exact ih
    | comparison path op operand =>
      have hx : Lowers (p.predicate v path op operand) fun x => ∀ w ∈ x.vars, w = v := by
        cases operand with
        | value x => exact .ok rfl (by simp [Predicate.vars, Expr.vars])
        | path other =>
          have hv := h path op other List.mem_cons_self
          refine .ok (a := ⟨.property v path.property, op, .property v other.property⟩) ?_
            (by simp [Predicate.vars, Expr.vars])
          simp only [predicate, pathExpr, hv]
          rfl
      refine hx.bind fun x hx => ih.bind fun xs hxs => .ok rfl ?_
      intro w hw
      rcases List.mem_append.1 (List.flatMap_cons ▸ hw) with hw | hw
      · exact hx w hw
      · exact hxs w hw

theorem mem_of_mem_takePin {xs : List Placed} {x : Placed} (h : x ∈ (takePin xs).2) : x ∈ xs := by
  rcases takePin_cases xs with ⟨ht, -⟩ | ⟨before, y, after, v, rfl, -, -, ht⟩
  · rwa [ht] at h
  · rw [ht] at h
    rcases List.mem_append.1 h with h | h <;> simp [h]

theorem node_lowers {l : LevelId × Level} {conditions : List Placed}
    (h : ∀ x ∈ conditions, ∀ path op other, x.criterion = .comparison path op (.path other) →
      p.var other.tier = .ok l.2.var) :
    Lowers (p.node l.1 l.2 conditions) (NodePattern.Stands l) := by
  refine (predicates_lowers fun path op other hm => ?_).bind fun own hown =>
    (discourseCondition_lowers _ _ _).bind fun added hadded => .ok rfl ⟨rfl, rfl, ?_, ?_⟩
  · obtain ⟨x, hx, he⟩ := List.mem_map.1 hm
    exact h x (mem_of_mem_takePin hx) path op other he
  · simp only [Level.typeVar?]
    split <;> rfl
  · intro v hv
    rw [List.flatMap_append, List.mem_append] at hv
    exact hv.elim (hown v) (hadded v)

/-! What lowering returns -/

/-- The variables that the pattern binds. -/
def patternVars (p : Plan) : List String := p.table.required.flatMap (·.2.binds)

/-- The variables that the pattern and the optional nodes bind. -/
def boundVars (p : Plan) : List String := p.patternVars ++ p.table.optional.flatMap (·.2.binds)

theorem var_mem_patternVars {n : LevelId} {l : Level} (hl : p.table.levels[n]? = some l)
    (hr : l.required = true) : l.var ∈ p.patternVars :=
  List.mem_flatMap.2 ⟨(n, l), LevelTable.mem_required.2 ⟨hl, hr⟩, List.mem_cons_self⟩

theorem var_mem_boundVars {n : LevelId} {l : Level} (hl : p.table.levels[n]? = some l) :
    l.var ∈ p.boundVars := by
  cases hr : l.required with
  | true => exact List.mem_append_left _ (var_mem_patternVars hl hr)
  | false =>
    exact List.mem_append_right _
      (List.mem_flatMap.2 ⟨(n, l), LevelTable.mem_optional.2 ⟨hl, hr⟩, List.mem_cons_self⟩)

theorem Denotes.mem {a : Tier} {v : String} (h : p.Denotes a v) : v ∈ p.patternVars := by
  obtain ⟨l, hl, hr, -, rfl⟩ := h
  obtain ⟨n, hn⟩ := List.mem_iff_getElem?.1 hl
  exact var_mem_patternVars hn hr

theorem Says.vars {c : Criterion} {x : Predicate Value} (h : p.Says c (.compare x)) :
    ∀ v ∈ x.vars, v ∈ p.patternVars := by
  cases h with
  | value hv => simp [Predicate.vars, Expr.vars, hv.mem]
  | path hv hw => simp [Predicate.vars, Expr.vars, hv.mem, hw.mem]
  | alignment hv hw => simp [Predicate.vars, Expr.vars, hv.mem, hw.mem]

theorem Says.scoped {c : Criterion} {k : Constraint Value} (h : p.Says c k) :
    k.clause.ScopedIn p.patternVars := by
  cases k with
  | compare x => exact .condition h.vars
  | contains k =>
    cases h with
    | contains hv _ _ _ => exact .condition (by simp [hv.mem])

/-- A tail behind the pattern and the optional nodes. -/
structure Ends (p : Plan) (cs : List Clause) : Prop where
  ordered : Clause.Scoped p.boundVars cs
  once : (p.boundVars ++ cs.flatMap Clause.binds).Nodup
  assigned : ∀ v, .assigned v ∈ cs →
    v = p.table.root.var ∨ Xor (p.table.root.typeVar? = some v) (.link p.table.root.var v ∈ cs)

/-- What lowering returns, by the levels of the plan. -/
structure Lays (p : Plan) (b : Body Literal) : Prop where
  nodes : List.Forall₂ NodePattern.Stands p.table.required b.nodes
  edges : ∀ e ∈ b.edges, ∃ l ∈ p.table.required, p.edge? l.2 = some e
  constraints : ∀ k ∈ b.constraints, k.clause.ScopedIn p.patternVars
  filters : ∀ x ∈ b.filters, x.clause.ScopedIn p.patternVars
  optional : List.Forall₂ (fun l o => p.edge? l.2 = some o.edge ∧ o.node.Stands l)
    p.table.optional b.optional
  tail : p.Ends b.tail.clauses

end Plan

theorem Expr.vars_values (e : Expr Literal) : e.values.vars = e.vars := by cases e <;> rfl

theorem Predicate.vars_values (x : Predicate Literal) : x.values.vars = x.vars :=
  congrArg₂ (· ++ ·) x.left.vars_values x.right.vars_values

theorem Constraint.clause_values (k : Constraint Literal) : k.values.clause = k.clause := by
  cases k with
  | compare x => exact congrArg Clause.condition x.vars_values
  | contains c => rfl

/-- The assignments of a write, those to the type node first. -/
theorem Plan.eq_assigned {root : Level} {m : Mutation} {c : Clause}
    (h : c ∈ (assignments root.typeVar m.typeProperties ++ assignments root.var m.tokenProperties).map
      fun a => Clause.assigned a.var) :
    (m.typeProperties.isEmpty = false ∧ c = .assigned root.typeVar) ∨ c = .assigned root.var := by
  obtain ⟨a, ha, rfl⟩ := List.mem_map.1 h
  rcases List.mem_append.1 ha with ha | ha
  · obtain ⟨e, he, rfl⟩ := List.mem_map.1 ha
    refine Or.inl ⟨?_, rfl⟩
    rw [Bindings.isEmpty, List.isEmpty_eq_false_iff]
    exact List.ne_nil_of_mem he
  · obtain ⟨e, -, rfl⟩ := List.mem_map.1 ha
    exact Or.inr rfl

namespace Analysis

variable {q : Query} {i : Intent} {p : Plan} {placed : List (Mention × Tier)}

theorem root_level (h : Analysis q i p placed) (hr : p.frame.root.hops = []) :
    p.table.levels[0]? = some p.table.root ∧ p.table.root.tier = p.frame.root ∧
      p.table.root.required = true := by
  have h0 : p.table.levels[0]? = some p.table.root := by
    rw [← List.head?_eq_getElem?]
    exact List.head?_eq_some_head p.table.nonempty
  have ht : p.table.root.tier = p.frame.root := by
    have htiers : (p.table.levels.map (·.tier))[0]? = some p.frame.root := by
      rw [h.levels_eq, LevelTable.map_tier_levelsOf]
      exact LevelTable.tiersOf_zero hr
    simpa [h0] using htiers
  refine ⟨h0, ht, ?_⟩
  refine (LevelTable.required_iff (h.levels_eq ▸ h0)).2 ?_
  rw [ht]
  exact LevelTable.root_mem_requiredOf

theorem nodup_boundVars (h : Analysis q i p placed) : p.boundVars.Nodup := by
  have hbinds : p.table.indexed.flatMap (·.2.binds) = p.table.levels.flatMap Level.binds := by
    rw [← p.table.map_snd_indexed, List.flatMap_map]
  rw [Plan.boundVars, Plan.patternVars, ← List.flatMap_append]
  refine (p.table.required_append_optional_perm.flatMap_right _).nodup_iff.2 ?_
  rw [hbinds, h.levels_eq]
  exact LevelTable.nodup_binds

/-- A type node behind the pattern has a new variable. -/
theorem root_typeVar_notMem (h : Analysis q i p placed) (ht : p.table.root.typeVar? = none) :
    p.table.root.typeVar ∉ p.boundVars := by
  have hroot : p.table.root ∈ p.table.levels := List.head_mem _
  intro hm
  obtain ⟨x, hx, hv⟩ : ∃ x ∈ p.table.required ++ p.table.optional, p.table.root.typeVar ∈ x.2.binds := by
    simpa [Plan.boundVars, Plan.patternVars, or_and_right, exists_or] using hm
  have hl : x.2 ∈ p.table.levels := by
    obtain ⟨n, l⟩ := x
    rcases List.mem_append.1 hx with hx | hx
    · exact List.mem_of_getElem? (LevelTable.mem_required.1 hx).1
    · exact List.mem_of_getElem? (LevelTable.mem_optional.1 hx).1
  rcases Level.mem_binds.1 hv with hv | hv
  · exact h.var_ne_typeVar hl hroot hv.symm
  · have hvar := LevelTable.var_eq_of_typeVar_eq (h.levels_eq ▸ hroot) (h.levels_eq ▸ hl)
      (Level.typeVar?_eq_some hv)
    have heq : p.table.root = x.2 := h.level_of_var hroot hl hvar
    rw [← heq, ht] at hv
    cases hv

/-- Clauses that neither bind nor assign. -/
theorem ends_of_forall (h : Analysis q i p placed) {cs : List Clause}
    (hcs : ∀ c ∈ cs, c.ScopedIn p.boundVars ∧ c.binds = [] ∧ ∀ v, c ≠ .assigned v) : p.Ends cs where
  ordered := Clause.scoped_of_forall fun c hc => (hcs c hc).1
  once := by
    have : cs.flatMap Clause.binds = [] := List.flatMap_eq_nil_iff.2 fun c hc => (hcs c hc).2.1
    rw [this, List.append_nil]
    exact h.nodup_boundVars
  assigned v hv := absurd rfl ((hcs _ hv).2.2 v)

/-- Assignments when the pattern has the type node, if there are any to it. -/
theorem ends_assigned (h : Analysis q i p placed) (hr : p.frame.root.hops = []) {cs : List Clause}
    (hcs : ∀ c ∈ cs,
      (p.table.root.typeVar? = some p.table.root.typeVar ∧ c = .assigned p.table.root.typeVar) ∨
      c = .assigned p.table.root.var) : p.Ends cs := by
  obtain ⟨h0, -, hreq⟩ := h.root_level hr
  have hbinds : cs.flatMap Clause.binds = [] := List.flatMap_eq_nil_iff.2 fun c hc => by
    rcases hcs c hc with ⟨-, rfl⟩ | rfl <;> rfl
  refine ⟨Clause.scoped_of_forall fun c hc => ?_, ?_, fun v hv => ?_⟩
  · rcases hcs c hc with ⟨ht, rfl⟩ | rfl
    · exact .assigned (List.mem_append_left _ (List.mem_flatMap.2 ⟨(0, p.table.root),
        LevelTable.mem_required.2 ⟨h0, hreq⟩, Level.mem_binds.2 (Or.inr ht)⟩))
    · exact .assigned (Plan.var_mem_boundVars h0)
  · rw [hbinds, List.append_nil]
    exact h.nodup_boundVars
  · rcases hcs _ hv with ⟨ht, e⟩ | e
    · obtain rfl := Clause.assigned.inj e
      refine Or.inr (Or.inl ⟨ht, fun hl => ?_⟩)
      rcases hcs _ hl with ⟨-, e⟩ | e <;> cases e
    · exact Or.inl (Clause.assigned.inj e)

/-- Assignments behind a link to the type node, which the pattern does not have. -/
theorem ends_linked (h : Analysis q i p placed) (hr : p.frame.root.hops = []) {cs : List Clause}
    (ht : p.table.root.typeVar? = none)
    (hcs : ∀ c ∈ cs, c = .assigned p.table.root.typeVar ∨ c = .assigned p.table.root.var) :
    p.Ends (.link p.table.root.var p.table.root.typeVar :: cs) := by
  have hvar := Plan.var_mem_boundVars (h.root_level hr).1
  have hbinds : cs.flatMap Clause.binds = [] := List.flatMap_eq_nil_iff.2 fun c hc => by
    rcases hcs c hc with rfl | rfl <;> rfl
  refine ⟨⟨.link hvar, Clause.scoped_of_forall fun c hc => ?_⟩, ?_, fun v hv => ?_⟩
  · rcases hcs c hc with rfl | rfl
    · exact .assigned (List.mem_append_right _ List.mem_cons_self)
    · exact .assigned (List.mem_append_left _ hvar)
  · rw [List.flatMap_cons, hbinds, List.append_nil]
    refine List.nodup_append.2 ⟨h.nodup_boundVars, List.nodup_singleton _, fun v hv w hw e => ?_⟩
    obtain rfl : w = p.table.root.typeVar := by simpa [Clause.binds] using hw
    exact h.root_typeVar_notMem ht (e ▸ hv)
  · have hv : .assigned v ∈ cs := by simpa using hv
    rcases hcs _ hv with e | e
    · obtain rfl := Clause.assigned.inj e
      exact Or.inr (Or.inr ⟨List.mem_cons_self, by simp [ht]⟩)
    · exact Or.inl (Clause.assigned.inj e)

theorem ends_mutation (h : Analysis q i p placed) (hr : p.frame.root.hops = []) (m : Mutation) :
    p.Ends (p.mutationTail m).clauses := by
  unfold Plan.mutationTail
  by_cases hd : m.delete = true
  · rw [if_pos hd]
    refine h.ends_of_forall fun c hc => ?_
    obtain rfl : c = .deleted p.table.root.var := by simpa [Tail.clauses] using hc
    exact ⟨.deleted (Plan.var_mem_boundVars (h.root_level hr).1), rfl, by simp⟩
  · rw [if_neg hd]
    by_cases hl : (!m.typeProperties.isEmpty && p.table.root.tier.typeSubsets.isEmpty) = true
    · simp only [hl, if_true, Tail.clauses]
      have ht : p.table.root.tier.typeSubsets.isEmpty = true := ((Bool.and_eq_true _ _).mp hl).2
      exact h.ends_linked hr (by simp [Level.typeVar?, ht]) fun c hc => (Plan.eq_assigned hc).imp_left (·.2)
    · simp only [hl, Tail.clauses]
      refine h.ends_assigned hr fun c hc => (Plan.eq_assigned hc).imp_left fun ⟨hp, hc⟩ => ⟨?_, hc⟩
      have ht : p.table.root.tier.typeSubsets.isEmpty = false := by simpa [hp] using hl
      simp [Level.typeVar?, ht]

/-! Tails of rows -/

theorem pathExpr_lowers (h : Analysis q i p placed) {path : AttributePath}
    (hm : ∃ m ∈ (q.references i).mentions, m.tier = path.tier) :
    Lowers (p.pathExpr path) fun e => ∀ v ∈ e.vars, v ∈ p.boundVars := by
  obtain ⟨m, hm, hmt⟩ := hm
  obtain ⟨n, l, hl, -⟩ := h.resolves_mention hm
  refine .ok (a := .property l.var path.property) ?_ ?_
  · rw [Plan.pathExpr, ← hmt, hl.var]
    rfl
  · simpa [Expr.vars] using Plan.var_mem_boundVars hl.level

theorem column_lowers (h : Analysis q i p placed) {path : AttributePath}
    (hm : ∃ m ∈ (q.references i).mentions, m.tier = path.tier) :
    Lowers (p.column path) fun x => ∀ v ∈ x.expr.vars, v ∈ p.boundVars :=
  (h.pathExpr_lowers hm).bind fun _ he => .ok rfl he

theorem aggregate_lowers (h : Analysis q i p placed) {a : Aggregate}
    (hm : ∀ path, a.path? = some path → ∃ m ∈ (q.references i).mentions, m.tier = path.tier) :
    Lowers (p.aggregate a) fun x => ∀ v ∈ x.expr.vars, v ∈ p.boundVars := by
  unfold Plan.aggregate
  cases ha : a.path? with
  | none => exact .ok rfl (by simp [ReturnExpr.vars])
  | some path =>
    have hsome : Lowers ((some path).mapM p.pathExpr)
        fun e? => ∀ v ∈ e?.toList.flatMap Expr.vars, v ∈ p.boundVars :=
      (h.pathExpr_lowers (hm path ha)).bind fun e he => .ok rfl (by simpa using he)
    exact hsome.bind fun e? he => .ok rfl he

theorem ends_select (h : Analysis q i p placed) {items : List (ReturnItem Literal)}
    (hi : ∀ x ∈ items, ∀ v ∈ x.expr.vars, v ∈ p.boundVars) (order : List OrderItem) :
    p.Ends (Tail.select items order).clauses := by
  refine h.ends_of_forall fun c hc => ?_
  obtain ⟨x, hx, rfl⟩ := List.mem_map.1 hc
  exact ⟨.returned (hi x hx), rfl, by simp⟩

theorem rowsTail_lowers (h : Analysis q .rows p placed) :
    Lowers (p.rowsTail q) fun t => p.Ends t.clauses := by
  unfold Plan.rowsTail
  by_cases ha : q.aggregates.isEmpty = true
  · rw [if_pos ha]
    have href : q.references .rows = ⟨q.criteria, q.columns, [], q.ordering.map (·.path), []⟩ := by
      simp [Query.references, ha]
    have hcols := Lowers.mapM_all fun path (hpath : path ∈ q.columns) =>
      h.column_lowers (References.exists_mem_mentions (p := path) (by simp [href, hpath]))
    exact hcols.bind fun items hi => .ok rfl (h.ends_select hi _)
  · rw [if_neg ha]
    have href : q.references .rows = ⟨q.criteria, [], q.grouping, q.ordering.map (·.path),
        q.aggregates.filterMap (·.path?)⟩ := by
      simp [Query.references, ha]
    have hgroups := Lowers.mapM_all fun path (hpath : path ∈ q.grouping) =>
      h.column_lowers (References.exists_mem_mentions (p := path) (by simp [href, hpath]))
    have haggs := Lowers.mapM_all fun a (ha : a ∈ q.aggregates) =>
      h.aggregate_lowers fun path hpath => References.exists_mem_mentions (by
        simp only [href, List.mem_append, List.mem_filterMap]
        exact Or.inr ⟨a, ha, hpath⟩)
    refine hgroups.bind fun groups hg => haggs.bind fun aggregates ha => .ok rfl (h.ends_select ?_ _)
    intro x hx
    exact (List.mem_append.1 hx).elim (hg x) (ha x)

theorem tail_lowers (h : Analysis q i p placed) (hr : p.frame.root.hops = []) :
    Lowers (p.tail q i) fun t => p.Ends t.clauses := by
  cases i with
  | rows => exact h.rowsTail_lowers
  | count =>
    refine .ok rfl (h.ends_select (fun x hx => ?_) _)
    obtain rfl := List.mem_singleton.1 hx
    simp [ReturnExpr.vars]
  | mutation => exact .ok rfl (h.ends_mutation hr q.mutation)

/-! The whole body -/

theorem requiredNode_lowers (h : Analysis q i p placed) {l : LevelId × Level}
    (hl : l ∈ p.table.required) : Lowers (p.requiredNode l) (NodePattern.Stands l) := by
  obtain ⟨hl, -⟩ := LevelTable.mem_required.1 hl
  refine Plan.node_lowers fun x hx path op other hc => ?_
  obtain ⟨-, -, path', op', operand, hc', -, hother⟩ := h.comparison_of_inline hl hx
  rw [hc] at hc'
  cases hc'
  exact hother other rfl

/-- Only the searched-for level has no edge, and it is required. -/
theorem optional_hops (h : Analysis q i p placed) (hr : p.frame.root.hops = [])
    {l : LevelId × Level} (hl : l ∈ p.table.optional) : l.2.tier.hops ≠ [] := by
  obtain ⟨hl, hreq⟩ := LevelTable.mem_optional.1 hl
  intro hh
  have hroot := (h.grounded hr (List.mem_of_getElem? hl)).root hh
  have := (LevelTable.required_iff (h.levels_eq ▸ hl)).2 (hroot ▸ LevelTable.root_mem_requiredOf)
  rw [hreq] at this
  cases this

theorem optionalMatch_lowers (h : Analysis q i p placed) (hr : p.frame.root.hops = [])
    {l : LevelId × Level} (hl : l ∈ p.table.optional) :
    Lowers (p.optionalMatch l) fun o? =>
      ∃ o, o? = some o ∧ p.edge? l.2 = some o.edge ∧ o.node.Stands l := by
  obtain ⟨m, k, hop, -, -, -, -, -, he⟩ :=
    h.edge?_eq hr (LevelTable.mem_optional.1 hl).1 (h.optional_hops hr hl)
  refine (Plan.node_lowers (by simp)).bind fun x hx => .ok rfl ?_
  rw [he]
  exact ⟨_, rfl, rfl, hx⟩

theorem body_lowers (h : Analysis q i p placed) (hr : p.frame.root.hops = []) :
    Lowers (p.body q i) p.Lays := by
  have hn := Lowers.mapM fun l hl => h.requiredNode_lowers (l := l) hl
  have hk := Lowers.mapM_all (g := p.constraint) (P := fun k => k.clause.ScopedIn p.patternVars)
    fun c (hc : c ∈ p.placement.relationships) => by
      obtain ⟨k, hk, hs⟩ := h.says_constraint (h.mem_relationships hc).1 (h.mem_relationships hc).2
      exact .ok hk (k.clause_values ▸ hs.scoped)
  have hf := Lowers.mapM_all (g := p.filter) (P := fun xs => ∀ x ∈ xs, x.clause.ScopedIn p.patternVars)
    fun c (hc : c ∈ p.placement.filters) => by
      obtain ⟨x, hx, hs⟩ := h.says_filter hc
      refine .ok hx fun y hy => ?_
      obtain rfl := List.mem_singleton.1 hy
      exact .condition (y.vars_values ▸ hs.vars)
  have ho := Lowers.mapM fun l hl => h.optionalMatch_lowers hr (l := l) hl
  refine hn.bind fun ns hn => hk.bind fun ks hk => hf.bind fun fs hf => ho.bind fun os ho =>
    (h.tail_lowers hr).bind fun t ht => .ok rfl ⟨hn, fun e he => ?_, hk, fun x hx => ?_, ?_, ht⟩
  · exact List.mem_filterMap.1 he
  · obtain ⟨xs, hxs, hx⟩ := List.mem_flatten.1 hx
    exact hf xs hxs x hx
  · exact forall₂_filterMap_id ho

end Analysis

/-! Text order -/

theorem NodePattern.Stands.scoped {x : NodePattern π} {l : LevelId × Level} (h : x.Stands l)
    (bound : List String) : x.clause.ScopedIn bound :=
  .node fun v hv => (h.own v hv).trans h.var.symm

theorem NodePattern.Stands.binds {x : NodePattern π} {l : LevelId × Level} (h : x.Stands l) :
    x.clause.binds = l.2.binds := by
  simp [clause, Clause.binds, Level.binds, h.var, h.typeVar]

theorem LevelTable.pairwise_optional (t : LevelTable) : t.optional.Pairwise (·.1 < ·.1) := by
  refine List.Pairwise.filter _ ?_
  have : t.indexed.map Prod.fst = List.range' 0 t.levels.length := by
    rw [indexed, List.map_map, ← List.zipIdx_map_snd]
    rfl
  exact List.pairwise_map.1 (this ▸ List.pairwise_lt_range')

/-- Optional nodes in the order of their levels, when each hangs on a variable that is bound or on
an earlier level among them. -/
theorem Plan.scoped_optional {p : Plan} {ls : List (LevelId × Level)} {os : List (OptionalMatch π)}
    {bound : List String}
    (hos : List.Forall₂ (fun l o => p.edge? l.2 = some o.edge ∧ o.node.Stands l) ls os)
    (hlt : ls.Pairwise (·.1 < ·.1))
    (hedge : ∀ l ∈ ls, ∀ e, p.edge? l.2 = some e → e.child = l.2.var ∧
      (e.parent ∈ bound ∨ ∃ k ∈ ls, k.1 < l.1 ∧ e.parent = k.2.var)) :
    Clause.Scoped bound (os.map OptionalMatch.clause) := by
  induction hos generalizing bound with
  | nil => trivial
  | @cons l o ls os hlo _ ih =>
    obtain ⟨hhead, htail⟩ := List.pairwise_cons.1 hlt
    refine ⟨?_, ih htail fun k hk e he => ?_⟩
    · obtain ⟨hchild, hparent⟩ := hedge l List.mem_cons_self _ hlo.1
      -- nothing in the list comes before its head
      have hparent : o.edge.parent ∈ bound := by
        refine hparent.resolve_right ?_
        rintro ⟨k, hk, hlt, -⟩
        rcases List.mem_cons.1 hk with rfl | hk
        · exact Nat.lt_irrefl _ hlt
        · exact Nat.lt_asymm hlt (hhead k hk)
      rw [OptionalMatch.clause, hchild, ← hlo.2.var]
      exact .optional hparent fun v hv => (hlo.2.own v hv).trans hlo.2.var.symm
    · obtain ⟨hchild, hparent⟩ := hedge k (List.mem_cons_of_mem _ hk) e he
      refine ⟨hchild, ?_⟩
      rcases hparent with hb | ⟨j, hj, hjk, hv⟩
      · exact Or.inl (List.mem_append_left _ hb)
      · rcases List.mem_cons.1 hj with rfl | hj
        · refine Or.inl (List.mem_append_right _ ?_)
          rw [hv, ← hlo.2.var]
          exact List.mem_cons_self
        · exact Or.inr ⟨j, hj, hjk, hv⟩

theorem flatMap_eq_of_forall₂ {xs : List α} {ys : List β} {f : α → List π} {g : β → List π}
    (h : List.Forall₂ (fun x y => f x = g y) xs ys) : xs.flatMap f = ys.flatMap g := by
  induction h with
  | nil => rfl
  | cons hxy _ ih => rw [List.flatMap_cons, List.flatMap_cons, hxy, ih]

namespace Plan.Lays

variable {p : Plan} {b : Body Literal}

theorem binds_nodes (hb : p.Lays b) :
    (b.nodes.map NodePattern.clause).flatMap Clause.binds = p.patternVars := by
  rw [patternVars, List.flatMap_map]
  exact (flatMap_eq_of_forall₂ (hb.nodes.imp fun _ _ hx => hx.binds.symm)).symm

theorem binds_optional (hb : p.Lays b) :
    (b.optional.map OptionalMatch.clause).flatMap Clause.binds
      = p.table.optional.flatMap (·.2.binds) := by
  rw [List.flatMap_map]
  exact (flatMap_eq_of_forall₂ (hb.optional.imp fun _ _ hx => hx.2.binds.symm)).symm

/-- Edges, constraints and filters bind nothing. -/
theorem binds_conditions (b : Body Literal) :
    (b.edges.map Edge.clause).flatMap Clause.binds = [] ∧
    (b.constraints.map Constraint.clause).flatMap Clause.binds = [] ∧
    (b.filters.map Predicate.clause).flatMap Clause.binds = [] := by
  refine ⟨?_, ?_, ?_⟩
  · simp [List.flatMap_map, Edge.clause, Clause.binds]
  · rw [List.flatMap_map, List.flatMap_eq_nil_iff]
    rintro (x | c) - <;> rfl
  · simp [List.flatMap_map, Predicate.clause, Clause.binds]

theorem binds_clauses (hb : p.Lays b) :
    b.clauses.flatMap Clause.binds = p.boundVars ++ b.tail.clauses.flatMap Clause.binds := by
  obtain ⟨he, hk, hf⟩ := binds_conditions b
  simp only [Body.clauses, List.flatMap_append, hb.binds_nodes, hb.binds_optional, he, hk, hf,
    List.append_nil, Plan.boundVars]

/-- Writes stand in the tail alone. -/
theorem mem_clauses {c : Clause} (hc : (∃ v, c = .assigned v) ∨ ∃ v w, c = .link v w) :
    c ∈ b.clauses ↔ c ∈ b.tail.clauses := by
  have hk : c ∉ b.constraints.map Constraint.clause := by
    intro hm
    obtain ⟨k, -, rfl⟩ := List.mem_map.1 hm
    cases k <;> simp [Constraint.clause] at hc
  have hrest : c ∉ b.nodes.map NodePattern.clause ∧ c ∉ b.edges.map Edge.clause ∧
      c ∉ b.filters.map Predicate.clause ∧ c ∉ b.optional.map OptionalMatch.clause := by
    rcases hc with ⟨v, rfl⟩ | ⟨v, w, rfl⟩ <;>
      simp [NodePattern.clause, Edge.clause, Predicate.clause, OptionalMatch.clause]
  simp only [Body.clauses, List.mem_append, hk, hrest, or_false, false_or]

end Plan.Lays

namespace Analysis

variable {q : Query} {i : Intent} {p : Plan} {placed : List (Mention × Tier)}

/-- The edge of a level starts at a level of the pattern or at an earlier optional one. -/
theorem edge_scoped (h : Analysis q i p placed) (hr : p.frame.root.hops = []) {n : LevelId}
    {l : Level} (hl : p.table.levels[n]? = some l) {e : Edge} (he : p.edge? l = some e) :
    e.child = l.var ∧
      ((e.parent ∈ p.patternVars ∨ ∃ k ∈ p.table.optional, k.1 < n ∧ e.parent = k.2.var) ∧
        (l.required = true → e.parent ∈ p.patternVars)) := by
  have hh : l.tier.hops ≠ [] := fun hh => by
    rw [edge?_eq_none hh] at he
    cases he
  obtain ⟨m, k, hop, hlt, hk, -, hreq, -, he'⟩ := h.edge?_eq hr hl hh
  rw [he] at he'
  cases he'
  refine ⟨rfl, ?_, fun hl => Plan.var_mem_patternVars hk (hreq hl)⟩
  cases hkr : k.required with
  | true => exact Or.inl (Plan.var_mem_patternVars hk hkr)
  | false => exact Or.inr ⟨(m, k), LevelTable.mem_optional.2 ⟨hk, hkr⟩, hlt, rfl⟩

theorem scoped_clauses (h : Analysis q i p placed) (hr : p.frame.root.hops = []) {b : Body Literal}
    (hb : p.Lays b) : Clause.Scoped [] b.clauses := by
  obtain ⟨he, hk, hf⟩ := Plan.Lays.binds_conditions b
  simp only [Body.clauses, Clause.scoped_append, List.flatMap_append, hb.binds_nodes,
    hb.binds_optional, he, hk, hf, List.append_nil, List.nil_append]
  refine ⟨⟨⟨⟨⟨?_, ?_⟩, ?_⟩, ?_⟩, ?_⟩, hb.tail.ordered⟩
  · refine Clause.scoped_of_forall fun c hc => ?_
    obtain ⟨x, hx, rfl⟩ := List.mem_map.1 hc
    obtain ⟨l, -, hs⟩ := forall₂_mem_right hb.nodes hx
    exact hs.scoped []
  · refine Clause.scoped_of_forall fun c hc => ?_
    obtain ⟨e, he, rfl⟩ := List.mem_map.1 hc
    obtain ⟨l, hl, hle⟩ := hb.edges e he
    obtain ⟨hl, hreq⟩ := LevelTable.mem_required.1 hl
    obtain ⟨hchild, -, hparent⟩ := h.edge_scoped hr hl hle
    exact .edge (hparent hreq) (hchild ▸ Plan.var_mem_patternVars hl hreq)
  · refine Clause.scoped_of_forall fun c hc => ?_
    obtain ⟨k, hk, rfl⟩ := List.mem_map.1 hc
    exact hb.constraints k hk
  · refine Clause.scoped_of_forall fun c hc => ?_
    obtain ⟨x, hx, rfl⟩ := List.mem_map.1 hc
    exact hb.filters x hx
  · refine Plan.scoped_optional hb.optional p.table.pairwise_optional fun l hl e he => ?_
    obtain ⟨hchild, hparent, -⟩ := h.edge_scoped hr (LevelTable.mem_optional.1 hl).1 he
    exact ⟨hchild, hparent⟩

theorem wellScoped (h : Analysis q i p placed) (hr : p.frame.root.hops = []) {b : Body Literal}
    (hb : p.Lays b) : Clause.WellScoped b.clauses := by
  have hs := h.scoped_clauses hr hb
  refine ⟨hs.bound, hs, hb.binds_clauses ▸ hb.tail.once, fun v hv => ?_⟩
  obtain ⟨h0, -, hreq⟩ := h.root_level hr
  obtain ⟨x, hx, hroot⟩ := forall₂_mem_left hb.nodes (LevelTable.mem_required.2 ⟨h0, hreq⟩)
  have hnode : Clause.node 0 p.table.root.var p.table.root.typeVar?
      (x.inline.flatMap Predicate.vars) ∈ b.clauses := by
    have hclause : x.clause ∈ b.clauses := by
      simp only [Body.clauses, List.mem_append]
      exact Or.inl (Or.inl (Or.inl (Or.inl (Or.inl (List.mem_map_of_mem hx)))))
    rw [NodePattern.clause, hroot.level, hroot.var, hroot.typeVar] at hclause
    exact hclause
  refine ⟨_, _, _, hnode, ?_⟩
  rw [Plan.Lays.mem_clauses (Or.inr ⟨_, _, rfl⟩)]
  exact hb.tail.assigned v ((Plan.Lays.mem_clauses (Or.inl ⟨v, rfl⟩)).1 hv)

end Analysis

/-- Once the levels are resolved and the criteria placed, nothing but a conflict of discourses is in
the way of a statement, and its text mentions no variable that is not bound. -/
theorem lowering_is_total_and_well_scoped {q : Query} {i : Intent} {p : Plan}
    (hq : q.find.hops = []) (hp : q.plan i = .ok p) :
    (∀ e, p.body q i = .error e → ∃ d d', e = .conflictingDiscourse d d') ∧
    ∀ b, p.body q i = .ok b → Clause.WellScoped (Statement.ofBody b).body.clauses := by
  obtain ⟨placed, h⟩ := Query.plan_eq_ok_iff.1 hp
  have hr := h.root_hops hq
  rcases h.body_lowers hr with ⟨b, hb, hlays⟩ | ⟨d, d', hb⟩
  · refine ⟨fun e he => by simp [hb] at he, fun b' hb' => ?_⟩
    obtain rfl : b = b' := by simpa using hb.symm.trans hb'
    rw [Statement.clauses_ofBody]
    exact h.wellScoped hr hlays
  · refine ⟨fun e he => ⟨d, d', ?_⟩, fun b' hb' => by simp [hb] at hb'⟩
    simpa using he.symm.trans hb

theorem relabelBeforePause_is_well_scoped :
    ∃ p b, Query.relabelBeforePause.plan .mutation = .ok p ∧
      p.body Query.relabelBeforePause .mutation = .ok b ∧
      Clause.WellScoped (Statement.ofBody b).body.clauses := by
  obtain ⟨b, hb⟩ :=
    exists_ok_of_isOk (x := Query.relabelBeforePause.draft .mutation) (by decide +kernel)
  obtain ⟨p, hp, hb⟩ := bind_eq_ok_iff.1 hb
  exact ⟨p, b, hp, hb, (lowering_is_total_and_well_scoped rfl hp).2 b hb⟩

end TierQuery
