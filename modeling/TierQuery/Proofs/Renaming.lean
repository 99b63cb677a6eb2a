import Mathlib.Data.Set.Function
import TierQuery.Proofs.Projection

/-! Statements up to the names of their variables and the order within their sections. Two plans of one
frame that have the same tiers, under other names, say the same of the same criteria. -/

namespace TierQuery

open Json (Value)

variable {π : Type} (ρ : String → String)

/-! Other names for the variables -/

def Expr.rename : Expr π → Expr π
  | property v name => .property (ρ v) name
  | param p => .param p

def Predicate.rename (x : Predicate π) : Predicate π :=
  ⟨x.left.rename ρ, x.op, x.right.rename ρ⟩

def TypeNode.rename (x : TypeNode) : TypeNode := { x with var := ρ x.var }

def Edge.rename (e : Edge) : Edge := { e with parent := ρ e.parent, child := ρ e.child }

def Containment.rename (c : Containment π) : Containment π := { c with container := ρ c.container }

def Constraint.rename : Constraint π → Constraint π
  | compare x => .compare (x.rename ρ)
  | contains c => .contains (c.rename ρ)

def ReturnExpr.rename : ReturnExpr π → ReturnExpr π
  | value e => .value (e.rename ρ)
  | aggregate function arg? => .aggregate function (arg?.map (Expr.rename ρ))

def ReturnItem.rename (x : ReturnItem π) : ReturnItem π := { x with expr := x.expr.rename ρ }

def Assignment.rename (a : Assignment π) : Assignment π := { a with var := ρ a.var }

def TypeLink.rename (k : TypeLink) : TypeLink := ⟨ρ k.var, k.node.rename ρ⟩

def Tail.rename : Tail π → Tail π
  | select items order => .select (items.map (ReturnItem.rename ρ)) order
  | set link? assignments =>
    .set (link?.map (TypeLink.rename ρ)) (assignments.map (Assignment.rename ρ))
  | delete v => .delete (ρ v)

/-- Literals can be put in before or after. -/
theorem ReturnItem.values_rename (x : ReturnItem Literal) :
    (x.rename ρ).replace (m := Id) Literal.value = (x.replace (m := Id) Literal.value).rename ρ := by
  obtain ⟨e, name⟩ := x
  cases e with
  | value e => cases e <;> rfl
  | aggregate function arg? =>
    cases arg? with
    | none => rfl
    | some e => cases e <;> rfl

theorem Tail.values_rename (t : Tail Literal) : (t.rename ρ).values = t.values.rename ρ := by
  cases t with
  | select items order =>
    have hvalues (xs : List (ReturnItem Literal)) :
        (Tail.select xs order).values = .select (xs.map (·.replace (m := Id) Literal.value)) order :=
      congrArg (Tail.select · order) (mapM_id _ xs)
    rw [rename, hvalues, hvalues, rename, List.map_map, List.map_map]
    exact congrArg (Tail.select · order) (List.map_congr_left fun x _ => x.values_rename ρ)
  | set link? assignments =>
    have hvalues (k? : Option TypeLink) (xs : List (Assignment Literal)) :
        (Tail.set k? xs).values = .set k? (xs.map (·.replace (m := Id) Literal.value)) :=
      congrArg (Tail.set k?) (mapM_id _ xs)
    rw [rename, hvalues, hvalues, rename, List.map_map, List.map_map]
    rfl
  | delete v => rfl

/-! Another order -/

/-- The second list is a rearrangement of a list that is related to the first entry by entry. -/
def Rearranges {α β : Type} (R : α → β → Prop) (xs : List α) (ys : List β) : Prop :=
  ∃ zs, List.Forall₂ R xs zs ∧ zs.Perm ys

section Sources

variable {α β γ : Type} {R : α → β → Prop} {S : α → γ → Prop} {T : β → γ → Prop}

/-- What comes from the same entries is related as the entries say. -/
theorem forall₂_of_sources {as : List α} {bs : List β} {cs : List γ} (hb : List.Forall₂ R as bs)
    (hc : List.Forall₂ S as cs) (h : ∀ a ∈ as, ∀ b c, R a b → S a c → T b c) :
    List.Forall₂ T bs cs := by
  induction hb generalizing cs with
  | nil =>
    cases hc
    exact .nil
  | cons hab _ ih =>
    cases hc with
    | cons hac hc =>
      exact .cons (h _ List.mem_cons_self _ _ hab hac)
        (ih hc fun a ha => h a (List.mem_cons_of_mem _ ha))

/-- What comes from the entries of two lists, one a rearrangement of the other, is rearranged too. -/
theorem Rearranges.of_sources {as as' : List α} {bs : List β} {cs : List γ} (hp : as.Perm as')
    (hb : List.Forall₂ R as bs) (hc : List.Forall₂ S as' cs)
    (h : ∀ a ∈ as, ∀ b c, R a b → S a c → T b c) : Rearranges T bs cs := by
  obtain ⟨zs, hz, hzs⟩ := List.perm_comp_forall₂ hp hc
  exact ⟨zs, forall₂_of_sources hb hz h, hzs⟩

theorem map_eq_of_sources {f : β → γ} {as : List α} {bs : List β} {cs : List γ}
    (hb : List.Forall₂ R as bs) (hc : List.Forall₂ S as cs)
    (h : ∀ a ∈ as, ∀ b c, R a b → S a c → c = f b) : cs = bs.map f :=
  (List.map_id cs).symm.trans (map_eq_of_forall₂ (g := id) (forall₂_of_sources hb hc h))

end Sources

theorem Rearranges.map_perm {α β : Type} {f : α → β} {xs : List α} {ys : List β}
    (h : Rearranges (fun x y => y = f x) xs ys) : (xs.map f).Perm ys := by
  obtain ⟨zs, hz, hp⟩ := h
  obtain rfl : zs = xs.map f := (List.map_id zs).symm.trans (map_eq_of_forall₂ (g := id) hz)
  exact hp

/-! The same patterns -/

/-- The conditions on a node, its pin read as one on `id`. -/
def NodePattern.conditions (x : NodePattern π) : List (Predicate π) :=
  (x.identity?.toList.map fun v => ⟨.property x.var .id, .eq, .param v⟩) ++ x.inline

/-- Under the new names the nodes have the same labels and types, and the same conditions in some
order. -/
structure NodePattern.SameUpTo (x x' : NodePattern π) : Prop where
  var : x'.var = ρ x.var
  labels : x'.labels = x.labels
  typeNode : x'.typeNode? = x.typeNode?.map (TypeNode.rename ρ)
  conditions : (x.conditions.map (Predicate.rename ρ)).Perm x'.conditions

structure OptionalMatch.SameUpTo (o o' : OptionalMatch π) : Prop where
  edge : o'.edge = o.edge.rename ρ
  node : NodePattern.SameUpTo ρ o.node o'.node

/-- Under the new names every section has the same entries in some order. -/
structure Body.SameUpTo (b b' : Body π) : Prop where
  nodes : Rearranges (NodePattern.SameUpTo ρ) b.nodes b'.nodes
  edges : (b.edges.map (Edge.rename ρ)).Perm b'.edges
  constraints : (b.constraints.map (Constraint.rename ρ)).Perm b'.constraints
  filters : (b.filters.map (Predicate.rename ρ)).Perm b'.filters
  optional : Rearranges (OptionalMatch.SameUpTo ρ) b.optional b'.optional
  tail : b'.tail = b.tail.rename ρ

/-- The variable stands for a token or a type of the plan. -/
def Plan.Uses (p : Plan) (v : String) : Prop := ∃ l ∈ p.table.levels, v = l.var ∨ v = l.typeVar

/-- The plans have the same frame and the same tiers, of which the same are required, and the new
names take the variables of one to the variables of the other, different ones to different ones. -/
structure Plan.SameUpTo (p p' : Plan) : Prop where
  corpus : p'.corpus? = p.corpus?
  frame : p'.frame = p.frame
  tiers : (p.table.levels.map (·.tier)).Perm (p'.table.levels.map (·.tier))
  level : ∀ l ∈ p.table.levels, ∀ l' ∈ p'.table.levels, l'.tier = l.tier →
    l'.required = l.required ∧ l'.var = ρ l.var ∧ l'.typeVar = ρ l.typeVar
  injective : Set.InjOn ρ {v | p.Uses v}

/-- The indices stand for levels of the same tier. -/
def LevelTable.SameTier (t t' : LevelTable) (n n' : LevelId) : Prop :=
  ∃ l l', t.levels[n]? = some l ∧ t'.levels[n']? = some l' ∧ l'.tier = l.tier

/-- The routes are of the same kind, at levels of the same tier. -/
inductive Route.Same (t t' : LevelTable) : Route → Route → Prop
  | identity {n n' : LevelId} : t.SameTier t' n n' → Same t t' (.identity n) (.identity n')
  | anchor {n n' : LevelId} : t.SameTier t' n n' → Same t t' (.anchor n) (.anchor n')
  | property {n n' : LevelId} : t.SameTier t' n n' → Same t t' (.property n) (.property n')
  | relationship : Same t t' .relationship .relationship

/-- The plans place one criterion the same, and look up its tiers as levels of the same tiers. -/
structure Placed.Same (p p' : Plan) (x x' : Placed) : Prop where
  criterion : x'.criterion = x.criterion
  route : x.route.Same p.table p'.table x'.route
  levels : ∀ a ∈ x.criterion.boundTiers, ∃ n n' l l',
    p.Resolves a n l ∧ p'.Resolves a n' l' ∧ l'.tier = l.tier

/-! Criteria -/

namespace Plan

variable {ρ} {p p' : Plan}

theorem SameUpTo.denotes (h : p.SameUpTo ρ p') {a : Tier} {v w : String} (hv : p.Denotes a v)
    (hw : p'.Denotes a w) : w = ρ v := by
  obtain ⟨l, hl, -, ha, rfl⟩ := hv
  obtain ⟨l', hl', -, ha', rfl⟩ := hw
  rw [h.frame, ha] at ha'
  exact (h.level l hl l' hl' (Except.ok.inj ha').symm).2.1

theorem SameUpTo.tokenLabels (h : p.SameUpTo ρ p') (a : Tier) :
    p'.tokenLabels a = p.tokenLabels a := by
  rw [Plan.tokenLabels, Plan.tokenLabels, h.corpus]

theorem SameUpTo.typeLabels (h : p.SameUpTo ρ p') (a : Tier) :
    p'.typeLabels a = p.typeLabels a := by
  rw [Plan.typeLabels, Plan.typeLabels, h.corpus]

/-- What a criterion says in the one plan it says in the other, under the new names. -/
theorem SameUpTo.constraint_eq (h : p.SameUpTo ρ p') {c : Criterion} {k k' : Constraint Value}
    (hk : p.Says c k) (hk' : p'.Says c k') : k' = k.rename ρ := by
  cases hk with
  | value hv =>
    cases hk' with
    | value hv' =>
      rw [h.denotes hv hv']
      rfl
  | path hv hw =>
    cases hk' with
    | path hv' hw' =>
      rw [h.denotes hv hv', h.denotes hw hw']
      rfl
  | alignment hv hw =>
    cases hk' with
    | alignment hv' hw' =>
      rw [h.denotes hv hv', h.denotes hw hw']
      rfl
  | contains hv hc _ hd =>
    cases hk' with
    | contains hv' hc' _ hd' =>
      rw [h.frame, hc] at hc'
      obtain rfl := Except.ok.inj hc'
      rw [h.frame, hd] at hd'
      obtain rfl := Option.some.inj hd'
      rw [h.denotes hv hv', h.tokenLabels, h.typeLabels]
      rfl

/-- The same of comparisons, as they stand on nodes and in filters. -/
theorem SameUpTo.predicate_eq (h : p.SameUpTo ρ p') {c : Criterion} {x x' : Predicate Value}
    (hx : p.Says c (.compare x)) (hx' : p'.Says c (.compare x')) : x' = x.rename ρ :=
  Constraint.compare.inj (h.constraint_eq hx hx')

/-! Nodes -/

/-- With the pin as a condition, every criterion on the node has its condition. -/
theorem Carries.conditions {cs : List Criterion} {pin? : Option Value} {own : List (Predicate Value)}
    {v : String} (h : p.Carries cs pin? own)
    (hv : ∀ path op operand, .comparison path op operand ∈ cs → p.Denotes path.tier v) :
    ∃ ys : List (Predicate Value), List.Forall₂ (fun c y => p.Says c (.compare y)) cs ys ∧
      ys.Perm ((pin?.toList.map fun x => ⟨.property v .id, .eq, .param x⟩) ++ own) := by
  cases h with
  | unpinned _ hown => exact ⟨own, hown, .refl _⟩
  | @pinned before after c x own _ hc hown =>
    obtain ⟨path, rfl, hid⟩ := Criterion.pin?_eq_some hc
    have hsays : p.Says (.comparison path .eq (.value x))
        (.compare ⟨.property v .id, .eq, .param x⟩) :=
      hid ▸ .value (hv path .eq (.value x) (by simp))
    exact List.perm_comp_forall₂ List.perm_middle (.cons hsays hown)

theorem rename_addedDiscourse {l l' : Level} {cs cs' : List Criterion} (ht : l'.tier = l.tier)
    (hv : l'.var = ρ l.var) (hcs : cs.Perm cs') :
    (addedDiscourse l cs).map (Predicate.rename ρ) = addedDiscourse l' cs' := by
  have hany : cs'.any (·.discourseLiteral?.isSome) = cs.any (·.discourseLiteral?.isSome) := by
    rw [Bool.eq_iff_iff, List.any_eq_true, List.any_eq_true]
    simp only [hcs.mem_iff]
  unfold addedDiscourse
  rw [ht, hv, hany]
  split
  · rfl
  · split <;> rfl

/-- The nodes of one tier carry the same criteria. -/
theorem SameUpTo.node (h : p.SameUpTo ρ p') {l l' : LevelId × Level} {cs cs' : List Criterion}
    {x x' : NodePattern Value} (hx : p.NodeSays l cs x) (hx' : p'.NodeSays l' cs' x')
    (hl : l.2 ∈ p.table.levels) (hl' : l'.2 ∈ p'.table.levels) (ht : l'.2.tier = l.2.tier)
    (hcs : cs.Perm cs')
    (hd : ∀ path op operand, .comparison path op operand ∈ cs → p.Denotes path.tier l.2.var)
    (hd' : ∀ path op operand, .comparison path op operand ∈ cs' → p'.Denotes path.tier l'.2.var) :
    x.SameUpTo ρ x' := by
  obtain ⟨-, hvar, htypeVar⟩ := h.level _ hl _ hl' ht
  refine ⟨by rw [hx'.var, hx.var, hvar], by rw [hx'.labels, hx.labels, ht, h.tokenLabels], ?_, ?_⟩
  · rw [hx'.typeNode, hx.typeNode, ht, htypeVar, h.typeLabels]
    split <;> rfl
  · obtain ⟨own, hcarries, hinline⟩ := hx.inline
    obtain ⟨own', hcarries', hinline'⟩ := hx'.inline
    obtain ⟨ys, hys, hperm⟩ := hcarries.conditions hd
    obtain ⟨ys', hys', hperm'⟩ := hcarries'.conditions hd'
    have hsame : (ys.map (Predicate.rename ρ)).Perm ys' :=
      (Rearranges.of_sources hcs hys hys' fun c _ y y' => h.predicate_eq).map_perm
    rw [NodePattern.conditions, NodePattern.conditions, hinline, hinline', hx.var, hx'.var,
      ← List.append_assoc, ← List.append_assoc, List.map_append,
      rename_addedDiscourse ht hvar hcs]
    exact ((hperm.symm.map _).trans (hsame.trans hperm')).append_right _

end Plan

/-! Places -/

theorem Property.route_same {t t' : LevelTable} {property : Property} {n n' : LevelId}
    (h : t.SameTier t' n n') : (property.route n).Same t t' (property.route n') := by
  unfold route
  split
  · exact .identity h
  · split
    · exact .anchor h
    · exact .property h

/-- In one frame a criterion has the same place, whatever the other criteria are. -/
theorem Analysis.placed_same {q q' : Query} {i i' : Intent} {p p' : Plan}
    {placed placed' : List (Mention × Tier)} (h : Analysis q i p placed)
    (h' : Analysis q' i' p' placed') (hf : p'.frame = p.frame) {x x' : Placed}
    (hx : x ∈ p.placement) (hx' : x' ∈ p'.placement) (hc : x'.criterion = x.criterion) :
    x.Same p p' x' := by
  have hmem := (h.site_of_mem hx).1
  have hmem' := hc ▸ (h'.site_of_mem hx').1
  have htier {a : Tier} {n n' : LevelId} {l l' : Level} (hl : p.Resolves a n l)
      (hl' : p'.Resolves a n' l') : l'.tier = l.tier := by
    have hcanonical := hl'.canonical
    rw [hf, hl.canonical] at hcanonical
    exact (Except.ok.inj hcanonical).symm
  refine ⟨hc, ?_, fun a ha => ?_⟩
  · have hsite := h.site_eq_constraints_iff hx
    have hsite' := h'.site_eq_constraints_iff hx'
    rw [hc, hf] at hsite'
    by_cases hr : x.route = .relationship
    · rw [hr, hsite'.1 (hsite.2 hr)]
      exact .relationship
    · have hr' : x'.route ≠ .relationship := fun e => hr (hsite.1 (hsite'.2 e))
      obtain ⟨path, op, operand, n, l, he, hl, -, hroute, -⟩ := h.resolves_placed hx hr
      obtain ⟨path', op', operand', n', l', he', hl', -, hroute', -⟩ := h'.resolves_placed hx' hr'
      obtain ⟨rfl, -, -⟩ : path = path' ∧ op = op' ∧ operand = operand' := by
        simpa using he.symm.trans (hc.symm.trans he')
      rw [hroute, hroute']
      exact Property.route_same ⟨l, l', hl.level, hl'.level, htier hl hl'⟩
  · obtain ⟨n, l, hl, -⟩ := h.resolves_bound hmem ha
    obtain ⟨n', l', hl', -⟩ := h'.resolves_bound hmem' ha
    exact ⟨n, n', l, l', hl, hl', htier hl hl'⟩

/-! Tails -/

namespace Plan.SameUpTo

variable {ρ} {p p' : Plan}

theorem reads (h : p.SameUpTo ρ p') {path : AttributePath} {e e' : Expr π} (he : p.Reads path e)
    (he' : p'.Reads path e') : e' = e.rename ρ := by
  obtain ⟨l, hl, hc, rfl⟩ := he
  obtain ⟨l', hl', hc', rfl⟩ := he'
  rw [h.frame, hc] at hc'
  rw [(h.level l hl l' hl' (Except.ok.inj hc').symm).2.1]
  rfl

/-- What is returned in the one plan is returned in the other. -/
theorem returns (h : p.SameUpTo ρ p') {o : Output} {x x' : ReturnItem π} (hx : p.Returns o x)
    (hx' : p'.Returns o x') : x' = x.rename ρ := by
  cases hx with
  | path he =>
    cases hx' with
    | path he' =>
      rw [h.reads he he']
      rfl
  | aggregate ha he =>
    cases hx' with
    | aggregate ha' he' =>
      obtain rfl := Option.some.inj (ha.symm.trans ha')
      rw [h.reads he he']
      rfl
    | allRows ha' =>
      rw [ha] at ha'
      cases ha'
  | allRows ha =>
    cases hx' with
    | aggregate ha' _ =>
      rw [ha] at ha'
      cases ha'
    | allRows _ => rfl

/-- What is written in the one plan is written in the other. -/
theorem mutationTail (h : p.SameUpTo ρ p')
    (hroot : p'.table.root.tier = p.table.root.tier ∧ p'.table.root.var = ρ p.table.root.var ∧
      p'.table.root.typeVar = ρ p.table.root.typeVar) (m : Mutation) :
    p'.mutationTail m = (p.mutationTail m).rename ρ := by
  obtain ⟨ht, hv, htv⟩ := hroot
  have hassign (v : String) (b : Bindings) :
      assignments (ρ v) b = (assignments v b).map (Assignment.rename ρ) := by
    rw [assignments, assignments, List.map_map]
    rfl
  simp only [Plan.mutationTail, ht, hv, htv, h.typeLabels, hassign]
  split
  · rfl
  · split <;> simp only [Tail.rename, List.map_append] <;> rfl

/-! Edges -/

variable {q q' : Query} {i i' : Intent} {placed placed' : List (Mention × Tier)}

theorem varOf (h : p.SameUpTo ρ p') (ha : Analysis q i p placed) (ha' : Analysis q' i' p' placed')
    {t : Tier} (ht : t ∈ p.table.levels.map (·.tier)) : p'.varOf t = ρ (p.varOf t) := by
  obtain ⟨l', hl', rfl⟩ := List.mem_map.1 (h.tiers.mem_iff.1 ht)
  obtain ⟨l, hl, hlt⟩ := List.mem_map.1 ht
  rw [ha'.varOf_tier hl', ← hlt, ha.varOf_tier hl]
  exact (h.level l hl l' hl' hlt.symm).2.1

/-- The edge to a tier is the same when both its ends are. -/
theorem edgeTo (h : p.SameUpTo ρ p') (ha : Analysis q i p placed) (ha' : Analysis q' i' p' placed')
    {t : Tier} (ht : t ∈ p.table.levels.map (·.tier))
    (habove : p.frame.above t ∈ p.table.levels.map (·.tier)) :
    p'.edgeTo p'.varOf t = (p.edgeTo p.varOf t).map (Edge.rename ρ) := by
  have hrelation (hop : Hop) :
      p'.relation (p.frame.above t) hop = p.relation (p.frame.above t) hop := by
    cases hop <;> simp only [Plan.relation, h.frame]
  rw [Plan.edgeTo, Plan.edgeTo, Option.map_map, h.frame, h.varOf ha ha' ht, h.varOf ha ha' habove]
  simp only [hrelation]
  rfl

end Plan.SameUpTo

end TierQuery
