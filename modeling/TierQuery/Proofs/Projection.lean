import TierQuery.Proofs.Tree
import TierQuery.Query.Edit
import TierQuery.Statement.Text

/-! What a statement for rows returns. Its columns are the stored ones, or the groups and then the
aggregates, under different names. Each reads its own property on the node of its own tier, and rows
are sorted by columns that are there. -/

namespace TierQuery

variable {α β γ π : Type}

/-- A returned column: a path, or an aggregate. -/
inductive Output
  | path (p : AttributePath)
  | aggregate (a : Aggregate)
deriving DecidableEq

def Output.name : Output → String
  | path p => p.outputName
  | aggregate a => a.outputName

namespace Query

/-- The paths that rows are returned or grouped by. -/
def returned (q : Query) : List AttributePath :=
  if q.aggregates.isEmpty then q.columns else q.grouping

/-- What is returned. Aggregates come behind the groups that they are taken over. -/
def outputs (q : Query) : List Output :=
  q.returned.map .path ++ q.aggregates.map .aggregate

end Query

/-- Every token node, also the optional ones. -/
def Body.tokenNodes (b : Body π) : List (NodePattern π) := b.nodes ++ b.optional.map (·.node)

namespace Plan

/-- The expression is the property of the path on the level that its tier means. -/
def Reads (p : Plan) (path : AttributePath) (e : Expr π) : Prop :=
  ∃ l ∈ p.table.levels, p.frame.canonical path.tier = .ok l.tier ∧ e = .property l.var path.property

/-- The item returns what was asked for, under its name. -/
inductive Returns (p : Plan) : Output → ReturnItem π → Prop
  | path {path : AttributePath} {e : Expr π} :
    p.Reads path e → Returns p (.path path) ⟨.value e, path.outputName⟩
  | aggregate {a : Aggregate} {path : AttributePath} {e : Expr π} : a.path? = some path →
    p.Reads path e → Returns p (.aggregate a) ⟨.aggregate a.function (some e), a.outputName⟩
  | allRows {a : Aggregate} :
    a.path? = none → Returns p (.aggregate a) ⟨.aggregate a.function none, a.outputName⟩

/-- A field of the ordering names one column, which is no aggregate, and keeps its direction. -/
structure Sorts (items : List (ReturnItem π)) (o : OrderField) (x : OrderItem) : Prop where
  direction : x.descending = o.descending
  column : ∃ e, items.filter (·.name = x.name) = [⟨.value e, x.name⟩]

/-- The statement returns what the query asks for. The nodes that it reads from are those of the
levels, one each. -/
structure Projects (p : Plan) (q : Query) (items : List (ReturnItem String))
    (order : List OrderItem) (s : Statement) : Prop where
  tail : s.body.tail = .select items order
  returned : List.Forall₂ p.Returns q.outputs items
  names : s.columns = q.outputs.map Output.name
  once : s.columns.Nodup
  ordering : List.Forall₂ (Sorts items) q.ordering order
  nodes : (s.body.tokenNodes.map NodePattern.shape).Perm
    (p.table.levels.map fun l => p.shape (fun _ => l.var) l.tier)
  vars : (s.body.tokenNodes.map (·.var)).Nodup

end Plan

/-! Checks -/

theorem Query.checkDistinct_eq_ok_iff {seen names : List String} :
    checkDistinct seen names = .ok () ↔ names.Nodup ∧ ∀ n ∈ names, n ∉ seen := by
  induction names generalizing seen with
  | nil => simp [checkDistinct]
  | cons n ns ih =>
    by_cases h : n ∈ seen
    · simp [checkDistinct, h]
    · rw [checkDistinct, if_neg h, ih, List.nodup_cons, List.forall_mem_cons]
      refine ⟨?_, ?_⟩
      · rintro ⟨hnd, hns⟩
        refine ⟨⟨fun hm => hns n hm List.mem_cons_self, hnd⟩, h, fun m hm hseen => ?_⟩
        exact hns m hm (List.mem_cons_of_mem _ hseen)
      · rintro ⟨⟨hn, hnd⟩, -, hns⟩
        refine ⟨hnd, fun m hm hseen => ?_⟩
        rcases List.mem_cons.1 hseen with rfl | hseen
        · exact hn hm
        · exact hns m hm hseen

theorem check_bind_eq_ok_iff {ε : Type} {x y : Except ε Unit} :
    (x >>= fun _ => y) = .ok () ↔ x = .ok () ∧ y = .ok () := by
  rw [bind_eq_ok_iff]
  exact ⟨fun ⟨_, hx, hy⟩ => ⟨hx, hy⟩, fun ⟨hx, hy⟩ => ⟨(), hx, hy⟩⟩

theorem forM_eq_ok_iff {ε : Type} {f : α → Except ε Unit} {xs : List α} :
    xs.forM f = .ok () ↔ ∀ x ∈ xs, f x = .ok () := by
  induction xs with
  | nil => exact ⟨fun _ => by simp, fun _ => rfl⟩
  | cons x xs ih =>
    rw [List.forall_mem_cons, ← ih]
    exact check_bind_eq_ok_iff

theorem Query.checkOrder_eq_ok_iff {q : Query} {returned : List AttributePath} :
    q.checkOrder returned = .ok () ↔
      ∀ o ∈ q.ordering, ∃ p, findReturned? returned o.path = some p := by
  refine forM_eq_ok_iff.trans (forall₂_congr fun o _ => ?_)
  cases findReturned? returned o.path <;> simp

/-- What a query for rows is checked for, with and without aggregates. -/
theorem Query.validate_rows_eq_ok_iff {q : Query} :
    q.validate .rows = .ok () ↔ (q.aggregates = [] → q.grouping = []) ∧
      (q.outputs.map Output.name).Nodup ∧
      ∀ o ∈ q.ordering, ∃ p, findReturned? q.returned o.path = some p := by
  have hnames : q.outputs.map Output.name
      = q.returned.map AttributePath.outputName ++ q.aggregates.map Aggregate.outputName := by
    rw [outputs, List.map_append, List.map_map, List.map_map]
    rfl
  by_cases ha : q.aggregates = []
  · by_cases hg : q.grouping = []
    · simp [validate, checkRows, ha, hg, hnames, returned, check_bind_eq_ok_iff,
        checkDistinct_eq_ok_iff, checkOrder_eq_ok_iff]
    · simp [validate, checkRows, ha, hg]
  · simp [validate, checkAggregates, ha, hnames, returned, check_bind_eq_ok_iff,
      checkDistinct_eq_ok_iff, checkOrder_eq_ok_iff]

theorem findReturned?_eq_some {returned : List AttributePath} {field p : AttributePath}
    (h : findReturned? returned field = some p) :
    p ∈ returned ∧ (p.sameTarget field = true ∨ p.outputName = field.outputName) := by
  rcases Option.or_eq_some_iff.1 h with h | ⟨-, h⟩
  · exact ⟨List.mem_of_find?_eq_some h, Or.inl (by simpa using List.find?_some h)⟩
  · exact ⟨List.mem_of_find?_eq_some h, Or.inr (by simpa using List.find?_some h)⟩

/-! Nodes -/

/-- Only the searched-for tier may be without hops. -/
theorem Frame.hops_of_canonical {f : Frame} {a t : Tier} (h : f.canonical a = .ok t)
    (ht : t ≠ f.root) : t.hops ≠ [] := by
  obtain ⟨-, s, -, -, -, ⟨-, hb⟩ | ⟨hh, rfl⟩⟩ := canonical_eq_ok_iff.1 h
  · exact absurd (bindRoot_eq_ok hb).1 ht
  · exact hh

theorem Tier.hops_of_mem_chain {a x : Tier} (ha : a.hops ≠ []) (hx : x ∈ a.chain) : x.hops ≠ [] := by
  rcases mem_chain.1 hx with rfl | ⟨n, h0, hn, rfl⟩
  · exact ha
  · exact hops_ne_nil_iff.2 (by rw [depth_cut]; omega)

namespace Analysis

variable {q : Query} {i : Intent} {p : Plan} {placed : List (Mention × Tier)} {b : Body Literal}

/-- Whatever is searched for, an optional level is not without hops. -/
theorem hops_of_optional (h : Analysis q i p placed) {l : LevelId × Level}
    (hl : l ∈ p.table.optional) : l.2.tier.hops ≠ [] := by
  obtain ⟨hl, hreq⟩ := LevelTable.mem_optional.1 hl
  rw [h.levels_eq] at hl
  have hnot : l.2.tier ∉ LevelTable.requiredOf p.frame placed := by
    rw [← LevelTable.required_iff hl, hreq]
    simp
  have hmem : l.2.tier ∈ LevelTable.tiersOf p.frame placed := by
    rw [← LevelTable.map_tier_levelsOf]
    exact List.mem_map_of_mem (List.mem_of_getElem? hl)
  have hroot : l.2.tier ∉ p.frame.root.chain := fun hc =>
    hnot (LevelTable.mem_requiredOf.2 (Or.inl hc))
  obtain ⟨x, hx, hc⟩ := (LevelTable.mem_tiersOf.1 hmem).resolve_left hroot
  have hne : x.2 ≠ p.frame.root := fun e => hroot (e ▸ hc)
  exact Tier.hops_of_mem_chain (Frame.hops_of_canonical (h.canonical x hx) hne) hc

/-- A level with hops hangs on another one. -/
theorem exists_edge (h : Analysis q i p placed) {n : LevelId} {l : Level}
    (hl : p.table.levels[n]? = some l) (hh : l.tier.hops ≠ []) : ∃ e, p.edge? l = some e := by
  have hlevels := h.levels_eq
  have hparent : ∃ m k, l.parent? = some m ∧ p.table.levels[m]? = some k := by
    rw [hlevels] at hl ⊢
    obtain ⟨a, name, ha, -, rfl⟩ := LevelTable.getElem?_levelsOf.1 hl
    have hp : a.parent? = some (a.cut (a.depth - 1)) := Tier.parent?_eq_some_iff.2 ⟨hh, rfl⟩
    by_cases hc : (a.cut (a.depth - 1)).hops = []
    · have hpos := List.length_pos_iff.2 (LevelTable.levelsOf_ne_nil p.frame placed)
      exact ⟨0, _, by simp [LevelTable.levelOf, LevelTable.parentId?, hp, hc],
        List.getElem?_eq_getElem hpos⟩
    · have hmem := LevelTable.parent_mem_tiersOf (List.mem_of_getElem? ha) hp hc
      obtain ⟨m, hm⟩ := List.mem_iff_getElem?.1 hmem
      obtain ⟨k, hk, -⟩ := LevelTable.getElem?_tiersOf_iff.1 hm
      refine ⟨m, k, ?_, hk⟩
      simpa [LevelTable.levelOf, LevelTable.parentId?, hp, hc]
        using (LevelTable.index?_eq_some_iff LevelTable.nodup_tiersOf).2 hm
  obtain ⟨m, k, hm, hk⟩ := hparent
  refine ⟨⟨k.var, l.var, p.relation k.tier (l.tier.hops.getLast hh)⟩, ?_⟩
  simp [Plan.edge?, hm, hk, List.getLast?_eq_some_getLast hh]

theorem shape_optional (h : Analysis q i p placed) (hb : p.body q i = .ok b) :
    b.optional.map (·.node.shape) = p.table.optionalTiers.map (p.shape p.varOf) := by
  obtain ⟨-, ⟨os, hos, ho⟩, -⟩ := Plan.body_eq_ok_iff.1 hb
  have hall := forall₂_with_mem (mapM_eq_ok_iff.1 hos)
  rw [ho, LevelTable.optionalTiers, List.map_map]
  refine map_eq_of_forall₂ (forall₂_filterMap_id (hall.imp fun l o? hx => ?_))
  obtain ⟨hl, hx⟩ := hx
  have hlevel := (LevelTable.mem_optional.1 hl).1
  obtain ⟨e, he⟩ := h.exists_edge hlevel (h.hops_of_optional hl)
  obtain ⟨n, rfl, hs⟩ := optional_says hx
  rw [he]
  exact ⟨_, rfl, hs.shape (h.varOf_tier (List.mem_of_getElem? hlevel))⟩

/-- Every level has a node, whatever is searched for. -/
theorem shape_tokenNodes (h : Analysis q i p placed) (hb : p.body q i = .ok b) :
    (b.tokenNodes.map NodePattern.shape).Perm
      (p.table.levels.map fun l => p.shape (fun _ => l.var) l.tier) := by
  have hnodes : b.tokenNodes.map NodePattern.shape
      = (p.table.requiredTiers ++ p.table.optionalTiers).map (p.shape p.varOf) := by
    rw [Body.tokenNodes, List.map_append, List.map_append, h.shape_nodes hb, List.map_map]
    exact congrArg _ (h.shape_optional hb)
  have hlevels : (p.table.levels.map fun l => p.shape (fun _ => l.var) l.tier)
      = (p.table.levels.map (·.tier)).map (p.shape p.varOf) := by
    rw [List.map_map]
    refine List.map_congr_left fun l hl => ?_
    simp only [Function.comp_apply, Plan.shape, h.varOf_tier hl]
  rw [hnodes, hlevels]
  exact p.table.tiers_perm.map _

end Analysis

theorem Statement.shape_tokenNodes_ofBody (b : Body Literal) :
    (Statement.ofBody b).body.tokenNodes.map NodePattern.shape
      = b.tokenNodes.map NodePattern.shape := by
  obtain ⟨hn, -, ho⟩ := tree_ofBody b
  have ho := congrArg (List.map Prod.fst) ho
  rw [List.map_map, List.map_map] at ho
  rw [Body.tokenNodes, Body.tokenNodes, List.map_append, List.map_append, hn, List.map_map,
    List.map_map]
  exact congrArg _ ho

/-! Returned items -/

namespace Analysis

variable {q : Query} {p : Plan} {placed : List (Mention × Tier)}

/-- What rows return is mentioned. -/
theorem resolves_returned (h : Analysis q .rows p placed) {path : AttributePath}
    (hp : path ∈ q.returned ++ q.aggregates.filterMap (·.path?)) :
    ∃ n l, p.Resolves path.tier n l := by
  obtain ⟨m, hm, ht⟩ : ∃ m ∈ (q.references .rows).mentions, m.tier = path.tier := by
    refine References.exists_mem_mentions ?_
    by_cases ha : q.aggregates = []
    · simpa [Query.references, Query.returned, ha] using hp
    · simpa [Query.references, Query.returned, ha] using hp
  obtain ⟨n, l, hl, -⟩ := h.resolves_mention hm
  exact ⟨n, l, ht ▸ hl⟩

theorem reads_pathExpr (h : Analysis q .rows p placed) {path : AttributePath}
    (hp : path ∈ q.returned ++ q.aggregates.filterMap (·.path?)) :
    ∃ e, p.pathExpr path = .ok e ∧ p.Reads path e := by
  obtain ⟨n, l, hl⟩ := h.resolves_returned hp
  refine ⟨.property l.var path.property, ?_, l, List.mem_of_getElem? hl.level, hl.canonical, rfl⟩
  rw [Plan.pathExpr, hl.var]
  rfl

theorem returns_column (h : Analysis q .rows p placed) {path : AttributePath}
    (hp : path ∈ q.returned) : ∃ x, p.column path = .ok x ∧ p.Returns (.path path) x := by
  obtain ⟨e, he, hr⟩ := h.reads_pathExpr (List.mem_append_left _ hp)
  exact ⟨⟨.value e, path.outputName⟩, by rw [Plan.column, he]; rfl, .path hr⟩

theorem returns_aggregate (h : Analysis q .rows p placed) {a : Aggregate}
    (ha : a ∈ q.aggregates) : ∃ x, p.aggregate a = .ok x ∧ p.Returns (.aggregate a) x := by
  cases hpath : a.path? with
  | none =>
    refine ⟨⟨.aggregate a.function none, a.outputName⟩, ?_, .allRows hpath⟩
    rw [Plan.aggregate, hpath]
    rfl
  | some path =>
    obtain ⟨e, he, hr⟩ :=
      h.reads_pathExpr (List.mem_append_right _ (List.mem_filterMap.2 ⟨a, ha, hpath⟩))
    refine ⟨⟨.aggregate a.function (some e), a.outputName⟩, ?_, .aggregate hpath hr⟩
    have hsome : (some path).mapM p.pathExpr = .ok (some e) := by
      rw [Option.mapM_some, he]
      rfl
    rw [Plan.aggregate, hpath, hsome]
    rfl

/-- There is a tail of rows, and it returns what is asked for. -/
theorem returns_rows (h : Analysis q .rows p placed) :
    ∃ items, p.rowsTail q = .ok (.select items (Plan.orderItems q q.returned)) ∧
      List.Forall₂ p.Returns q.outputs items := by
  obtain ⟨paths, hpaths, hp⟩ := exists_mapM_eq_ok fun _ hm => h.returns_column hm
  obtain ⟨aggs, haggs, ha⟩ := exists_mapM_eq_ok fun _ hm => h.returns_aggregate hm
  have hall : List.Forall₂ p.Returns q.outputs (paths ++ aggs) :=
    List.rel_append (List.forall₂_map_left_iff.2 hp) (List.forall₂_map_left_iff.2 ha)
  refine ⟨paths ++ aggs, ?_, hall⟩
  by_cases hq : q.aggregates = []
  · have hnone : aggs = [] := List.forall₂_nil_left_iff.1 (hq ▸ ha)
    rw [Query.returned, if_pos (by simp [hq])] at hpaths ⊢
    rw [Plan.rowsTail, if_pos (by simp [hq]), hpaths, hnone, List.append_nil]
    rfl
  · rw [Query.returned, if_neg (by simpa using hq)] at hpaths ⊢
    rw [Plan.rowsTail, if_neg (by simpa using hq), hpaths, haggs]
    rfl

end Analysis

namespace Plan

variable {p : Plan}

theorem Returns.name {o : Output} {x : ReturnItem π} (h : p.Returns o x) : x.name = o.name := by
  cases h <;> rfl

/-- Of items with different names, one has the name. -/
theorem filter_name {items : List (ReturnItem π)} (h : (items.map (·.name)).Nodup) {x : ReturnItem π}
    (hx : x ∈ items) : items.filter (·.name = x.name) = [x] := by
  obtain ⟨before, after, rfl⟩ := List.append_of_mem hx
  rw [List.map_append, List.map_cons, List.nodup_middle, List.nodup_cons, List.mem_append,
    not_or] at h
  have hnone (ys : List (ReturnItem π)) (hys : x.name ∉ ys.map (·.name)) :
      ys.filter (·.name = x.name) = [] := by
    refine List.filter_eq_nil_iff.2 fun y hy => ?_
    simpa using fun e => hys (List.mem_map.2 ⟨y, hy, e⟩)
  rw [List.filter_append, hnone before h.1.1, List.filter_cons_of_pos (by simp), hnone after h.1.2]
  rfl

/-- Every field of the ordering that means something names a column. -/
theorem sorts_orderItems {q : Query} {items : List (ReturnItem π)}
    (hr : List.Forall₂ p.Returns q.outputs items) (hn : (items.map (·.name)).Nodup)
    (ho : ∀ o ∈ q.ordering, ∃ r, findReturned? q.returned o.path = some r) :
    List.Forall₂ (Sorts items) q.ordering (orderItems q q.returned) := by
  rw [orderItems, List.forall₂_map_right_iff]
  refine List.forall₂_same.2 fun o hmem => ?_
  obtain ⟨r, hf⟩ := ho o hmem
  refine ⟨rfl, ?_⟩
  have hout : Output.path r ∈ q.outputs :=
    List.mem_append_left _ (List.mem_map_of_mem (findReturned?_eq_some hf).1)
  obtain ⟨x, hx, hret⟩ := forall₂_mem_left hr hout
  cases hret with
  | @path path e he =>
    refine ⟨e, ?_⟩
    simp only [hf, Option.getD_some]
    exact filter_name hn hx

end Plan

/-! Numbering keeps what is returned -/

theorem Yields.mapM_forall₂ {R : γ → α → Prop} {S : γ → β → Prop} {g : α → Numbering β}
    (h : ∀ c x, R c x → Yields (g x) (S c)) {cs : List γ} {xs : List α} (hx : List.Forall₂ R cs xs) :
    Yields (xs.mapM g) (List.Forall₂ S cs) := by
  induction hx with
  | nil =>
    rw [List.mapM_nil]
    exact pure .nil
  | cons hcx _ ih =>
    rw [List.mapM_cons]
    exact (h _ _ hcx).bind fun y hy => ih.bind fun ys hys => pure (.cons hy hys)

theorem Plan.Reads.yields {p : Plan} {path : AttributePath} {e : Expr Literal}
    (h : p.Reads path e) : Yields (e.replace Literal.number) (p.Reads path) := by
  obtain ⟨l, hl, hc, rfl⟩ := h
  exact .pure ⟨l, hl, hc, rfl⟩

theorem Plan.Returns.yields {p : Plan} {o : Output} {x : ReturnItem Literal} (h : p.Returns o x) :
    Yields (x.replace Literal.number) (p.Returns o) := by
  cases h with
  | @path path e he =>
    have hexpr : Yields ((ReturnExpr.value e).replace Literal.number) fun x =>
        ∃ e', x = .value e' ∧ p.Reads path e' :=
      he.yields.bind fun e' he' => .pure ⟨e', rfl, he'⟩
    refine hexpr.bind fun x hx => .pure ?_
    obtain ⟨e', rfl, he'⟩ := hx
    exact .path he'
  | @aggregate a path e ha he =>
    have harg : Yields ((some e).mapM (·.replace Literal.number)) fun e? =>
        ∃ e', e? = some e' ∧ p.Reads path e' :=
      he.yields.bind fun e' he' => .pure ⟨e', rfl, he'⟩
    have hexpr : Yields ((ReturnExpr.aggregate a.function (some e)).replace Literal.number) fun x =>
        ∃ e', x = .aggregate a.function (some e') ∧ p.Reads path e' :=
      harg.bind fun e? ⟨e', he?, he'⟩ => .pure ⟨e', by rw [he?], he'⟩
    refine hexpr.bind fun x hx => .pure ?_
    obtain ⟨e', rfl, he'⟩ := hx
    exact .aggregate ha he'
  | allRows ha => exact .pure (.allRows ha)

theorem Statement.returns_ofBody {p : Plan} {b : Body Literal} {os : List Output}
    {items : List (ReturnItem Literal)} {order : List OrderItem} (hb : b.tail = .select items order)
    (hr : List.Forall₂ p.Returns os items) :
    ∃ items', (Statement.ofBody b).body.tail = .select items' order ∧
      List.Forall₂ p.Returns os items' := by
  have htail : Yields (b.tail.replace Literal.number) fun t =>
      ∃ items', t = .select items' order ∧ List.Forall₂ p.Returns os items' := by
    rw [hb]
    exact (Yields.mapM_forall₂ (fun _ _ h => h.yields) hr).bind fun items' h => .pure ⟨items', rfl, h⟩
  have hbody : Yields (b.replace Literal.number) fun b' =>
      ∃ items', b'.tail = .select items' order ∧ List.Forall₂ p.Returns os items' :=
    (Yields.trivial _).bind fun _ _ => (Yields.trivial _).bind fun _ _ => (Yields.trivial _).bind
      fun _ _ => (Yields.trivial _).bind fun _ _ => htail.bind fun _ ht => .pure ht
  exact hbody .empty

namespace Query

variable {q : Query} {s : Statement}

/-- What is checked before a query is compiled is what its statement returns. -/
theorem projects_of_statement (hs : q.statement = .ok s) :
    ∃ p placed items, Analysis q .rows p placed ∧
      p.Projects q items (Plan.orderItems q q.returned) s := by
  obtain ⟨hv, p, b, hp, hb, rfl⟩ := compile_eq_ok_iff.1 hs
  obtain ⟨placed, h⟩ := plan_eq_ok_iff.1 hp
  obtain ⟨-, hnames, hordering⟩ := validate_rows_eq_ok_iff.1 hv
  obtain ⟨items, htail, hret⟩ := h.returns_rows
  have htail : b.tail = .select items (Plan.orderItems q q.returned) :=
    Except.ok.inj ((Plan.body_eq_ok_iff.1 hb).2.2.symm.trans htail)
  obtain ⟨items, htail, hret⟩ := Statement.returns_ofBody htail hret
  have hcolumns : items.map (·.name) = q.outputs.map Output.name :=
    map_eq_of_forall₂ (hret.imp fun _ _ hx => hx.name)
  have hnodes := h.shape_tokenNodes hb
  rw [← Statement.shape_tokenNodes_ofBody] at hnodes
  refine ⟨p, placed, items, h, htail, hret, ?_, ?_, ?_, hnodes, ?_⟩
  · rw [Statement.columns, htail, Tail.columns, hcolumns]
  · rw [Statement.columns, htail, Tail.columns, hcolumns]
    exact hnames
  · exact Plan.sorts_orderItems hret (hcolumns ▸ hnames) hordering
  · have hvars := hnodes.map NodeShape.var
    rw [List.map_map, List.map_map] at hvars
    refine hvars.nodup_iff.2 ?_
    rw [h.levels_eq]
    exact LevelTable.nodup_vars

end Query

/-! Stored columns -/

/-- The paths that an edit adds to the columns of a search for `find`. -/
def Edit.supplied (find : Tier) : Edit → List AttributePath
  | columns paths => paths
  | times => [find.attribute .begin, find.attribute .end]
  | timesAs begin «end» =>
    [(find.attribute .begin).withAlias begin, (find.attribute .end).withAlias «end»]
  | duration => [find.attribute .duration]
  | _ => []

namespace Query

theorem foldl_addColumn {columns given : List AttributePath} (h : columns = distinct given)
    (ps : List AttributePath) : ps.foldl addColumn columns = distinct (given ++ ps) := by
  induction ps generalizing columns given with
  | nil => simp [h]
  | cons p ps ih =>
    have hstep : addColumn columns p = distinct (given ++ [p]) := by
      rw [distinct_concat, addColumn, h]
      simp only [mem_distinct]
    rw [List.foldl_cons, ih hstep, List.append_assoc, List.singleton_append]

theorem filter_columns (q : Query) (c : Criterion) :
    (q.filter c).columns = q.columns ∧ (q.filter c).find = q.find := by
  unfold filter
  split <;> exact ⟨rfl, rfl⟩

/-- An edit adds the paths that it supplies, unless they are there. -/
theorem edit_columns (q : Query) (e : Edit) :
    (q.edit e).columns = (e.supplied q.find).foldl addColumn q.columns ∧
      (q.edit e).find = q.find := by
  cases e with
  | filter c => exact q.filter_columns c
  | filterContainedBy c => exact q.filter_columns c
  | filterContains path v => exact q.filter_columns _
  | filterAligned kind other => exact q.filter_columns _
  | discourses names =>
    have hd : ∃ c, q.discourses names = q.filter c := by
      unfold discourses
      split <;> exact ⟨_, rfl⟩
    obtain ⟨c, hc⟩ := hd
    rw [edit, hc]
    exact q.filter_columns c
  | _ => exact ⟨rfl, rfl⟩

theorem edits_columns {q : Query} {given : List AttributePath} (h : q.columns = distinct given)
    (es : List Edit) :
    (q.edits es).columns = distinct (given ++ es.flatMap (Edit.supplied q.find)) := by
  induction es generalizing q given with
  | nil => simp [edits, h]
  | cons e es ih =>
    obtain ⟨hc, hf⟩ := q.edit_columns e
    rw [foldl_addColumn h] at hc
    have hrest := ih hc
    rw [hf] at hrest
    rw [edits, List.foldl_cons, ← edits, hrest, List.flatMap_cons, List.append_assoc]

end Query

/-- What is checked before a query is compiled and what is made of it agree. A statement for rows
returns what was asked for under different names, each column from its own node, and sorts by columns
that are there; and the columns asked for are those that a search starts with and those supplied. -/
theorem rows_return_what_was_asked_for :
    (∀ (q : Query) (s : Statement), q.statement = .ok s → ∃ (p : Plan)
      (items : List (ReturnItem String)) (order : List OrderItem), q.plan .rows = .ok p ∧
        p.Projects q items order s) ∧
    ∀ (h : Hierarchy) (find : Tier) (es : List Edit),
      ((Query.ofFind h find).edits es).aggregates = [] →
      ((Query.ofFind h find).edits es).outputs
        = (distinct ([find.attribute .id, find.attribute .label]
          ++ es.flatMap (Edit.supplied find))).map .path := by
  refine ⟨fun q s hs => ?_, fun h find es ha => ?_⟩
  · obtain ⟨p, placed, items, h, hproj⟩ := Query.projects_of_statement hs
    exact ⟨p, items, _, Query.plan_eq_ok_iff.2 ⟨placed, h⟩, hproj⟩
  · have hnd : (Query.ofFind h find).columns
        = distinct [find.attribute .id, find.attribute .label] := by
      have hne : find.attribute .label ≠ find.attribute .id := by
        simp [Tier.attribute, Property.label, Property.id]
      simp [Query.ofFind, distinct, hne]
    have hcols := Query.edits_columns hnd es
    rw [Query.outputs, Query.returned, if_pos (by simp [ha]), ha, hcols]
    simp [Query.ofFind]

/-- The phones in their context, the last ends of words first. -/
def Query.phonesByWordEnd : Query :=
  Query.phonesInContext.orderBy (((Tier.ofLevel "phone").hop (.up "word")).attribute .end) true

theorem phonesByWordEnd_return_what_was_asked_for :
    ∃ s p items order, Query.phonesByWordEnd.statement = .ok s ∧
      Query.phonesByWordEnd.plan .rows = .ok p ∧ p.Projects Query.phonesByWordEnd items order s ∧
      order = [⟨"word_end", true⟩] ∧
      s.columns = ["id", "label", "word_end", "following_label"] := by
  obtain ⟨s, hs, htail⟩ := exists_ok_of_toOption_map
    (x := Query.phonesByWordEnd.statement)
    (g := fun s => (s.columns, match s.body.tail with | .select _ order => order | _ => []))
    (b := (["id", "label", "word_end", "following_label"], [⟨"word_end", true⟩])) (by decide +kernel)
  obtain ⟨p, items, order, hp, hproj⟩ := rows_return_what_was_asked_for.1 _ s hs
  obtain ⟨hcolumns, horder⟩ := Prod.ext_iff.1 htail
  refine ⟨s, p, items, order, hs, hp, hproj, ?_, hcolumns⟩
  rw [hproj.tail] at horder
  exact horder

end TierQuery
