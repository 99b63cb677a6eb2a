import TierQuery.Proofs.Analysis
import TierQuery.Proofs.Clauses
import TierQuery.Session

/-! Operations are atomic. One that has no statement leaves the query alone and asks no one. One
that has a statement hands it to the store once, and the query keeps the argument of the operation
whatever the store answers. What a write runs does not depend on what was written before. -/

namespace TierQuery

open Json (Value)

namespace Operation

def intent : Operation → Intent
  | all | toCsv _ | aggregate _ => .rows
  | count => .count
  | setType _ | setToken _ | delete => .mutation

def mode : Operation → AccessMode
  | all | toCsv _ | count | aggregate _ => .read
  | setType _ | setToken _ | delete => .write

/-- The query with the argument of the operation in the place of what stood there. -/
def staged (q : Query) : Operation → Query
  | all | toCsv _ | count => q
  | aggregate as => { q with aggregates := as }
  | setType es => { q with mutation := ⟨.ofList es, .empty, false⟩ }
  | setToken es => { q with mutation := ⟨.empty, .ofList es, false⟩ }
  | delete => { q with mutation := ⟨.empty, .empty, true⟩ }

/-- The statement that the operation runs. -/
def statement (q : Query) : Operation → Except StatementError Statement
  | aggregate [] => .error (.build .emptyAggregate)
  | op => (op.staged q).compile op.intent

end Operation

/-- The store's answer to a call. -/
def Environment.ask (env : Environment) (c : Call) : Except String (RowSet ⊕ WriteAck) :=
  match c.mode with
  | .read => (env.execute c).map .inl
  | .write => (env.executeWrite c).map .inr

/-- What the operation saves, once the store has answered. -/
def Operation.saved (answer : Except String (RowSet ⊕ WriteAck)) :
    Operation → List (String × RowSet)
  | toCsv path =>
    match answer with
    | .ok (.inl rows) => [(path, rows)]
    | _ => []
  | _ => []

/-- What an operation on a query comes to, whatever the store and the sink answer. -/
structure Outcome.Atomic (q : Query) (op : Operation) (env : Environment) (o : Outcome) : Prop where
  rejected : ∀ e, op.statement q = .error e → o = ⟨q, [], [], .error (.statement e)⟩
  called : ∀ s, op.statement q = .ok s →
    s.mode = op.mode ∧ (s.retrySafe = false ↔ op = .delete) ∧
      o.calls = [⟨op.mode, s.text, s.params⟩]
  kept : ∀ s, op.statement q = .ok s → o.query = op.staged q
  saved : ∀ s, op.statement q = .ok s → o.saves = op.saved (env.ask ⟨op.mode, s.text, s.params⟩)
  failed : ∀ s m, op.statement q = .ok s → env.ask ⟨op.mode, s.text, s.params⟩ = .error m →
    o.answer = .error (.execution m)
  unsaved : ∀ path rows m, (path, rows) ∈ o.saves → env.save path rows = .error m →
    o.answer = .error (.saving m)
  /-- Nothing but the answers to the calls and saves listed counts. -/
  observed : ∀ env' : Environment, (∀ c ∈ o.calls, env'.ask c = env.ask c) →
    (∀ x ∈ o.saves, env'.save x.1 x.2 = env.save x.1 x.2) → q.perform env' op = o

/-! The kind of a statement -/

theorem Tail.yields_kind (t : Tail Literal) :
    Yields (t.replace Literal.number) fun t' => t'.mode = t.mode ∧ t'.retrySafe = t.retrySafe := by
  cases t with
  | select items order => exact (Yields.trivial _).bind fun _ _ => .pure ⟨rfl, rfl⟩
  | set link? assignments => exact (Yields.trivial _).bind fun _ _ => .pure ⟨rfl, rfl⟩
  | delete var => exact .pure ⟨rfl, rfl⟩

theorem Statement.kind_ofBody (b : Body Literal) :
    (Statement.ofBody b).mode = b.tail.mode ∧
      (Statement.ofBody b).retrySafe = b.tail.retrySafe := by
  have h : Yields (b.replace Literal.number)
      fun b' => b'.tail.mode = b.tail.mode ∧ b'.tail.retrySafe = b.tail.retrySafe :=
    (Yields.trivial _).bind fun _ _ => (Yields.trivial _).bind fun _ _ =>
      (Yields.trivial _).bind fun _ _ => (Yields.trivial _).bind fun _ _ =>
        b.tail.yields_kind.bind fun _ ht => .pure ht
  exact h .empty

theorem Plan.kind_tail {p : Plan} {q : Query} {i : Intent} {t : Tail Literal}
    (h : p.tail q i = .ok t) :
    (t.mode = .write ↔ i = .mutation) ∧
      (t.retrySafe = false ↔ i = .mutation ∧ q.mutation.delete = true) := by
  cases i with
  | rows =>
    obtain ⟨items, order, rfl, -⟩ := Plan.rowsTail_eq_ok h
    simp [Tail.mode, Tail.retrySafe]
  | count =>
    cases h
    simp [Plan.countTail, Tail.mode, Tail.retrySafe]
  | mutation =>
    cases h
    by_cases hd : q.mutation.delete <;> simp [Plan.mutationTail, Tail.mode, Tail.retrySafe, hd]

/-- A statement writes when it is for a mutation, and only a deletion may not be run again. -/
theorem Query.kind_of_compile {q : Query} {i : Intent} {s : Statement} (h : q.compile i = .ok s) :
    (s.mode = .write ↔ i = .mutation) ∧
      (s.retrySafe = false ↔ i = .mutation ∧ q.mutation.delete = true) := by
  obtain ⟨-, p, b, -, hb, rfl⟩ := Query.compile_eq_ok_iff.1 h
  have hkind := Statement.kind_ofBody b
  rw [hkind.1, hkind.2]
  exact Plan.kind_tail (Plan.body_eq_ok_iff.1 hb).2.2

namespace Operation

theorem kind_of_statement {q : Query} {op : Operation} {s : Statement}
    (h : op.statement q = .ok s) : s.mode = op.mode ∧ (s.retrySafe = false ↔ op = .delete) := by
  unfold statement at h
  split at h
  · cases h
  obtain ⟨hmode, hretry⟩ := Query.kind_of_compile h
  have hread : s.mode ≠ .write → s.mode = .read := by
    cases s.mode <;> simp
  cases op <;> simp_all [intent, mode, staged]

end Operation

/-! One operation -/

namespace Operation

/-- What a read saves of its rows and what it answers. -/
def conclude (q : Query) (env : Environment) (rows : RowSet) :
    Operation → List (String × RowSet) × Except OperationError Answer
  | toCsv path =>
    ([(path, rows)],
      match env.save path rows with
      | .ok () => .ok .saved
      | .error m => .error (.saving m))
  | count => ([], Query.countOf rows)
  | aggregate _ => ([], q.aggregateOf rows)
  | _ => ([], .ok (.rows rows))

/-- One call, and what follows from the answer to it. -/
def run (q : Query) (s : Statement) (env : Environment) (op : Operation) : Outcome :=
  match env.ask s.call with
  | .error m => ⟨q, [s.call], [], .error (.execution m)⟩
  | .ok (.inl rows) => ⟨q, [s.call], (op.conclude q env rows).1, (op.conclude q env rows).2⟩
  | .ok (.inr _) => ⟨q, [s.call], [], .ok .written⟩

variable {q q' : Query} {i : Intent} {env : Environment} {op : Operation}

theorem ask_of_read {s : Statement} (h : q.compile i = .ok s) (hi : i ≠ .mutation) :
    env.ask s.call = (env.execute s.call).map .inl := by
  have hmode : s.mode = .read := by
    have := (Query.kind_of_compile h).1
    cases hm : s.mode <;> simp_all
  simp [Environment.ask, Statement.call, hmode]

theorem read_eq_run {answer : RowSet → Except OperationError Answer} (hi : i ≠ .mutation)
    (hc : ∀ rows, op.conclude q' env rows = ([], answer rows)) :
    (match q'.compile i with
      | .error e => Outcome.rejected q e
      | .ok s => q'.read s env answer) =
    match q'.compile i with
      | .error e => ⟨q, [], [], .error (.statement e)⟩
      | .ok s => op.run q' s env := by
  cases hs : q'.compile i with
  | error e => rfl
  | ok s =>
    simp only [Query.read, run, ask_of_read hs hi]
    cases env.execute s.call <;> simp [Except.map, hc]

theorem saveTo_eq_run (path : String) (hi : i ≠ .mutation) :
    (match q.compile i with
      | .error e => Outcome.rejected q e
      | .ok s => Query.saveTo path env (q.read s env (.ok ∘ .rows))) =
    match q.compile i with
      | .error e => ⟨q, [], [], .error (.statement e)⟩
      | .ok s => (toCsv path).run q s env := by
  cases hs : q.compile i with
  | error e => rfl
  | ok s =>
    simp only [Query.saveTo, Query.read, run, ask_of_read hs hi]
    cases env.execute s.call <;> rfl

theorem write_eq_run (q : Query) (m : Mutation) (env : Environment) (op : Operation) :
    q.write m env =
      match (q.withMutation m).mutationStatement with
      | .error e => ⟨q, [], [], .error (.statement e)⟩
      | .ok s => op.run (q.withMutation m) s env := by
  unfold Query.write
  cases hs : (q.withMutation m).mutationStatement with
  | error e => simp only [hs, Outcome.rejected]
  | ok s =>
    have hmode : s.mode = .write := (Query.kind_of_compile hs).1.2 rfl
    have hask : env.ask s.call = (env.executeWrite s.call).map .inr := by
      simp [Environment.ask, Statement.call, hmode]
    simp only [hs, run, hask]
    cases env.executeWrite s.call <;> rfl

end Operation

/-- Every operation is its statement, one call, and what follows from the answer to it. -/
theorem Query.perform_eq (q : Query) (env : Environment) (op : Operation) :
    q.perform env op =
      match op.statement q with
      | .error e => ⟨q, [], [], .error (.statement e)⟩
      | .ok s => op.run (op.staged q) s env := by
  cases op
  case setType | setToken | delete => exact Operation.write_eq_run q _ env _
  case all => exact Operation.read_eq_run (i := .rows) nofun fun _ => rfl
  case count => exact Operation.read_eq_run (i := .count) nofun fun _ => rfl
  case toCsv path => exact Operation.saveTo_eq_run (i := .rows) path nofun
  case aggregate as =>
    match as with
    | [] => rfl
    | _ :: _ => exact Operation.read_eq_run (i := .rows) nofun fun _ => rfl

namespace Operation

variable {q : Query} {s : Statement} {env : Environment} {op : Operation}

theorem run_query_calls : (op.run q s env).query = q ∧ (op.run q s env).calls = [s.call] := by
  unfold run
  split <;> exact ⟨rfl, rfl⟩

theorem run_saves : (op.run q s env).saves = op.saved (env.ask s.call) := by
  unfold run
  cases env.ask s.call with
  | error m => cases op <;> rfl
  | ok answer =>
    cases answer with
    | inl rows => cases op <;> rfl
    | inr ack => cases op <;> rfl

theorem run_unsaved {path : String} {rows : RowSet} {m : String}
    (hmem : (path, rows) ∈ (op.run q s env).saves) (h : env.save path rows = .error m) :
    (op.run q s env).answer = .error (.saving m) := by
  rw [run_saves] at hmem
  unfold run
  cases hask : env.ask s.call with
  | error m => cases op <;> simp [hask, saved] at hmem
  | ok answer =>
    cases answer with
    | inl rows =>
      cases op <;> simp [hask, saved] at hmem
      obtain ⟨rfl, rfl⟩ := hmem
      simp [conclude, h]
    | inr ack => cases op <;> simp [hask, saved] at hmem

theorem run_congr {env' : Environment} (hask : env'.ask s.call = env.ask s.call)
    (hsave : ∀ x ∈ (op.run q s env).saves, env'.save x.1 x.2 = env.save x.1 x.2) :
    op.run q s env' = op.run q s env := by
  rw [run_saves] at hsave
  unfold run
  rw [hask]
  cases ha : env.ask s.call with
  | error m => rfl
  | ok answer =>
    cases answer with
    | inl rows =>
      have hconclude : op.conclude q env' rows = op.conclude q env rows := by
        cases op <;> simp_all [conclude, saved]
      simp only [hconclude]
    | inr ack => rfl

end Operation

theorem atomic_perform (q : Query) (op : Operation) (env : Environment) :
    (q.perform env op).Atomic q op env := by
  cases hs : op.statement q with
  | error e =>
    have hperform (env : Environment) : q.perform env op = ⟨q, [], [], .error (.statement e)⟩ := by
      rw [q.perform_eq env op, hs]
    rw [hperform env]
    refine ⟨?_, by simp [hs], by simp [hs], by simp [hs], by simp [hs], by simp, ?_⟩
    · intro e' he'
      cases hs.symm.trans he'
      rfl
    · exact fun env' _ _ => hperform env'
  | ok s =>
    obtain ⟨hmode, hretry⟩ := Operation.kind_of_statement hs
    have hcall : (⟨op.mode, s.text, s.params⟩ : Call) = s.call := by rw [Statement.call, hmode]
    have hperform (env : Environment) : q.perform env op = op.run (op.staged q) s env := by
      rw [q.perform_eq env op, hs]
    rw [hperform env]
    have heq : ∀ s', op.statement q = .ok s' → s' = s := fun s' h => Except.ok.inj (h.symm.trans hs)
    refine ⟨by simp [hs], ?_, ?_, ?_, ?_, fun path rows m => Operation.run_unsaved, ?_⟩
    · intro s' h
      rw [heq s' h, hcall]
      exact ⟨hmode, hretry, Operation.run_query_calls.2⟩
    · exact fun _ _ => Operation.run_query_calls.1
    · intro s' h
      rw [heq s' h, hcall]
      exact Operation.run_saves
    · intro s' m h hask
      rw [heq s' h, hcall] at hask
      simp only [Operation.run, hask]
    · intro env' hask hsave
      rw [hperform env']
      refine Operation.run_congr (hask _ ?_) hsave
      rw [Operation.run_query_calls.2]
      exact List.mem_singleton.2 rfl

/-! What a list of properties binds -/

theorem map_fst_bindEntry (name : String) (v : Value) (es : List (String × Value)) :
    (bindEntry name v es).map Prod.fst =
      if name ∈ es.map Prod.fst then es.map Prod.fst else es.map Prod.fst ++ [name] := by
  induction es with
  | nil => rfl
  | cons e es ih =>
    unfold bindEntry
    by_cases h : e.1 = name
    · simp [h]
    · simp only [if_neg h, List.map_cons, ih, List.mem_cons, Ne.symm h, false_or]
      split_ifs <;> rfl

theorem member?_bindEntry (name key : String) (v : Value) (es : List (String × Value)) :
    Value.member? (bindEntry name v es) key =
      if key = name then some v else Value.member? es key := by
  induction es with
  | nil => by_cases h : key = name <;> simp [bindEntry, Value.member?, h, eq_comm]
  | cons e es ih =>
    unfold bindEntry
    by_cases he : e.1 = name
    · by_cases h : key = name <;> simp_all [Value.member?, eq_comm]
    · rw [if_neg he]
      unfold Value.member? at ih ⊢
      by_cases hk : e.1 = key
      · simp [hk, hk ▸ he]
      · simpa [List.find?_cons, hk] using ih

namespace Bindings

theorem names_bind (b : Bindings) (name : String) (v : Value) :
    (b.bind name v).names = if name ∈ b.names then b.names else b.names ++ [name] :=
  map_fst_bindEntry name v b.entries

theorem names_extend {b : Bindings} (given : List String) (hb : b.names = distinct given)
    (es : List (String × Value)) : (b.extend es).names = distinct (given ++ es.map Prod.fst) := by
  induction es generalizing b given with
  | nil => simpa [extend] using hb
  | cons e es ih =>
    rw [List.map_cons, List.append_cons]
    apply ih
    rw [names_bind, hb, distinct_concat]
    simp only [mem_distinct]

theorem get?_extend (b : Bindings) (es : List (String × Value)) (key : String) :
    (b.extend es).get? key = (Value.member? es.reverse key).or (b.get? key) := by
  induction es generalizing b with
  | nil => rfl
  | cons e es ih =>
    have hbind : (b.bind e.1 e.2).get? key = if key = e.1 then some e.2 else b.get? key :=
      member?_bindEntry e.1 key e.2 b.entries
    refine (ih (b.bind e.1 e.2)).trans ?_
    rw [hbind, List.reverse_cons]
    simp only [Value.member?, List.find?_append, List.find?_singleton]
    by_cases h : e.1 = key
    · simp [h]
    · simp [h, Ne.symm h]

/-- Each name has its first place and its last value. -/
theorem names_ofList (es : List (String × Value)) :
    (ofList es).names = distinct (es.map Prod.fst) ∧
      ∀ key, (ofList es).get? key = Value.member? es.reverse key := by
  refine ⟨names_extend [] rfl es, fun key => ?_⟩
  rw [ofList, get?_extend]
  simp [get?, empty, Value.member?]

end Bindings

/-! What a write depends on -/

/-- The edits that say which tokens are searched for. -/
def Edit.selects : Edit → Bool
  | .corpus _ | .filter _ | .filterContainedBy _ | .filterContains .. | .filterAligned ..
  | .discourses _ => true
  | .columns _ | .times | .timesAs .. | .duration | .groupBy _ | .orderBy .. | .aggregates _
  | .typeUpdate _ | .tokenUpdate _ | .delete => false

def Step.selection? : Step → Option Edit
  | .edit e => if e.selects then some e else none
  | .operate _ _ => none

/-- The same tokens are searched for. -/
structure Query.SameSearch (q q' : Query) : Prop where
  hierarchy : q.hierarchy = q'.hierarchy
  corpus? : q.corpus? = q'.corpus?
  find : q.find = q'.find
  criteria : q.criteria = q'.criteria

namespace Query

variable {q q' : Query}

theorem compile_mutation_congr (h : q.SameSearch q') (hm : q.mutation = q'.mutation) :
    q.compile .mutation = q'.compile .mutation := by
  simp only [compile, validate, checkMutation, draft, plan, references, Plan.body, Plan.tail,
    h.hierarchy, h.corpus?, h.find, h.criteria, hm]

theorem SameSearch.staged (op : Operation) : (op.staged q).SameSearch q := by
  cases op <;> exact ⟨rfl, rfl, rfl, rfl⟩

theorem SameSearch.trans {q'' : Query} (h : q.SameSearch q') (h' : q'.SameSearch q'') :
    q.SameSearch q'' :=
  ⟨h.hierarchy.trans h'.hierarchy, h.corpus?.trans h'.corpus?, h.find.trans h'.find,
    h.criteria.trans h'.criteria⟩

theorem SameSearch.statement (h : q.SameSearch q') {op : Operation} (hop : op.mode = .write) :
    op.statement q = op.statement q' := by
  have hstaged : (op.staged q).SameSearch (op.staged q') := by
    cases op <;> exact ⟨h.hierarchy, h.corpus?, h.find, h.criteria⟩
  cases op
  case setType | setToken | delete => exact compile_mutation_congr hstaged rfl
  all_goals cases hop

theorem SameSearch.filter (h : q.SameSearch q') (c : Criterion) :
    (q.filter c).SameSearch (q'.filter c) := by
  unfold Query.filter
  rw [h.criteria]
  split_ifs
  · exact h
  · exact ⟨h.hierarchy, h.corpus?, h.find, rfl⟩

theorem SameSearch.edit (h : q.SameSearch q') (e : Edit) : (q.edit e).SameSearch (q'.edit e) := by
  cases e
  case corpus name => exact ⟨h.hierarchy, rfl, h.find, h.criteria⟩
  case filter c | filterContainedBy c => exact h.filter c
  case filterContains | filterAligned =>
    simp only [Query.edit, filterContains, filterAligned, h.find]
    exact h.filter _
  case discourses names =>
    simp only [Query.edit, discourses, h.find]
    split <;> exact h.filter _
  all_goals exact ⟨h.hierarchy, h.corpus?, h.find, h.criteria⟩

theorem SameSearch.edit_left (h : q.SameSearch q') {e : Edit} (he : e.selects = false) :
    (q.edit e).SameSearch q' := by
  cases e
  case corpus | filter | filterContainedBy | filterContains | filterAligned | discourses =>
    cases he
  all_goals exact ⟨h.hierarchy, h.corpus?, h.find, h.criteria⟩

/-- An operation leaves the search as it is. -/
theorem SameSearch.perform (h : q.SameSearch q') (op : Operation) (env : Environment) :
    (q.perform env op).query.SameSearch q' := by
  have hatomic := atomic_perform q op env
  cases hs : op.statement q with
  | error e =>
    rw [hatomic.rejected e hs]
    exact h
  | ok s =>
    rw [hatomic.kept s hs]
    exact (SameSearch.staged op).trans h

/-! Sessions -/

theorem session_append (q : Query) (before steps : List Step) :
    q.session (before ++ steps) =
      (((q.session before).1.session steps).1,
        (q.session before).2 ++ ((q.session before).1.session steps).2) := by
  induction before generalizing q with
  | nil => rfl
  | cons step before ih =>
    cases step with
    | edit e => exact ih (q.edit e)
    | operate op env =>
      simp only [List.cons_append, session, ih]

/-- Whatever was done with a query, it searches for what its edits say. -/
theorem SameSearch.session (h : q.SameSearch q') (steps : List Step) :
    (q.session steps).1.SameSearch (q'.edits (steps.filterMap Step.selection?)) := by
  induction steps generalizing q q' with
  | nil => exact h
  | cons step steps ih =>
    cases step with
    | edit e =>
      by_cases he : e.selects
      · rw [List.filterMap_cons_some (by rw [Step.selection?, if_pos he])]
        exact ih (h.edit e)
      · rw [List.filterMap_cons_none (by rw [Step.selection?, if_neg he])]
        exact ih (h.edit_left (by simpa using he))
    | operate op env =>
      rw [List.filterMap_cons_none rfl]
      exact ih (h.perform op env)

end Query

/-- In every session each operation is atomic, whatever comes before and after it, and a write
depends on the tokens searched for and on its own argument, not on what was staged or done before. -/
theorem operations_are_atomic_and_never_replay (q : Query) (before after : List Step)
    (op : Operation) (env : Environment) :
    let r := (q.session before).1
    let o := r.perform env op
    q.session (before ++ .operate op env :: after) =
        ((o.query.session after).1, (q.session before).2 ++ o :: (o.query.session after).2) ∧
      o.Atomic r op env ∧
      (∀ es : List (String × Value), (Bindings.ofList es).names = distinct (es.map Prod.fst) ∧
        ∀ key, (Bindings.ofList es).get? key = Value.member? es.reverse key) ∧
      r.SameSearch (q.edits (before.filterMap Step.selection?)) ∧
      (op.mode = .write → ∀ r', r.SameSearch r' → op.statement r = op.statement r') := by
  intro r o
  refine ⟨?_, atomic_perform r op env, Bindings.names_ofList, ?_, ?_⟩
  · exact Query.session_append q before (.operate op env :: after)
  · exact Query.SameSearch.session ⟨rfl, rfl, rfl, rfl⟩ before
  · exact fun hop r' hr => hr.statement hop

/-- A store and a sink that cannot be reached. -/
def Environment.offline : Environment where
  execute _ := .error "offline"
  executeWrite _ := .error "offline"
  save _ _ := .error "offline"

/-- The type written first does not come back with the token property written next, though both
writes fail in the store and a deletion is staged between them. -/
theorem offline_relabelling_is_not_replayed :
    let before : List Step := [.operate (.setType [("label", .text "V")]) .offline, .edit .delete]
    let op : Operation :=
      .setToken [("checked", .bool false), ("note", .text "n"), ("checked", .bool true)]
    let x := Query.phonesBeforePause.session (before ++ [.operate op .offline])
    ∃ s os o, op.statement Query.phonesBeforePause = .ok s ∧ x.2 = os ++ [o] ∧
      o.calls = [⟨.write, s.text, s.params⟩] ∧ o.answer = .error (.execution "offline") ∧
      o.query.mutation.typeProperties.entries = [] ∧ o.query.mutation.delete = false ∧
      o.query.mutation.tokenProperties.entries
        = [("checked", .bool true), ("note", .text "n")] := by
  intro before op x
  obtain ⟨s, hs⟩ :=
    exists_ok_of_isOk (x := op.statement Query.phonesBeforePause) (by decide +kernel)
  obtain ⟨hsession, hatomic, -, hsearch, hwrite⟩ :=
    operations_are_atomic_and_never_replay Query.phonesBeforePause before [] op .offline
  have hs' := (hwrite rfl _ hsearch).trans hs
  refine ⟨s, _, _, hs, congrArg Prod.snd hsession, (hatomic.called s hs').2.2,
    hatomic.failed s _ hs' rfl, ?_⟩
  rw [hatomic.kept s hs']
  exact ⟨rfl, rfl, by decide⟩

end TierQuery
