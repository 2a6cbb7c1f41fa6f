import HexGame.Proofs.Negamax.Forced
import HexGame.Proofs.Negamax.Static

/-!
# Deepening

Without a deadline every round finds the plain value for its depth and leaves a table by which the next one
orders its moves. So the rounds go on to the first depth at which the game is seen to be won or lost
(`deepen_spec`), and there is one: the last round looks at all empty cells.
-/
namespace HexGame
namespace Negamax

variable {V : Type} [GameValue V] {R : Ranking V} {score : Board → V} {s : Setting V} {b : Board}
variable {depth empty k : Nat} {mv : Move}

/-! ## The depths of the rounds -/

theorem mem_schedule {d : Nat} : d ∈ schedule empty ↔
    ∃ k < max 1 ((empty + 1) / 2), min (2 * (k + 1)) empty = d := by
  simp [schedule]

theorem pos_of_mem_schedule (h : 0 < empty) : ∀ d ∈ schedule empty, 0 < d := by
  intro d hd
  obtain ⟨k, -, rfl⟩ := mem_schedule.mp hd
  omega

theorem empty_mem_schedule (h : 0 < empty) : empty ∈ schedule empty :=
  mem_schedule.mpr ⟨max 1 ((empty + 1) / 2) - 1, by omega, by omega⟩

/-- The depth in front of which a part of the schedule lies, and the depths in this part. -/
theorem schedule_split {before after : List Nat} {d : Nat} (h : schedule empty = before ++ d :: after) :
    d = min (2 * (before.length + 1)) empty ∧ ∀ k < before.length, min (2 * (k + 1)) empty ∈ before := by
  have hget {k : Nat} (hk : k < (schedule empty).length) : (schedule empty)[k] = min (2 * (k + 1)) empty := by
    simp [schedule]
  constructor
  · have hk : before.length < (schedule empty).length := by simp [h]
    rw [← hget hk]
    simp [h]
  · intro k hk
    have hk' : k < (schedule empty).length := by
      simp [h]
      omega
    rw [← hget hk']
    simp [h, List.getElem_append_left hk]

/-! ## A round -/

/-- What a round on an open position finds when it is not interrupted. -/
structure Round.Finds (R : Ranking V) (score : Board → V) (b : Board) (depth : Nat) (r : Round V) : Prop where
  isNumber : R.IsNumber r.value
  rank : R.rank r.value = R.rank (plainValue score depth b)
  table : ∀ (k : BoardKey) entry, r.table[k]? = some entry → R.IsNumber entry.value
  best : ∃ mv, r.best = some mv ∧ mv ∈ b.legalMoves ∧
    R.rank (plainValue score (depth - 1) (b.place mv)) = -R.rank r.value

theorem round_spec (hs : Scores R s.evaluate score b depth) (hnever : s.deadline = .never)
    (horders : OrdersMoves s) (hopen : b.isDecided .strict = false) (hmoves : b.legalMoves ≠ [])
    (hdepth : 0 < depth) (checks : Nat) :
    ∃ r, round s b depth checks = .ok r ∧ r.Finds R score b depth := by
  obtain ⟨r, p, hvisit, hr, hrank, hp, hnone, hbest⟩ := visit_empty hs hnever horders checks
  refine ⟨⟨r.value, r.best, p.nodes, p.checks, p.table, r.node⟩, ?_, hr, hrank, hp.isNumber, ?_⟩
  · simp [round, hvisit, bind, Except.bind, pure, Except.pure]
  · have hsome : r.best ≠ none := by
      rw [Ne, hnone, hopen]
      simp only [Bool.false_eq_true, false_or, not_or]
      exact ⟨by omega, hmoves⟩
    obtain ⟨mv, hmv⟩ := Option.ne_none_iff_exists'.mp hsome
    exact ⟨mv, hmv, hbest mv hmv⟩

/-! ## All rounds -/

/-- A game is solved when its value is that of a finished game, with a move that leads to it. -/
structure Outcome.Solves (R : Ranking V) (score : Board → V) (b : Board) (o : Outcome V) : Prop where
  isNumber : R.IsNumber o.value
  rank : R.rank o.value = R.rank (plainValue score o.depth b)
  decisive : R.Decisive (plainValue score o.depth b)
  best : ∃ mv, o.best = some mv ∧ mv ∈ b.legalMoves ∧
    R.rank (plainValue score (o.depth - 1) (b.place mv)) = -R.rank o.value

theorem deepen_spec (hs : FiniteScores R s.evaluate score b) (hnever : s.deadline = .never)
    (hprevious : ∀ table ∈ s.previous, ∀ (k : BoardKey) entry, table[k]? = some entry →
      R.IsNumber entry.value)
    (hopen : b.isDecided .strict = false) (hmoves : b.legalMoves ≠ []) {depths : List Nat}
    (hpos : ∀ d ∈ depths, 0 < d) (hsolved : ∃ d ∈ depths, R.Decisive (plainValue score d b))
    (checks : Nat) (outcome : Outcome V) :
    ∃ o before after, deepen s b depths checks outcome = .ok o ∧ o.Solves R score b ∧
      depths = before ++ o.depth :: after ∧ ∀ d ∈ before, ¬ R.Decisive (plainValue score d b) := by
  induction depths generalizing s checks outcome with
  | nil => simp at hsolved
  | cons d depths ih =>
    obtain ⟨r, hround, hr⟩ := round_spec (hs.scores d) hnever (ordersMoves hprevious) hopen hmoves
      (hpos d (by simp)) checks
    obtain ⟨mv, hbest, hlegal, hchild⟩ := hr.best
    cases hdecisive : GameValue.isDecisive r.value with
    | true =>
      have hd : R.Decisive (plainValue score d b) := by
        have := (R.isDecisive_iff hr.isNumber).mp hdecisive
        rwa [Ranking.Decisive, hr.rank] at this
      refine ⟨⟨some mv, r.value, d, outcome.nodes + r.nodes, r.tree⟩, [], depths, ?_,
        ⟨hr.isNumber, hr.rank, hd, mv, rfl, hlegal, hchild⟩, rfl, by simp⟩
      simp [deepen, hround, hbest, hdecisive]
    | false =>
      have hd : ¬ R.Decisive (plainValue score d b) := fun hd => by
        rw [Ranking.Decisive, ← hr.rank] at hd
        exact Bool.noConfusion (((R.isDecisive_iff hr.isNumber).mpr hd).symm.trans hdecisive)
      have hlater : ∃ d ∈ depths, R.Decisive (plainValue score d b) := by
        obtain ⟨d', hmem, hd'⟩ := hsolved
        rcases List.mem_cons.mp hmem with rfl | hmem
        · exact absurd hd' hd
        · exact ⟨d', hmem, hd'⟩
      obtain ⟨o, before, after, hrun, ho, hsplit, hbefore⟩ :=
        ih (s := { s with previous := some r.table }) hs hnever
          (fun table htable => Option.some.inj htable ▸ hr.table) (fun d hd => hpos d (by simp [hd]))
          hlater r.checks ⟨some mv, r.value, d, outcome.nodes + r.nodes, r.tree⟩
      refine ⟨o, d :: before, after, ?_, ho, by rw [hsplit]; rfl, ?_⟩
      · simp [deepen, hround, hbest, hdecisive, hrun]
      · intro d' hd'
        rcases List.mem_cons.mp hd' with rfl | hd'
        · exact hd
        · exact hbefore d' hd'

end Negamax
end HexGame
