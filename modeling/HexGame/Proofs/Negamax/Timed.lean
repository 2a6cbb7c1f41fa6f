import HexGame.Proofs.Negamax.Rounds
import HexGame.Proofs.Pattern.Counting

/-!
# Searches with a deadline

A search never fails for want of time: what it finds is what the rounds before the deadline have found, no move yet
or one that is legal (`search_legal`). It fails only where a static score is needed that is not there, or where
values that are not numbers have no order.
-/
namespace HexGame

namespace Negamax

variable {b b' : Board} {j : Nat} {mv : Move}

theorem Ahead.after_move (hopen : b.isDecided .strict = false) (hmv : mv ∈ b.legalMoves)
    (h : Ahead (b.place mv) j b') : Ahead b (j + 1) b' := by
  induction h with
  | root => exact Ahead.root.move hopen hmv
  | move _ hopen' hmv' ih => exact ih.move hopen' hmv'

/-- The static scores of all undecided positions ahead are there and are numbers. -/
def ScoresNumbers (e : Evaluator) (weights : ScoreWeights) (b : Board) : Prop :=
  ∀ j b', Ahead b j b' → b'.isDecided .strict = false →
    ∃ v, e.staticScore weights b' = .ok v ∧ v.isNaN = false

variable {e : Evaluator} {weights : ScoreWeights}

theorem ScoresNumbers.place (h : ScoresNumbers e weights b) (hopen : b.isDecided .strict = false)
    (hmv : mv ∈ b.legalMoves) : ScoresNumbers e weights (b.place mv) :=
  fun j b' hb' => h (j + 1) b' (hb'.after_move hopen hmv)

/-! ## Rounds that do not fail -/

section

variable {V : Type} [GameValue V] {R : Ranking V} {score : Board → V} {s s' : Setting V}
variable {depths : List Nat} {depth depth' checks checks' : Nat}

/-- A round that can order its moves is cancelled or leaves a table of numbers. -/
theorem round_total (hs : Scores R s.evaluate score b depth) (horders : OrdersMoves s) (checks : Nat) :
    round s b depth checks = .error (.error .cancelled) ∨ ∃ r, round s b depth checks = .ok r ∧
      ∀ (k : BoardKey) entry, r.table[k]? = some entry → R.IsNumber entry.value := by
  obtain ⟨r, p, hvisit, -, -, hp, -⟩ := visit_empty (s := s.untimed) hs rfl horders checks
  have hround : round s.untimed b depth checks = .ok ⟨r.value, r.best, p.nodes, p.checks, p.table, r.node⟩ :=
    bind_eq_ok.mpr ⟨(r, p), hvisit, rfl⟩
  refine (UnderDeadline.round s b depth checks).mayCancel.imp_right fun h => ?_
  exact ⟨_, h.trans hround, hp.isNumber⟩

theorem Begins.previous (h : Begins b s depths checks s' depth' checks')
    (hs : ∀ depth, Scores R s.evaluate score b depth)
    (hprevious : ∀ table ∈ s.previous, ∀ (k : BoardKey) entry, table[k]? = some entry →
      R.IsNumber entry.value) :
    ∀ table ∈ s'.previous, ∀ (k : BoardKey) entry, table[k]? = some entry → R.IsNumber entry.value := by
  induction h with
  | first => exact hprevious
  | @next s s' depth _ checks _ _ r hround _ _ ih =>
    refine ih hs fun table htable => ?_
    obtain rfl := Option.some.inj htable
    rcases round_total (hs depth) (ordersMoves hprevious) checks with hcancelled | ⟨r', hr', hnumbers⟩
    · cases hround.symm.trans hcancelled
    · exact Except.ok.inj (hround.symm.trans hr') ▸ hnumbers

theorem exists_deepen (hs : ∀ depth, Scores R s.evaluate score b depth)
    (hprevious : ∀ table ∈ s.previous, ∀ (k : BoardKey) entry, table[k]? = some entry →
      R.IsNumber entry.value) (outcome : Outcome V) :
    ∃ o, deepen s b depths checks outcome = .ok o := by
  cases hrun : deepen s b depths checks outcome with
  | ok o => exact ⟨o, rfl⟩
  | error e =>
    obtain ⟨he, s', depth, checks', hbegins, hfail⟩ := deepen_eq_error_iff.mp hrun
    have horders := ordersMoves (hbegins.previous hs hprevious)
    rcases round_total (hbegins.evaluate ▸ hs depth) horders checks' with hcancelled | ⟨r, hr, -⟩
    · exact absurd (Except.error.inj (hfail.symm.trans hcancelled)) he
    · cases hfail.symm.trans hr

end

theorem exists_search (h : ScoresNumbers e weights b) (deadline : Deadline) (wantTree : Bool) :
    ∃ o, search (e.staticScore weights) b deadline wantTree = .ok o :=
  exists_deepen (R := floatRanking) (s := ⟨e.staticScore weights, none, deadline, wantTree⟩)
    (fun depth => staticScores (h depth)) (by simp) .initial

theorem search_legal (h : ScoresNumbers e weights b) (deadline : Deadline) (wantTree : Bool) :
    ∃ o, search (e.staticScore weights) b deadline wantTree = .ok o ∧ ∀ mv ∈ o.best, mv ∈ b.legalMoves := by
  obtain ⟨o, ho⟩ := exists_search h deadline wantTree
  exact ⟨o, ho, best_of_deepen ho (by simp [Outcome.initial])⟩

/-! ## What a search finds and how it fails -/

/-- The static score of some position is needed, in a call of a round that the search has begun. -/
def NeedsScore (s : Setting Float) (b : Board) (depths : List Nat) : Prop :=
  ∃ s' depth checks c, Begins b s depths 0 s' depth checks ∧
    Relation.ReflTransGen (Call.Makes s') (.first b depth checks) c ∧ c.NeedsScore s'

section

variable {s : Setting Float} {depths : List Nat} {o : Outcome Float}

end

end Negamax
end HexGame
