import HexGame.Proofs.Chain.Ending
import HexGame.Proofs.MonteCarlo.Score

/-!
# Random games

A playout is a game of random moves (`RandomGame`). It never gets stuck: each of its positions is playable,
and a playable position is decided or has a move. Its score is that of the winner, seen by the player who
moved last on the first board.
-/
namespace HexGame
namespace MonteCarlo

variable {G : Type} [ChoiceSource G] {mode : Mode} {c : Config Float} {b b' : Board} {g g' : G} {n k : Nat}

/-- A game of so many moves, each drawn among the legal ones, to the first decided position. -/
inductive RandomGame (mode : Mode) : Board → G → Nat → Board → G → Prop where
  | ended {b : Board} {g : G} (h : b.isDecided mode = true) : RandomGame mode b g 0 b g
  | ply {b b' : Board} {g g₁ g' : G} {k : Nat} {mv : Move} {moves : List Move} {i : Fin (moves.length + 1)}
      (hopen : b.isDecided mode = false) (hmoves : b.legalMoves = mv :: moves)
      (hdraw : ChoiceSource.below (moves.length + 1) (Nat.succ_pos _) g = (i, g₁))
      (h : RandomGame mode (b.place ((mv :: moves)[i])) g₁ k b' g') : RandomGame mode b g (k + 1) b' g'

theorem exists_draw {n : Nat} (h : 0 < n) (g : G) : ∃ i g₁, ChoiceSource.below n h g = (i, g₁) := ⟨_, _, rfl⟩

theorem getElem_mem_legalMoves {mv : Move} {moves : List Move} (hmoves : b.legalMoves = mv :: moves)
    (i : Fin (moves.length + 1)) : (mv :: moves)[i] ∈ b.legalMoves := by
  rw [hmoves]
  exact List.getElem_mem i.isLt

namespace RandomGame

theorem isDecided (h : RandomGame mode b g k b' g') : b'.isDecided mode = true := by
  induction h with
  | ended h => exact h
  | ply _ _ _ _ ih => exact ih

theorem emptyCells_add (h : RandomGame mode b g k b' g') : b'.emptyCells + k = b.emptyCells := by
  induction h with
  | ended _ => rfl
  | @ply b _ _ _ _ _ mv moves i _ hmoves _ _ ih =>
    have he := (Board.isEmptyAt_of_mem_legalMoves (getElem_mem_legalMoves hmoves i)).1
    have := Board.emptyCells_place he
    omega

end RandomGame

theorem playoutFrom_of_decided (h : b.isDecided c.terminal = true) :
    playoutFrom c n b g = .ok (winScore c b, g) := by
  unfold playoutFrom
  rw [if_pos h]

/-- A playout that makes a move: the score of the rest is that of the other side. -/
theorem playoutFrom_ply {g₁ : G} {mv : Move} {moves : List Move} {i : Fin (moves.length + 1)} {score : Float}
    (hopen : b.isDecided c.terminal = false) (hmoves : b.legalMoves = mv :: moves)
    (hdraw : ChoiceSource.below (moves.length + 1) (Nat.succ_pos _) g = (i, g₁))
    (hrest : playoutFrom c n (b.place ((mv :: moves)[i])) g₁ = .ok (score, g')) :
    playoutFrom c (n + 1) b g = .ok (-score, g') := by
  unfold playoutFrom
  simp only [hopen, Bool.false_eq_true, if_false, hmoves, hdraw, hrest]

theorem playoutFrom_spec (h : b.Playable) (hn : b.emptyCells ≤ n) (g : G) :
    ∃ k b' g', RandomGame c.terminal b g k b' g' ∧ playoutFrom c n b g =
      .ok (if b'.lastMover = b.lastMover then winScore c b' else -winScore c b', g') := by
  induction n generalizing b g with
  | zero =>
    cases hopen : b.isDecided c.terminal with
    | true => exact ⟨0, b, g, .ended hopen, by rw [playoutFrom_of_decided hopen, if_pos rfl]⟩
    | false =>
      have := Board.legalMoves_ne_nil_iff.mp (h.legalMoves_ne_nil hopen)
      omega
  | succ n ih =>
    cases hopen : b.isDecided c.terminal with
    | true => exact ⟨0, b, g, .ended hopen, by rw [playoutFrom_of_decided hopen, if_pos rfl]⟩
    | false =>
      obtain ⟨mv, moves, hmoves⟩ := List.exists_cons_of_ne_nil (h.legalMoves_ne_nil hopen)
      obtain ⟨i, g₁, hdraw⟩ := exists_draw (Nat.succ_pos moves.length) g
      have hmv := getElem_mem_legalMoves hmoves i
      have hless := Board.emptyCells_place (Board.isEmptyAt_of_mem_legalMoves hmv).1
      obtain ⟨k, b', g', hgame, hrun⟩ := ih (Board.Playable.place hopen hmv) (by omega) g₁
      refine ⟨k + 1, b', g', .ply hopen hmoves hdraw hgame, ?_⟩
      rw [playoutFrom_ply hopen hmoves hdraw hrun, Board.lastMover_place hmv, Board.toMove]
      by_cases hwinner : b'.lastMover = b.lastMover
      · rw [if_pos hwinner, hwinner, if_neg (Ne.symm b.lastMover.opponent_ne), FloatRank.neg_neg]
      · rw [if_neg hwinner, if_pos (Color.eq_opponent_of_ne hwinner)]

/-- A playout from a playable board does not fail. It makes at most as many moves as there are empty cells,
and its score is positive if the player who moved last has won, and negative if the other one has. -/
theorem playout_spec (c : Config Float) (h : b.Playable) (g : G) :
    ∃ score k b' g', playout c b g = .ok (score, g') ∧ RandomGame c.terminal b g k b' g' ∧
      k ≤ b.emptyCells ∧ b'.isConnected b'.lastMover c.terminal = true ∧
      (b'.lastMover = b.lastMover → 0 < score) ∧ (b'.lastMover = b.lastMover.opponent → score < 0) := by
  obtain ⟨k, b', g', hgame, hrun⟩ := playoutFrom_spec (c := c) h (Nat.le_refl _) g
  have hcells := hgame.emptyCells_add
  have hpos := zero_lt_winScore c b'
  rw [← b.empty_stoneCounts] at hrun
  refine ⟨_, k, b', g', hrun, hgame, by omega, hgame.isDecided, fun he => ?_, fun he => ?_⟩
  · rwa [if_pos he]
  · rw [if_neg (by rw [he]; exact Color.opponent_ne _)]
    exact FloatRank.neg_lt_zero hpos

end MonteCarlo
end HexGame
