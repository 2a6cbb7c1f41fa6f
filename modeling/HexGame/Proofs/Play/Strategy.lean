import HexGame.Proofs.Chain.Ending

/-!
# Forced wins

A strategy answers every position with a move, in view of the moves that led there. A player forces a
chain (`Forces`) when some own move, or every move of the opponent, leads on to a position in which this is
still so. This is the same as to have a winning strategy (`forces_iff_hasWin`), and at most one of the
players has one.
-/
namespace HexGame

/-- What a player does after the moves `past`, the latest first. -/
structure Strategy where
  move : (past : List Move) → Board → Move
  legal : ∀ past b, b.legalMoves ≠ [] → move past b ∈ b.legalMoves

/-- The board some moves later, where `color` plays by `own` and its opponent by `other`. -/
def playOut (color : Color) (own other : Strategy) : Nat → List Move → Board → Board
  | 0, _, b => b
  | n + 1, past, b =>
    let mv := if b.toMove = color then own.move past b else other.move past b
    playOut color own other n (mv :: past) (b.place mv)

/-- `color` has a strategy that reaches a complete chain against every play of the opponent. -/
def Board.HasWin (b : Board) (color : Color) : Prop :=
  ∃ own : Strategy, ∀ other : Strategy, ∃ n ≤ b.emptyCells,
    (playOut color own other n [] b).isConnected color .strict = true

inductive Forces (color : Color) : Board → Prop where
  | connected {b : Board} (h : b.isConnected color .strict = true) : Forces color b
  | own {b : Board} {mv : Move} (hturn : b.toMove = color) (hmv : mv ∈ b.legalMoves)
      (h : Forces color (b.place mv)) : Forces color b
  | other {b : Board} (hturn : b.toMove ≠ color) (hmoves : b.legalMoves ≠ [])
      (h : ∀ mv ∈ b.legalMoves, Forces color (b.place mv)) : Forces color b

variable {b : Board} {color : Color} {mv : Move} {past : List Move} {P : Board → Prop}

namespace Forces

theorem not_of_connected (h : Forces color b) : b.isConnected color.opponent .strict = false := by
  rw [← Bool.not_eq_true]
  induction h with
  | connected h =>
    intro hb
    exact Board.not_spans_opponent (Board.isConnected_strict_iff.mp h) (Board.isConnected_strict_iff.mp hb)
  | own _ hmv _ ih =>
    exact fun hb => ih (Board.isConnected_place (Board.isEmptyAt_of_mem_legalMoves hmv).1 hb)
  | other _ hmoves _ ih =>
    obtain ⟨mv, hmv⟩ := List.exists_mem_of_ne_nil _ hmoves
    exact fun hb => ih mv hmv (Board.isConnected_place (Board.isEmptyAt_of_mem_legalMoves hmv).1 hb)

theorem not_opponent (h : Forces color b) : ¬ Forces color.opponent b := by
  induction h with
  | connected h =>
    intro h'
    have hnot := h'.not_of_connected
    rw [Color.opponent_opponent] at hnot
    exact Bool.noConfusion (hnot.symm.trans h)
  | own hturn hmv h ih =>
    intro h'
    cases h' with
    | connected hb => exact Bool.noConfusion ((Forces.own hturn hmv h).not_of_connected.symm.trans hb)
    | own hturn' _ _ => exact Color.opponent_ne color (hturn'.symm.trans hturn)
    | other _ _ h => exact ih (h _ hmv)
  | other hturn hmoves h ih =>
    intro h'
    cases h' with
    | connected hb => exact Bool.noConfusion ((Forces.other hturn hmoves h).not_of_connected.symm.trans hb)
    | own _ hmv h => exact ih _ hmv h
    | other hturn' _ _ => exact hturn' (Color.eq_opponent_of_ne hturn)

end Forces

/-! ## Strategies that keep to some positions -/

namespace Strategy

open Classical in
/-- Plays a move to a position in `P` if there is one. -/
noncomputable def toward (P : Board → Prop) : Strategy where
  move _ b :=
    if h : ∃ mv ∈ b.legalMoves, P (b.place mv) then h.choose
    else b.legalMoves.headD ⟨⟨0, 0⟩, b.toMove⟩
  legal _ b hmoves := by
    split
    · rename_i h
      exact h.choose_spec.1
    · cases hb : b.legalMoves with
      | nil => exact absurd hb hmoves
      | cons mv moves => simp

theorem toward_spec (past : List Move) (h : ∃ mv ∈ b.legalMoves, P (b.place mv)) :
    (toward P).move past b ∈ b.legalMoves ∧ P (b.place ((toward P).move past b)) := by
  simp only [toward, dif_pos h]
  exact h.choose_spec

end Strategy

/-- Who plays on to forced positions reaches a chain, whatever the opponent does. -/
theorem Forces.exists_playOut (h : Forces color b) (other : Strategy) (past : List Move) :
    ∃ n ≤ b.emptyCells,
      (playOut color (.toward (Forces color)) other n past b).isConnected color .strict = true := by
  induction hm : b.emptyCells using Nat.strongRecOn generalizing b past with
  | ind m ih =>
    have hstep {mv : Move} (hmv : mv ∈ b.legalMoves) (hnext : Forces color (b.place mv))
        (hplayed : mv = if b.toMove = color then (Strategy.toward (Forces color)).move past b
          else other.move past b) : ∃ n ≤ m,
        (playOut color (.toward (Forces color)) other n past b).isConnected color .strict = true := by
      have hless := Board.emptyCells_place (Board.isEmptyAt_of_mem_legalMoves hmv).1
      obtain ⟨n, hn, hwon⟩ := ih _ (by omega) hnext (mv :: past) rfl
      refine ⟨n + 1, by omega, ?_⟩
      simpa only [playOut, ← hplayed] using hwon
    cases h with
    | connected h => exact ⟨0, Nat.zero_le _, h⟩
    | own hturn hmv h =>
      obtain ⟨hlegal, hnext⟩ := Strategy.toward_spec past ⟨_, hmv, h⟩
      exact hstep hlegal hnext (by rw [if_pos hturn])
    | other hturn hmoves h =>
      have hlegal := other.legal past b hmoves
      exact hstep hlegal (h _ hlegal) (by rw [if_neg hturn])

/-- The opponent can play so that a position that is not forced never becomes so. -/
theorem not_forces_playOut (h : ¬ Forces color b) (own : Strategy) {n : Nat} (hn : n ≤ b.emptyCells)
    (past : List Move) :
    ¬ Forces color (playOut color own (.toward fun b => ¬ Forces color b) n past b) := by
  induction n generalizing b past with
  | zero => exact h
  | succ n ih =>
    have hmoves : b.legalMoves ≠ [] := Board.legalMoves_ne_nil_iff.mpr (by omega)
    have hplayed : ∃ mv ∈ b.legalMoves, (mv = if b.toMove = color then own.move past b
        else (Strategy.toward fun b => ¬ Forces color b).move past b) ∧ ¬ Forces color (b.place mv) := by
      by_cases hturn : b.toMove = color
      · have hlegal := own.legal past b hmoves
        exact ⟨_, hlegal, by rw [if_pos hturn], fun hnext => h (.own hturn hlegal hnext)⟩
      · have hescape : ∃ mv ∈ b.legalMoves, ¬ Forces color (b.place mv) := by
          apply Classical.byContradiction
          intro hnone
          refine h (.other hturn hmoves fun mv hmv => ?_)
          exact Classical.byContradiction fun hmv' => hnone ⟨mv, hmv, hmv'⟩
        obtain ⟨hlegal, hnext⟩ := Strategy.toward_spec (P := fun b => ¬ Forces color b) past hescape
        exact ⟨_, hlegal, by rw [if_neg hturn], hnext⟩
    obtain ⟨mv, hmv, hplayed, hnext⟩ := hplayed
    have hless := Board.emptyCells_place (Board.isEmptyAt_of_mem_legalMoves hmv).1
    simpa only [playOut, ← hplayed] using ih hnext (by omega) (mv :: past)

theorem forces_iff_hasWin : Forces color b ↔ b.HasWin color := by
  constructor
  · intro h
    exact ⟨.toward (Forces color), fun other => h.exists_playOut other []⟩
  · rintro ⟨own, hwins⟩
    apply Classical.byContradiction
    intro h
    obtain ⟨n, hn, hwon⟩ := hwins (.toward fun b => ¬ Forces color b)
    exact not_forces_playOut h own hn [] (.connected hwon)

end HexGame
