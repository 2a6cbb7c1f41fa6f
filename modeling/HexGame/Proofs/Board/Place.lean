import HexGame.Chain.Link
import HexGame.Grid.Narrow

/-!
# Boards after a move

A move that is played fills one empty cell (`isEmptyAt_place`, `owns_place`) and leaves every other
stone where it is.
-/
namespace HexGame

theorem two_le_maxSize : 0 < 2 ∧ 2 ≤ maxSize := by decide

namespace Board

variable {b b' : Board} {color : Color} {c d : Cell} {mv : Move}

@[simp] theorem size_place (b : Board) (mv : Move) : (b.place mv).size = b.size :=
  size_put b mv.cell mv.color

theorem colorAt_place (h : b.isEmptyAt mv.cell = true) (d : Cell) :
    (b.place mv).colorAt d = if d = mv.cell then some mv.color else b.colorAt d :=
  colorAt_put h mv.color d

@[simp] theorem contains_place : (b.place mv).Contains c ↔ b.Contains c :=
  contains_put b mv.cell c mv.color

theorem isEmptyAt_place (h : b.isEmptyAt mv.cell = true) :
    (b.place mv).isEmptyAt d = true ↔ d ≠ mv.cell ∧ b.isEmptyAt d = true := by
  simp only [isEmptyAt_iff, contains_place, colorAt_place h]
  by_cases hd : d = mv.cell <;> simp [hd]

theorem owns_place (h : b.isEmptyAt mv.cell = true) :
    (b.place mv).owns color d = true ↔ (d = mv.cell ∧ mv.color = color) ∨ b.owns color d = true := by
  have hnone := (isEmptyAt_iff.mp h).2
  simp only [owns, decide_eq_true_eq, colorAt_place h]
  by_cases hd : d = mv.cell
  · simp [hd, hnone]
  · simp [hd]

theorem owns_place_of_owns (h : b.isEmptyAt mv.cell = true) (ho : b.owns color d = true) :
    (b.place mv).owns color d = true :=
  (owns_place h).mpr (.inr ho)

theorem tryPlay_eq_ok : b.tryPlay mv = .ok b' ↔
    mv.color = b.toMove ∧ b.isEmptyAt mv.cell = true ∧ b' = b.place mv := by
  have hturn : mv.color = b.toMove ↔ mv.color ≠ b.lastMover :=
    ⟨fun h => h ▸ Color.opponent_ne _, Color.eq_opponent_of_ne⟩
  rw [hturn, isEmptyAt_iff]
  unfold tryPlay
  by_cases h₁ : mv.color = b.lastMover
  · simp [h₁]
  by_cases h₂ : b.Contains mv.cell
  · cases h₃ : b.colorAt mv.cell <;> simp [h₁, h₂, eq_comm]
  · simp [h₁, h₂]

theorem wrapped_of_contains (h : b.Contains c) : c.wrapped = c := by
  have hs : b.size ≤ 32 := b.size_le
  have hw : UInt32.size = 4294967296 := rfl
  unfold Contains at h
  ext
  · exact Int.bmod_eq_of_le (by omega) (by omega)
  · exact Int.bmod_eq_of_le (by omega) (by omega)

end Board
end HexGame
