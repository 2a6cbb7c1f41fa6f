import HexGame.Proofs.Board.Line
import HexGame.Proofs.Chain.Winner

/-!
# How a game ends

A stone breaks no chain, and it completes chains of its own colour only. So the stone that fills the last
cell of an undecided game completes a chain (`Playable.place`), and as long as a game is undecided there is
a move.
-/
namespace HexGame

variable {b : Board} {color : Color} {mv : Move} {mode : Mode}

theorem Joined.mono {own own' : Cell → Prop} (hown : ∀ c, own c → own' c) {c : Cell}
    (h : Joined color own c) : Joined color own' c := by
  induction h with
  | edge hc hd => exact .edge (hown _ hc) hd
  | beside d _ hd ih => exact .beside d ih (hown _ hd)

namespace Board

theorem isConnected_place (he : b.isEmptyAt mv.cell = true) (h : b.isConnected color .strict = true) :
    (b.place mv).isConnected color .strict = true := by
  rw [isConnected_strict_iff] at h ⊢
  obtain ⟨c, hc, hfar⟩ := h
  rw [size_place]
  exact ⟨c, hc.mono fun _ => owns_place_of_owns he, hfar⟩

theorem isConnected_of_place (he : b.isEmptyAt mv.cell = true) (hcolor : mv.color ≠ color)
    (h : (b.place mv).isConnected color .strict = true) : b.isConnected color mode = true := by
  rw [isConnected_strict_iff] at h
  obtain ⟨c, hc, hfar⟩ := h
  rw [size_place] at hfar
  refine isConnected_of_spans ⟨c, hc.mono fun d hd => ?_, hfar⟩
  exact ((owns_place he).mp hd).resolve_left fun h => hcolor h.2

theorem exists_isConnected_of_full (hfull : b.emptyCells = 0) :
    ∃ color, b.isConnected color .strict = true := by
  have hstone (c : Cell) (hc : b.Contains c) : b.owns .red c = true ∨ b.owns .blue c = true := by
    have he := List.countP_eq_zero.mp hfull c (mem_cells.mpr hc)
    cases hcolor : b.colorAt c with
    | none => exact absurd (isEmptyAt_iff.mpr ⟨hc, hcolor⟩) he
    | some color => cases color <;> simp [owns, hcolor]
  rcases spans_of_full b.size_pos onBoard_of_owns onBoard_of_owns not_owns_blue_of_red
    fun c h₁ h₂ h₃ h₄ => hstone c ⟨h₁, h₂, h₃, h₄⟩ with h | h
  · exact ⟨.red, isConnected_of_spans h⟩
  · exact ⟨.blue, isConnected_of_spans h⟩

/-- The board is not full, or its last mover has a chain. -/
def Playable (b : Board) : Prop := b.emptyCells = 0 → b.isConnected b.lastMover .strict = true

namespace Playable

theorem legalMoves_ne_nil (h : b.Playable) (hopen : b.isDecided mode = false) : b.legalMoves ≠ [] := by
  rw [legalMoves_ne_nil_iff, Nat.pos_iff_ne_zero]
  intro hfull
  have hspans := isConnected_strict_iff.mp (h hfull)
  simp [isDecided, isConnected_of_spans hspans] at hopen

/-- A move in an undecided position never leaves a full board that its player has not won. -/
theorem place (hopen : b.isDecided mode = false) (hmv : mv ∈ b.legalMoves) : (b.place mv).Playable := by
  obtain ⟨he, hcolor⟩ := isEmptyAt_of_mem_legalMoves hmv
  intro hfull
  obtain ⟨color, hwon⟩ := exists_isConnected_of_full hfull
  by_cases hmover : mv.color = color
  · rwa [← hmover] at hwon
  · -- the chain of the other colour stood on the board before
    have hlast : b.lastMover = color := by
      rw [← Color.opponent_opponent b.lastMover, ← Board.toMove, ← hcolor]
      exact (Color.eq_opponent_of_ne (Ne.symm hmover)).symm
    have hbefore : b.isConnected color mode = true := isConnected_of_place he hmover hwon
    simp [isDecided, hlast, hbefore] at hopen

end Playable
end Board
end HexGame
