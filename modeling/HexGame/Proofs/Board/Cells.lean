import HexGame.Proofs.Board.Place
import HexGame.Proofs.Board.Scan

/-!
# The cells of a board

A board lists each of its cells once, row by row (`pairwise_cells`). So its counts are numbers of cells: red,
blue and empty cells together are all cells (`stones_add_empty`), and a move takes one empty cell away
(`emptyCells_place`).
-/
namespace HexGame

/-- Row by row one cell comes before the other. -/
def Cell.Precedes (c d : Cell) : Prop := c.y < d.y ∨ c.y = d.y ∧ c.x < d.x

theorem Cell.Precedes.ne {c d : Cell} (h : c.Precedes d) : c ≠ d := by
  rintro rfl
  unfold Precedes at h
  omega

namespace Board

variable {b : Board} {mv : Move}

theorem pairwise_cells (b : Board) : b.cells.Pairwise Cell.Precedes := by
  unfold cells
  refine List.pairwise_flatMap.mpr ⟨fun y _ => ?_, ?_⟩
  · rw [List.pairwise_map]
    refine List.pairwise_lt_range.imp fun hlt => .inr ⟨rfl, ?_⟩
    exact Int.ofNat_lt.mpr hlt
  · refine List.pairwise_lt_range.imp fun hlt c hc d hd => .inl ?_
    obtain ⟨x, -, rfl⟩ := List.mem_map.mp hc
    obtain ⟨x', -, rfl⟩ := List.mem_map.mp hd
    exact Int.ofNat_lt.mpr hlt

theorem cells_nodup (b : Board) : b.cells.Nodup := b.pairwise_cells.imp Cell.Precedes.ne

theorem length_cells (b : Board) : b.cells.length = b.size * b.size := by
  simp only [cells, List.length_flatMap, List.length_map, List.length_range, List.map_const',
    List.sum_replicate_nat]

theorem pairwise_legalMoves (b : Board) : b.legalMoves.Pairwise fun m n => m.cell.Precedes n.cell :=
  b.legalMoves_eq ▸ List.pairwise_map.mpr (b.pairwise_cells.filter _)

theorem nodup_legalMoves (b : Board) : b.legalMoves.Nodup :=
  b.pairwise_legalMoves.imp fun h heq => h.ne (congrArg Move.cell heq)

theorem mem_legalMoves : mv ∈ b.legalMoves ↔ b.isEmptyAt mv.cell = true ∧ mv.color = b.toMove := by
  refine ⟨isEmptyAt_of_mem_legalMoves, fun ⟨he, hcolor⟩ => ?_⟩
  rw [legalMoves_eq, List.mem_map]
  exact ⟨mv.cell, List.mem_filter.mpr ⟨mem_cells.mpr (isEmptyAt_iff.mp he).1, he⟩, by rw [← hcolor]⟩

theorem countP_stones {cells : List Cell} (h : ∀ c ∈ cells, b.Contains c) :
    cells.countP (b.colorAt · = some .red) + cells.countP (b.colorAt · = some .blue) +
      cells.countP b.isEmptyAt = cells.length := by
  induction cells with
  | nil => rfl
  | cons c cells ih =>
    have hc : b.Contains c := h c (by simp)
    have hrest := ih fun d hd => h d (by simp [hd])
    simp only [List.countP_cons, List.length_cons]
    rcases hcolor : b.colorAt c with _ | _ | _ <;> simp [isEmptyAt, hc, hcolor] <;> omega

theorem stones_add_empty (b : Board) : b.stoneCounts.stones + b.stoneCounts.empty = b.size * b.size := by
  rw [← length_cells, ← countP_stones fun c => mem_cells.mp, stoneCounts_eq]
  rfl

/-! ## Empty cells -/

def emptyCells (b : Board) : Nat := b.cells.countP b.isEmptyAt

theorem empty_stoneCounts (b : Board) : b.stoneCounts.empty = b.emptyCells := by
  rw [stoneCounts_eq, emptyCells]

theorem legalMoves_ne_nil_iff : b.legalMoves ≠ [] ↔ 0 < b.emptyCells := by
  simp only [legalMoves_eq, emptyCells, Ne, List.map_eq_nil_iff, List.filter_eq_nil_iff, List.countP_pos_iff,
    Classical.not_forall, Classical.not_not, exists_prop]

theorem emptyCells_place (h : b.isEmptyAt mv.cell = true) :
    (b.place mv).emptyCells + 1 = b.emptyCells := by
  obtain ⟨before, after, hsplit⟩ := List.append_of_mem (mem_cells.mpr (isEmptyAt_iff.mp h).1)
  have hcells : (b.place mv).cells = b.cells := by simp only [cells, size_place]
  have hnodup := b.cells_nodup
  rw [hsplit, List.Nodup, List.pairwise_middle Ne.symm, List.pairwise_cons] at hnodup
  have hsame (l : List Cell) (hl : ∀ c ∈ l, c ∈ before ++ after) :
      l.countP (b.place mv).isEmptyAt = l.countP b.isEmptyAt := by
    apply List.countP_congr
    intro c hc
    rw [isEmptyAt_place h]
    have hne : c ≠ mv.cell := (hnodup.1 c (hl c hc)).symm
    simp [hne]
  have hfull : (b.place mv).isEmptyAt mv.cell = false := by
    rw [Bool.eq_false_iff, Ne, isEmptyAt_place h]
    simp
  simp only [emptyCells, hcells, hsplit, List.countP_append, List.countP_cons, h, hfull, if_true,
    Bool.false_eq_true, if_false, hsame before (by simp +contextual), hsame after (by simp +contextual)]
  omega

theorem colorAt_blank (size : Nat) (first : Color) (h : 0 < size ∧ size ≤ maxSize) (c : Cell) :
    (blank size first h).colorAt c = none := by
  have hrow : (Array.replicate size (0 : Row))[c.y.toNat]?.getD 0 = 0 := by
    rw [Array.getElem?_replicate]
    split <;> rfl
  have hcode : (blank size first h).code c = 0 := by
    simp only [code, blank, hrow, Row.code, UInt64.zero_shiftRight, UInt64.zero_and]
  unfold colorAt
  rw [hcode]
  split <;> rfl

theorem emptyCells_blank (size : Nat) (first : Color) (h : 0 < size ∧ size ≤ maxSize) :
    (blank size first h).emptyCells = size * size := by
  have hsize : (blank size first h).size = size := Array.size_replicate
  have hcells := (blank size first h).length_cells
  rw [hsize] at hcells
  rw [← hcells]
  exact List.countP_eq_length.mpr fun c hc => isEmptyAt_iff.mpr ⟨mem_cells.mp hc, colorAt_blank size first h c⟩

end Board
end HexGame
