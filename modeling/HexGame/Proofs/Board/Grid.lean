import HexGame.Proofs.Board.Line
import Mathlib.Data.Set.Card

/-!
# Packed boards as grids

However a board has been made and played on, its rows hold the code of each cell and nothing else, and what is
on it is what has been put there (`Made.represents`). All operations can be told by this grid alone: which moves
are played and what they change, the list of the legal moves and the counts (`Made.refines_grid`).
-/
namespace HexGame

/-- No bit of a clean row is set beyond the last cell. -/
theorem Row.Clean.testBit_eq_false {width : Nat} {r : Row} (h : Clean width r) {i : Nat} (hi : 2 * width ≤ i) :
    r.toNat.testBit i = false := by
  by_cases hword : i < 64
  · have hx : i / 2 < maxSize := by
      have : maxSize = 32 := rfl
      omega
    have hcode := (h (i / 2) hx).2 (by omega)
    have hbit := testBit_code (r := r) (i := i % 2) hx
    rw [hcode, Nat.div_add_mod, decide_eq_true (Nat.mod_lt i Nat.two_pos), Bool.true_and] at hbit
    exact hbit.symm.trans (Nat.zero_testBit _)
  · exact Nat.testBit_lt_two_pow
      (Nat.lt_of_lt_of_le r.toNat_lt (Nat.pow_le_pow_right (by decide) (Nat.not_lt.mp hword)))

namespace Board

variable {b b' : Board} {stone mv : Move} {stones shown : List Move} {size : Nat} {first lastMover : Color}

/-! ## Boards that are made and played on -/

/-- The boards of some size that are made with stones on them or without and on which moves are played after
that; the stones of the moves come first. -/
inductive Made (size : Nat) : List Move → Board → Prop where
  | empty {first : Color} {b : Board} (h : tryNew size first = .ok b) : Made size [] b
  | position {stones : List Move} {lastMover : Color} {b : Board} (h : setup size stones lastMover = .ok b) :
      Made size stones b
  | move {stones : List Move} {mv : Move} {b b' : Board} (h : Made size stones b)
      (hplay : b.tryPlay mv = .ok b') : Made size (mv :: stones) b'

/-- The board of some size with these stones on it, packed into words. -/
structure Represents (size : Nat) (stones : List Move) (b : Board) : Prop where
  size_pos : 1 ≤ size
  size_le : size ≤ 32
  size_eq : b.size = size
  length_rows : b.rows.size = size
  color : ∀ c k, b.colorAt c = some k ↔ ⟨c, k⟩ ∈ stones
  code : ∀ (y : Nat) (row : Row), b.rows[y]? = some row → ∀ x < size, row.code x = cellCode (b.colorAt ⟨x, y⟩)
  beyond : ∀ row ∈ b.rows, ∀ i, 2 * size ≤ i → row.toNat.testBit i = false

/-- What is on a board is all that has to be known of it: the rest comes with the type. -/
theorem represents_of_color (hsize : b.size = size) (h : ∀ c k, b.colorAt c = some k ↔ ⟨c, k⟩ ∈ stones) :
    b.Represents size stones where
  size_pos := hsize ▸ b.size_pos
  size_le := hsize ▸ b.size_le
  size_eq := hsize
  length_rows := hsize
  color := h
  code y row hrow x hx := by
    obtain ⟨hy, -⟩ := Array.getElem?_eq_some_iff.mp hrow
    have hy : y < b.size := hy
    have hcontains : b.Contains ⟨x, y⟩ := by
      simp only [Contains]
      omega
    rw [← code_eq_cellCode hcontains]
    simp only [Board.code, Int.toNat_natCast, hrow, Option.getD_some]
  beyond row hrow i hi := by
    rw [← hsize] at hi
    exact (b.clean row hrow).testBit_eq_false hi

namespace Represents

theorem put (h : b.Represents size stones) {c : Cell} (hc : b.isEmptyAt c = true) (k : Color) :
    (b.put c k).Represents size (⟨c, k⟩ :: stones) := by
  refine represents_of_color ((size_put b c k).trans h.size_eq) fun d k' => ?_
  have hnone := (isEmptyAt_iff.mp hc).2
  rw [colorAt_put hc, List.mem_cons, Move.mk.injEq, ← h.color]
  split
  · rename_i hd
    simp [hd, hnone, eq_comm]
  · rename_i hd
    simp [hd]

theorem blank (hsize : 0 < size ∧ size ≤ maxSize) : (Board.blank size first hsize).Represents size [] :=
  represents_of_color Array.size_replicate fun c k => by simp [colorAt_blank]

end Represents

theorem addStone_eq_ok : b.addStone stone = .ok b' ↔
    b.isEmptyAt stone.cell = true ∧ b' = b.put stone.cell stone.color := by
  rw [isEmptyAt_iff]
  unfold addStone
  by_cases hc : b.Contains stone.cell
  · cases hcolor : b.colorAt stone.cell <;> simp [hc, eq_comm]
  · simp [hc]

theorem represents_of_addStones (hb : b.Represents size shown) (h : stones.foldlM addStone b = .ok b') :
    b'.Represents size (stones.reverse ++ shown) := by
  induction stones generalizing b shown with
  | nil =>
    obtain rfl := Except.ok.inj h
    exact hb
  | cons stone stones ih =>
    obtain ⟨next, hstone, h⟩ := bind_eq_ok.mp h
    obtain ⟨hempty, rfl⟩ := addStone_eq_ok.mp hstone
    simpa using ih (hb.put hempty stone.color) h

theorem new_eq_ok (h : new size first = .ok b) : ∃ hsize, b = blank size first hsize := by
  unfold new at h
  split at h
  · exact ⟨_, (Except.ok.inj h).symm⟩
  · cases h

theorem tryNew_eq_ok (h : tryNew size first = .ok b) : ∃ hsize, b = blank size first hsize := by
  unfold tryNew at h
  split at h
  · exact ⟨_, (Except.ok.inj h).symm⟩
  · cases h

theorem Made.represents (h : Made size stones b) : b.Represents size stones := by
  induction h with
  | empty h =>
    obtain ⟨hsize, rfl⟩ := tryNew_eq_ok h
    exact .blank hsize
  | position h =>
    obtain ⟨start, hnew, h⟩ := bind_eq_ok.mp h
    obtain ⟨hsize, rfl⟩ := new_eq_ok hnew
    have hstones := represents_of_addStones (.blank hsize) h
    exact represents_of_color hstones.size_eq fun c k => by simpa using hstones.color c k
  | move _ hplay ih =>
    obtain ⟨-, hempty, rfl⟩ := tryPlay_eq_ok.mp hplay
    exact represents_of_color ((size_place _ _).trans ih.size_eq) (ih.put hempty _).color

/-! ## Operations on the grid -/

theorem ncard_eq_countP {P : Cell → Bool} (h : ∀ c, P c = true → b.Contains c) :
    {c | P c = true}.ncard = b.cells.countP P := by
  have hcells : {c | P c = true} = ↑(b.cells.filter P).toFinset := by
    ext c
    simpa [mem_cells] using h c
  rw [hcells, Set.ncard_coe_finset, List.toFinset_card_of_nodup (b.cells_nodup.filter P),
    List.countP_eq_length_filter]

theorem ncard_color (k : Color) :
    {c | b.colorAt c = some k}.ncard = b.cells.countP (b.colorAt · = some k) := by
  rw [← ncard_eq_countP]
  · simp
  · intro c hc
    by_contra hoff
    simp [colorAt, hoff] at hc

/-- A board made in any way is a grid of at most 32 rows: a move is played when it is its player's turn and its
cell is empty, it changes this cell, the turn and the last move, and the legal moves and the counts are those of
the empty and the coloured cells. -/
theorem Made.refines_grid (h : Made size stones b) :
    b.Represents size stones ∧
    (∀ mv, (∃ b', b.tryPlay mv = .ok b') ↔
      mv.color = b.toMove ∧ b.Contains mv.cell ∧ b.colorAt mv.cell = none) ∧
    (∀ mv b', b.tryPlay mv = .ok b' → b'.Represents size (mv :: stones) ∧
      b'.colorAt mv.cell = some mv.color ∧ (∀ c, c ≠ mv.cell → b'.colorAt c = b.colorAt c) ∧
      b'.toMove = b.toMove.opponent ∧ b'.lastMove = some mv) ∧
    (∀ mv, mv ∈ b.legalMoves ↔ mv.color = b.toMove ∧ b.Contains mv.cell ∧ b.colorAt mv.cell = none) ∧
    b.legalMoves.Pairwise (fun m n => m.cell.Precedes n.cell) ∧
    b.legalMoves.length = b.stoneCounts.empty ∧
    b.stoneCounts.red = {c | b.colorAt c = some .red}.ncard ∧
    b.stoneCounts.blue = {c | b.colorAt c = some .blue}.ncard ∧
    b.stoneCounts.red + b.stoneCounts.blue + b.stoneCounts.empty = size * size := by
  have hlegal (mv : Move) : mv ∈ b.legalMoves ↔
      mv.color = b.toMove ∧ b.Contains mv.cell ∧ b.colorAt mv.cell = none := by
    rw [mem_legalMoves, isEmptyAt_iff, and_comm]
  refine ⟨h.represents, fun mv => ?_, fun mv b' hplay => ?_, hlegal, b.pairwise_legalMoves, ?_,
    ?_, ?_, ?_⟩
  · simp only [tryPlay_eq_ok_iff, exists_and_left, exists_eq, and_true, hlegal]
  · obtain ⟨hcolor, hempty, rfl⟩ := tryPlay_eq_ok.mp hplay
    refine ⟨(h.move hplay).represents, ?_, fun c hc => ?_, congrArg Color.opponent hcolor, rfl⟩
    · rw [colorAt_place hempty, if_pos rfl]
    · rw [colorAt_place hempty, if_neg hc]
  · rw [legalMoves_eq, List.length_map, ← List.countP_eq_length_filter, stoneCounts_eq]
  · rw [stoneCounts_eq, ncard_color]
  · rw [stoneCounts_eq, ncard_color]
  · rw [← h.represents.size_eq]
    exact b.stones_add_empty

theorem Made.refines_grid_fourCells :
    let b := ((blank 2 .red two_le_maxSize).put ⟨0, 0⟩ .blue).place ⟨⟨1, 0⟩, .red⟩
    Made 2 [⟨⟨1, 0⟩, .red⟩, ⟨⟨0, 0⟩, .blue⟩] b ∧ b.Represents 2 [⟨⟨1, 0⟩, .red⟩, ⟨⟨0, 0⟩, .blue⟩] ∧
      b.legalMoves.length = b.stoneCounts.empty ∧
      b.stoneCounts.red + b.stoneCounts.blue + b.stoneCounts.empty = 4 := by
  intro b
  have hsetup : setup 2 [⟨⟨0, 0⟩, .blue⟩] .blue = .ok ((blank 2 .red two_le_maxSize).put ⟨0, 0⟩ .blue) := by rfl
  have hmade : Made 2 [⟨⟨1, 0⟩, .red⟩, ⟨⟨0, 0⟩, .blue⟩] b :=
    (Made.position hsetup).move (tryPlay_of_mem (by decide +kernel))
  obtain ⟨hrepresents, -, -, -, -, hlegal, -, -, hsum⟩ := hmade.refines_grid
  exact ⟨hmade, hrepresents, hlegal, hsum⟩

end Board
end HexGame
