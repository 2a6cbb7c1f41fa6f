import HexGame.Chain.Search
import HexGame.Proofs.Board.Cells
import HexGame.Proofs.Pattern.Fit

/-!
# Boards with the same key

The key of a board leaves out only which cell was played last. What does not look at that cell is the same
for all boards with one key (`eq_of_key`). So it stands for the stones and the player who moved last, no matter
how they are packed (`key_eq_iff`).
-/
namespace HexGame
namespace Board

variable {b b' : Board} {c : Cell} {α : Type}

/-- The board with another cell for the last one played. -/
def withLast (b : Board) (c : Option Cell) : Board := { b with lastCell := c }

theorem eq_of_key (f : Board → α) (hf : ∀ b c, f (b.withLast c) = f b) (h : b.key = b'.key) :
    f b = f b' := by
  have he : b.withLast b'.lastCell = b' := by
    simp only [key, BoardKey.mk.injEq] at h
    cases b
    cases b'
    simp only [withLast] at h ⊢
    obtain ⟨rfl, rfl⟩ := h
    rfl
  rw [← he, hf]

theorem legalMoves_withLast (b : Board) (c : Option Cell) :
    (b.withLast c).legalMoves = b.legalMoves := rfl

theorem place_withLast (b : Board) (c : Option Cell) (mv : Move) :
    (b.withLast c).place mv = b.place mv := by
  have hsame : (b.withLast c).isEmptyAt mv.cell = b.isEmptyAt mv.cell := rfl
  unfold place put
  by_cases h : b.isEmptyAt mv.cell = true
  · rw [h] at hsame
    simp only [hsame, h, dif_pos]
    rfl
  · rw [Bool.not_eq_true] at h
    simp only [hsame.trans h, h, Bool.false_eq_true, dif_neg, not_false_eq_true]
    rfl

theorem isDecided_withLast (b : Board) (c : Option Cell) (mode : Mode) :
    (b.withLast c).isDecided mode = b.isDecided mode := by
  have hrun (n : Nat) (s : ChainSearch) :
      ChainSearch.run (b.withLast c) b.lastMover mode n s =
        ChainSearch.run b b.lastMover mode n s := by
    induction n generalizing s with
    | zero => rfl
    | succ n ih =>
      have hstep : ChainSearch.step (b.withLast c) b.lastMover mode s =
          ChainSearch.step b b.lastMover mode s := rfl
      simp only [ChainSearch.run, hstep, ih]
  exact congrArg Option.isSome (hrun _ _)

theorem colorAt_eq_of_key (h : b.key = b'.key) : b.colorAt c = b'.colorAt c :=
  eq_of_key (·.colorAt c) (fun _ _ => rfl) h

theorem samePosition_iff : b.samePosition b' = true ↔ b.key = b'.key := by
  simp only [samePosition, Bool.and_eq_true, decide_eq_true_eq, key, BoardKey.mk.injEq]
  exact and_comm

theorem legalMoves_eq_of_key (h : b.key = b'.key) : b.legalMoves = b'.legalMoves :=
  eq_of_key legalMoves legalMoves_withLast h

theorem emptyCells_eq_of_key (h : b.key = b'.key) : b.emptyCells = b'.emptyCells :=
  eq_of_key emptyCells (fun _ _ => rfl) h

/-! ## The packed stones -/

/-- The code of a cell with a stone on it, or without. -/
def cellCode : Option Color → UInt64
  | none => 0
  | some .red => 1
  | some .blue => 2

theorem code_eq_cellCode {c : Cell} (h : b.Contains c) : b.code c = cellCode (b.colorAt c) := by
  have hcases := (b.clean_row c.y.toNat).code_cases (lt_maxSize h).1
  rw [colorAt, if_pos h]
  change b.code c = 0 ∨ b.code c = 1 ∨ b.code c = 2 at hcases
  rcases hcases with h | h | h <;> rw [h] <;> rfl

/-- A key shows no more than the stones and the player who moved last. -/
theorem key_eq_iff : b.key = b'.key ↔
    b.size = b'.size ∧ b.lastMover = b'.lastMover ∧ ∀ c, b.colorAt c = b'.colorAt c := by
  constructor
  · intro h
    exact ⟨eq_of_key size (fun _ _ => rfl) h, eq_of_key lastMover (fun _ _ => rfl) h,
      fun _ => colorAt_eq_of_key h⟩
  · rintro ⟨hsize, hlast, hcolor⟩
    have hrows : b.rows = b'.rows := by
      refine Array.ext hsize fun y hy hy' => Row.eq_of_code fun x hx => ?_
      by_cases hwidth : x < b.size
      · have hc : b.Contains ⟨x, y⟩ := by
          simp only [Contains, size] at hwidth ⊢
          omega
        have hc' : b'.Contains ⟨x, y⟩ := by
          simpa only [Contains, hsize] using hc
        have hcode := (code_eq_cellCode hc).trans ((congrArg cellCode (hcolor _)).trans (code_eq_cellCode hc').symm)
        simpa only [code, Int.toNat_natCast, Array.getElem?_eq_getElem hy, Array.getElem?_eq_getElem hy',
          Option.getD_some] using hcode
      · have hwidth' : b'.size ≤ x := hsize ▸ Nat.not_lt.mp hwidth
        rw [(b.clean _ (Array.getElem_mem hy) x hx).2 (Nat.not_lt.mp hwidth),
          (b'.clean _ (Array.getElem_mem hy') x hx).2 hwidth']
    rw [key, key, hrows, hlast]

end Board
end HexGame
