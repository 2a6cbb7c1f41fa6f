import HexGame.Board.Row
import HexGame.Grid.Cell

/-!
# Boards and moves

A board is a column of packed rows together with the player who moved last. `colorAt` is its meaning:
`colorAt_put` says that a stone changes one cell, and the other operations are stated through it.
-/
namespace HexGame

structure Move where
  cell : Cell
  color : Color
  deriving DecidableEq, Hashable, Repr

inductive MoveError where
  | wrongTurn (color : Color)
  | occupied (cell : Cell)
  | outOfBounds (cell : Cell)
  deriving DecidableEq, Repr

structure StoneCounts where
  red : Nat
  blue : Nat
  empty : Nat
  deriving DecidableEq, Repr

namespace StoneCounts

def stones (n : StoneCounts) : Nat := n.red + n.blue

def count (n : StoneCounts) : Option Color → StoneCounts
  | some .red => { n with red := n.red + 1 }
  | some .blue => { n with blue := n.blue + 1 }
  | none => { n with empty := n.empty + 1 }

end StoneCounts

/-- What a position is to a search: the stones and the player who moved last. -/
structure BoardKey where
  rows : Array Row
  lastMover : Color
  deriving DecidableEq, Hashable

/-- A square board of at most `maxSize` rows. Before the first move no cell is the last one played,
and only the colour of the player who is not to move is known. -/
structure Board where
  rows : Array Row
  lastMover : Color
  lastCell : Option Cell
  size_pos : 0 < rows.size
  size_le : rows.size ≤ maxSize
  clean : ∀ r ∈ rows, Row.Clean rows.size r
  deriving DecidableEq

namespace Board

def size (b : Board) : Nat := b.rows.size

def lastMove (b : Board) : Option Move := b.lastCell.map (⟨·, b.lastMover⟩)

def toMove (b : Board) : Color := b.lastMover.opponent

def Contains (b : Board) (c : Cell) : Prop :=
  0 ≤ c.x ∧ c.x < b.size ∧ 0 ≤ c.y ∧ c.y < b.size

instance (b : Board) (c : Cell) : Decidable (b.Contains c) :=
  inferInstanceAs (Decidable (_ ∧ _ ∧ _ ∧ _))

def code (b : Board) (c : Cell) : UInt64 := Row.code (b.rows[c.y.toNat]?.getD 0) c.x.toNat

/-- The stone on a cell; a cell off the board holds none. -/
def colorAt (b : Board) (c : Cell) : Option Color :=
  if b.Contains c then Color.ofCode? (b.code c) else none

def isEmptyAt (b : Board) (c : Cell) : Bool := b.Contains c && (b.colorAt c).isNone

/-- All cells of the board, row by row. -/
def cells (b : Board) : List Cell :=
  (List.range b.size).flatMap fun (y : Nat) => (List.range b.size).map fun (x : Nat) => ⟨x, y⟩

theorem mem_cells {b : Board} {c : Cell} : c ∈ b.cells ↔ b.Contains c := by
  simp only [cells, List.mem_flatMap, List.mem_map, List.mem_range, Contains]
  constructor
  · rintro ⟨y, hy, x, hx, rfl⟩
    simp only
    omega
  · rintro ⟨hx, hx', hy, hy'⟩
    refine ⟨c.y.toNat, by omega, c.x.toNat, by omega, ?_⟩
    ext <;> simp <;> omega

theorem lt_maxSize {b : Board} {c : Cell} (h : b.Contains c) :
    c.x.toNat < maxSize ∧ c.y.toNat < b.rows.size := by
  have hs : b.rows.size ≤ maxSize := b.size_le
  unfold Contains size at h
  omega

theorem clean_row (b : Board) (y : Nat) : Row.Clean b.rows.size (b.rows[y]?.getD 0) := by
  cases h : b.rows[y]? with
  | none => exact Row.clean_zero _
  | some r => exact b.clean r (Array.mem_of_getElem? h)

theorem isEmptyAt_iff_code {b : Board} {c : Cell} :
    b.isEmptyAt c = true ↔ b.Contains c ∧ b.code c = 0 := by
  by_cases hc : b.Contains c
  · have h := (b.clean_row c.y.toNat).code_cases (lt_maxSize hc).1
    simp only [isEmptyAt, colorAt, hc, if_true, decide_true, Bool.true_and, true_and]
    change b.code c = 0 ∨ b.code c = 1 ∨ b.code c = 2 at h
    rcases h with h | h | h <;> simp [h, Color.ofCode?]
  · simp [isEmptyAt, hc]

theorem isEmptyAt_iff {b : Board} {c : Cell} :
    b.isEmptyAt c = true ↔ b.Contains c ∧ b.colorAt c = none := by
  simp [isEmptyAt]

/-- Puts a stone on an empty cell; on any other cell nothing happens. -/
def put (b : Board) (c : Cell) (k : Color) : Board :=
  if h : b.isEmptyAt c = true then
    { b with
      rows := b.rows.setIfInBounds c.y.toNat (Row.put (b.rows[c.y.toNat]?.getD 0) c.x.toNat k)
      size_pos := by simpa using b.size_pos
      size_le := by simpa using b.size_le
      clean := by
        intro r hr
        simp only [Array.size_setIfInBounds]
        obtain ⟨hc, h0⟩ := isEmptyAt_iff_code.mp h
        rcases Array.mem_or_eq_of_mem_setIfInBounds hr with hr | hr
        · exact b.clean r hr
        · subst hr
          refine (b.clean_row _).put ?_ b.size_le h0
          unfold Contains size at hc
          omega }
  else b

@[simp] theorem size_put (b : Board) (c : Cell) (k : Color) : (b.put c k).size = b.size := by
  unfold put
  split <;> simp [size]

@[simp] theorem contains_put (b : Board) (c d : Cell) (k : Color) :
    (b.put c k).Contains d ↔ b.Contains d := by
  simp [Contains]

@[simp] theorem lastMover_put (b : Board) (c : Cell) (k : Color) :
    (b.put c k).lastMover = b.lastMover := by
  unfold put
  split <;> rfl

theorem colorAt_put {b : Board} {c : Cell} (h : b.isEmptyAt c = true) (k : Color) (d : Cell) :
    (b.put c k).colorAt d = if d = c then some k else b.colorAt d := by
  obtain ⟨hc, h0⟩ := isEmptyAt_iff_code.mp h
  by_cases hd : b.Contains d
  · have hx := (lt_maxSize hc).1
    have hy := (lt_maxSize hc).2
    have hdx := (lt_maxSize hd).1
    have hcode : (b.put c k).code d = if d = c then k.code else b.code d := by
      simp only [put, h, dif_pos, code]
      by_cases hyy : d.y.toNat = c.y.toNat
      · rw [hyy, Array.getElem?_setIfInBounds_self_of_lt hy, Option.getD_some, Row.code_put hx hdx]
        have hiff : d.x.toNat = c.x.toNat ↔ d = c := by
          unfold Contains at hc hd
          constructor
          · intro e
            ext <;> omega
          · rintro rfl
            rfl
        by_cases e : d = c
        · subst e
          simp only [code] at h0
          simp [h0]
        · have : d.x.toNat ≠ c.x.toNat := fun e' => e (hiff.mp e')
          simp [this, e]
      · have e : d ≠ c := by
          rintro rfl
          exact hyy rfl
        rw [Array.getElem?_setIfInBounds_ne (Ne.symm hyy)]
        simp [e]
    simp only [colorAt, contains_put, hd, if_true, hcode]
    split <;> simp
  · have e : d ≠ c := by
      rintro rfl
      exact hd hc
    simp [colorAt, hd, e]

/-- The board after a move, for a move on an empty cell. -/
def place (b : Board) (mv : Move) : Board :=
  { b.put mv.cell mv.color with lastMover := mv.color, lastCell := some mv.cell }

/-- Plays a move. Of two faults the turn is reported before the edge of the board. -/
def tryPlay (b : Board) (mv : Move) : Except MoveError Board :=
  if mv.color = b.lastMover then .error (.wrongTurn mv.color)
  else if ¬ b.Contains mv.cell then .error (.outOfBounds mv.cell)
  else if (b.colorAt mv.cell).isSome then .error (.occupied mv.cell)
  else .ok (b.place mv)

/-- The empty cells, row by row, for the player to move. -/
def legalMoves (b : Board) : List Move :=
  b.rows.toList.zipIdx.flatMap fun (row, y) =>
    (row.scan b.size).zipIdx.filterMap fun (code, x) =>
      if code = 0 then some ⟨⟨x, y⟩, b.toMove⟩ else none

def stoneCounts (b : Board) : StoneCounts :=
  b.rows.foldl (fun counts row =>
    (row.scan b.size).foldl (fun counts code => counts.count (Color.ofCode? code)) counts) ⟨0, 0, 0⟩

def key (b : Board) : BoardKey := ⟨b.rows, b.lastMover⟩

def samePosition (a b : Board) : Bool := a.lastMover = b.lastMover && a.rows = b.rows

/-- Compares one cell. The first stone that has been added is the move; any other difference ends the
comparison. -/
def compareCell (a b : Board) (found : Option Move) (c : Cell) : Option (Option Move) :=
  match a.colorAt c, b.colorAt c, found with
  | none, some color, none => some (some ⟨c, color⟩)
  | before, after, found => if before = after then some found else none

/-- Compares a row cell by cell, unless both boards hold the same word there. -/
def compareRow (a b : Board) (found : Option Move) (y : Nat) : Option (Option Move) :=
  if a.rows[y]? = b.rows[y]? then some found
  else (List.range a.size).foldlM (fun found (x : Nat) => compareCell a b found ⟨x, y⟩) found

/-- The move that leads from one board to another, looked for row by row. -/
def transitionMove (a b : Board) : Option Move :=
  if a.size ≠ b.size then none else ((List.range a.size).foldlM (compareRow a b) none).join

end Board
end HexGame
