import HexGame.Proofs.Board.Cells
import HexGame.Proofs.Chain.Joined
import HexGame.Proofs.Grid.Distance

/-!
# Symmetries of the board

The reflection in the long diagonal exchanges the edges of the two colours, and the half turn exchanges the two
edges of each. Both take neighbours to neighbours, and this is all that is asked of a `Symmetry` beside what it
does to the edges: bridges go to bridges over the images of their carriers (`exists_leap_cell`), walks to walks of
the same length, and so distances are kept (`distance_cell`). `Relates` says that one board is the image of
another; `Board.image` is such a board.
-/
namespace HexGame

/-! ## Reflection and half turn -/

namespace Direction

variable (d : Direction)

def reflected : Direction → Direction
  | north => west
  | northEast => southWest
  | east => south
  | south => east
  | southWest => northEast
  | west => north

theorem reflected_before : d.reflected = d.before.reflected.before := by
  cases d <;> rfl

theorem opposite_before : d.before.opposite = d.opposite.before := by
  cases d <;> rfl

end Direction

namespace Cell

variable (size : Nat) (c : Cell) (d : Direction)

/-- The cell with its row and its column exchanged. -/
def reflected : Cell := ⟨c.y, c.x⟩

/-- The cell that is as far from the last corner of a board as `c` is from the first one. -/
def turned : Cell := ⟨size - 1 - c.x, size - 1 - c.y⟩

theorem reflected_step : (c.step d).reflected = c.reflected.step d.reflected := by
  cases d <;> rfl

theorem turned_turned : (c.turned size).turned size = c := by
  ext <;> exact Int.sub_sub_self _ _

theorem turned_step : (c.step d).turned size = (c.turned size).step d.opposite := by
  ext <;> cases d <;> simp only [turned, step, Direction.offset, Direction.opposite] <;> omega

end Cell

namespace Color

variable (size : Nat) (k : Color) (c : Cell)

theorem depth_reflected : k.opponent.depth c.reflected = k.depth c := by
  cases k <;> rfl

theorem depth_turned : k.depth (c.turned size) = size - 1 - k.depth c := by
  cases k <;> rfl

end Color

theorem Board.contains_iff_depth {b : Board} {c : Cell} :
    b.Contains c ↔ ∀ k : Color, 0 ≤ k.depth c ∧ k.depth c < b.size := by
  constructor
  · rintro ⟨hx, hx', hy, hy'⟩ k
    cases k with
    | red => exact ⟨hy, hy'⟩
    | blue => exact ⟨hx, hx'⟩
  · exact fun h => ⟨(h .blue).1, (h .blue).2, (h .red).1, (h .red).2⟩

/-- Where the cells, the directions and the colours go on boards of some size. Of two directions side by side the
images are side by side, and the near edge of a colour goes to the near or to the far edge of its image. -/
structure Symmetry (size : Nat) where
  cell : Cell → Cell
  direction : Direction → Direction
  color : Color → Color
  cell_cell : ∀ c, cell (cell c) = c
  color_color : ∀ k, color (color k) = k
  cell_step : ∀ c d, cell (c.step d) = (cell c).step (direction d)
  direction_before : ∀ d, direction d.before = (direction d).before ∨ direction d = (direction d.before).before
  depth_cell : ∀ k, (∀ c, (color k).depth (cell c) = k.depth c) ∨
    ∀ c, (color k).depth (cell c) = size - 1 - k.depth c

namespace Symmetry

variable {size : Nat} {s : Symmetry size} {b b' : Board} {a c : Cell} {k : Color} {n : Nat}

/-- The reflection in the long diagonal, which exchanges the edges of the colours. -/
def reflection (size : Nat) : Symmetry size where
  cell := Cell.reflected
  direction := Direction.reflected
  color := Color.opponent
  cell_cell _ := rfl
  color_color := Color.opponent_opponent
  cell_step := Cell.reflected_step
  direction_before d := .inr d.reflected_before
  depth_cell k := .inl k.depth_reflected

def halfTurn (size : Nat) : Symmetry size where
  cell := Cell.turned size
  direction := Direction.opposite
  color k := k
  cell_cell := Cell.turned_turned size
  color_color _ := rfl
  cell_step := Cell.turned_step size
  direction_before d := .inl d.opposite_before
  depth_cell k := .inr (k.depth_turned size)

/-! ## Bridges and distances -/

theorem exists_leap_cell (s : Symmetry size) (c : Cell) (d : Direction) :
    ∃ e, s.cell (c.leap d) = (s.cell c).leap e ∧
      ∀ q ∈ ((s.cell c).carriers e).cells, ∃ p ∈ (c.carriers d).cells, q = s.cell p := by
  have hleap : s.cell (c.leap d) = ((s.cell c).step (s.direction d.before)).step (s.direction d) := by
    rw [← Cell.step_step_before, s.cell_step, s.cell_step]
  have hfirst : s.cell (c.step d.before) = (s.cell c).step (s.direction d.before) := s.cell_step c d.before
  have hsecond : s.cell (c.step d) = (s.cell c).step (s.direction d) := s.cell_step c d
  rcases s.direction_before d with h | h
  · refine ⟨s.direction d, by rw [hleap, h, Cell.step_step_before], fun q hq => ?_⟩
    rcases Carriers.mem_cells.mp hq with rfl | rfl
    · exact ⟨_, Carriers.mem_cells.mpr (.inl rfl), by rw [Cell.carriers, ← h]; exact hfirst.symm⟩
    · exact ⟨_, Carriers.mem_cells.mpr (.inr rfl), hsecond.symm⟩
  · refine ⟨s.direction d.before, by rw [hleap, h, Cell.step_step_before'], fun q hq => ?_⟩
    rcases Carriers.mem_cells.mp hq with rfl | rfl
    · exact ⟨_, Carriers.mem_cells.mpr (.inr rfl), by rw [Cell.carriers, ← h]; exact hsecond.symm⟩
    · exact ⟨_, Carriers.mem_cells.mpr (.inl rfl), hfirst.symm⟩

theorem walk_cell (s : Symmetry size) (h : Cell.Walk a c n) : Cell.Walk (s.cell a) (s.cell c) n := by
  induction h with
  | here a => exact .here _
  | step a d _ ih =>
    rw [s.cell_step] at ih
    exact .step _ _ ih

theorem distance_cell (s : Symmetry size) (a c : Cell) : (s.cell a).distance (s.cell c) = a.distance c := by
  have hle (a c : Cell) : (s.cell a).distance (s.cell c) ≤ a.distance c :=
    (s.walk_cell (Cell.walk_of_distance rfl)).distance_le
  refine Nat.le_antisymm (hle a c) ?_
  have hback := hle (s.cell a) (s.cell c)
  rwa [s.cell_cell, s.cell_cell] at hback

/-- The two edges of a colour enclose the image of what the edges of its image enclose. -/
theorem depth_cell_lt_iff (s : Symmetry size) (k : Color) (c : Cell) :
    0 ≤ (s.color k).depth (s.cell c) ∧ (s.color k).depth (s.cell c) < size ↔ 0 ≤ k.depth c ∧ k.depth c < size := by
  rcases s.depth_cell k with h | h
  · rw [h]
  · rw [h]
    omega

theorem contains_cell (s : Symmetry size) (hb : b.size = size) (hb' : b'.size = size) :
    b'.Contains (s.cell c) ↔ b.Contains c := by
  rw [Board.contains_iff_depth, Board.contains_iff_depth, hb, hb']
  constructor
  · exact fun hc k => (s.depth_cell_lt_iff k c).mp (hc (s.color k))
  · intro hc k
    have hcell := (s.depth_cell_lt_iff (s.color k) c).mpr (hc (s.color k))
    rwa [s.color_color] at hcell

/-! ## Related boards -/

/-- Each cell of the one board is shown on the other where the symmetry takes it. -/
structure Relates (s : Symmetry size) (b b' : Board) : Prop where
  size_eq : b.size = size
  size_eq' : b'.size = size
  colorAt_cell : ∀ c, b'.colorAt (s.cell c) = (b.colorAt c).map s.color

namespace Relates

theorem symm (h : s.Relates b b') : s.Relates b' b where
  size_eq := h.size_eq'
  size_eq' := h.size_eq
  colorAt_cell c := by
    have hcolor := h.colorAt_cell (s.cell c)
    rw [s.cell_cell] at hcolor
    rw [hcolor, Option.map_map]
    cases b.colorAt (s.cell c) with
    | none => rfl
    | some k => exact congrArg some (s.color_color k).symm

theorem owns_cell (h : s.Relates b b') : b'.owns (s.color k) (s.cell c) = b.owns k c := by
  rw [Board.owns, Board.owns, h.colorAt_cell]
  cases b.colorAt c with
  | none => rfl
  | some k' =>
    have hcolor : s.color k' = s.color k ↔ k' = k :=
      ⟨fun heq => by rw [← s.color_color k', heq, s.color_color], congrArg s.color⟩
    simp [hcolor]

theorem isEmptyAt_cell (h : s.Relates b b') : b'.isEmptyAt (s.cell c) = b.isEmptyAt c := by
  have hcontains := s.contains_cell (c := c) h.size_eq h.size_eq'
  rw [Board.isEmptyAt, Board.isEmptyAt, h.colorAt_cell, Option.isNone_map, decide_eq_decide.mpr hcontains]

theorem perm_cells (h : s.Relates b b') : b'.cells.Perm (b.cells.map s.cell) := by
  have hinjective : Function.Injective s.cell := Function.LeftInverse.injective s.cell_cell
  refine (List.perm_ext_iff_of_nodup b'.cells_nodup (b.cells_nodup.map hinjective)).mpr fun c => ?_
  rw [List.mem_map, Board.mem_cells]
  constructor
  · intro hc
    exact ⟨s.cell c, Board.mem_cells.mpr ((s.contains_cell h.size_eq' h.size_eq).mpr hc), s.cell_cell c⟩
  · rintro ⟨d, hd, rfl⟩
    exact (s.contains_cell h.size_eq h.size_eq').mpr (Board.mem_cells.mp hd)

end Relates
end Symmetry

/-! ## The image of a board -/

namespace Board

variable {b : Board} {f : Cell → Option Color} {c : Cell}

/-- Puts the stone on a cell that `f` has there, if any. -/
def paint (f : Cell → Option Color) (b : Board) (c : Cell) : Board :=
  match f c with
  | none => b
  | some k => b.put c k

/-- The board with each stone where the symmetry takes it. -/
def image (b : Board) (s : Symmetry b.size) : Board :=
  { b.cells.foldl (paint fun c => (b.colorAt (s.cell c)).map s.color)
      (blank b.size b.toMove ⟨b.size_pos, b.size_le⟩) with
    lastMover := s.color b.lastMover
    lastCell := b.lastCell.map s.cell }

@[simp] theorem size_paint (f : Cell → Option Color) (b : Board) (c : Cell) : (b.paint f c).size = b.size := by
  unfold paint
  split
  · rfl
  · exact size_put b c _

theorem colorAt_paint (h : b.isEmptyAt c = true) (d : Cell) :
    (paint f b c).colorAt d = if d = c then f d else b.colorAt d := by
  unfold paint
  split
  · rename_i hnone
    split
    · rename_i hd
      rw [hd, hnone, (isEmptyAt_iff.mp h).2]
    · rfl
  · rename_i k hk
    rw [colorAt_put h]
    split
    · rename_i hd
      rw [hd, hk]
    · rfl

theorem size_foldl_paint (cells : List Cell) : (cells.foldl (paint f) b).size = b.size := by
  induction cells generalizing b with
  | nil => rfl
  | cons c cells ih => rw [List.foldl_cons, ih, size_paint]

/-- Cell by cell the stones of `f` come onto an empty part of the board. -/
theorem colorAt_foldl_paint {cells : List Cell} (hnodup : cells.Nodup) (hempty : ∀ c ∈ cells, b.isEmptyAt c = true)
    (d : Cell) : (cells.foldl (paint f) b).colorAt d = if d ∈ cells then f d else b.colorAt d := by
  induction cells generalizing b with
  | nil => simp
  | cons c cells ih =>
    obtain ⟨hc, hcells⟩ := List.nodup_cons.mp hnodup
    have hfirst := hempty c List.mem_cons_self
    have hrest : ∀ x ∈ cells, (paint f b c).isEmptyAt x = true := fun x hx => by
      have hx' := isEmptyAt_iff.mp (hempty x (List.mem_cons_of_mem c hx))
      have hne : x ≠ c := fun heq => hc (heq ▸ hx)
      rw [isEmptyAt_iff, colorAt_paint hfirst, if_neg hne, Contains, size_paint]
      exact hx'
    rw [List.foldl_cons, ih hcells hrest, colorAt_paint hfirst]
    by_cases hd : d = c
    · subst hd
      simp [hc]
    · simp [hd]

theorem relates_image (b : Board) (s : Symmetry b.size) : s.Relates b (b.image s) := by
  have hblank : (blank b.size b.toMove ⟨b.size_pos, b.size_le⟩).size = b.size := Array.size_replicate
  have hsize : (b.image s).size = b.size := (size_foldl_paint b.cells).trans hblank
  refine ⟨rfl, hsize, fun c => ?_⟩
  have hempty : ∀ d ∈ b.cells, (blank b.size b.toMove ⟨b.size_pos, b.size_le⟩).isEmptyAt d = true := by
    intro d hd
    rw [mem_cells, Contains] at hd
    rw [isEmptyAt_iff, Contains, hblank]
    exact ⟨hd, colorAt_blank _ _ _ d⟩
  refine (colorAt_foldl_paint b.cells_nodup hempty (s.cell c)).trans ?_
  split
  · rw [s.cell_cell]
  · rename_i hoff
    rw [mem_cells, s.contains_cell rfl rfl] at hoff
    rw [colorAt_blank, colorAt, if_neg hoff]
    rfl

end Board
end HexGame
