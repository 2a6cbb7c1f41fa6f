import HexGame.Proofs.Pattern.Drawing
import HexGame.Proofs.Pattern.Marking
import Mathlib.Algebra.GroupWithZero.Nat
import Mathlib.Data.Finset.Prod
import Mathlib.Data.Fintype.Basic
import Mathlib.Order.Interval.Finset.Nat

/-!
# Matches of drawn patterns

What counting means, cell by cell: a drawing lies at a place of the grid when each of its cells admits the
cell below it, and a side has a match there when the drawing lies for that side, and for blue not also for
red (`Drawing.places`). The boxes found with packed lines are exactly these matches (`mem_boxes_pack`), each
found once, so that the counts are the numbers of matches and the occupied lines are those that the matches
cover (`count_eq`).
-/
namespace HexGame

/-- The code of the cell in column `x` of row `y`. -/
def cellCode (grid : List Row) (x y : Nat) : UInt64 := Row.code (grid[y]?.getD 0) x

/-- Pattern `i` is looked for. Without a subset every pattern is. -/
def Selects (subset : Option (List Nat)) (i : Nat) : Prop := ∀ is ∈ subset, i ∈ is

instance (subset : Option (List Nat)) (i : Nat) : Decidable (Selects subset i) := by
  unfold Selects
  infer_instance

namespace Drawing

/-- Every cell of the drawing admits the cell below it when its first cell is put on column `x` of row
`y`. Beyond the end of a row nothing is asked. -/
def Agrees (d : Drawing) (owner : Color) (grid : List Row) (x y : Nat) : Prop :=
  ∀ j (hj : j < d.rows.length), ∀ k (hk : k < d.rows[j].length),
    d.rows[j][k].Admits owner (cellCode grid (x + k) (y + j))

instance (d : Drawing) (owner : Color) (grid : List Row) (x y : Nat) :
    Decidable (d.Agrees owner grid x y) := by
  unfold Agrees
  infer_instance

/-- The drawing lies inside the grid. -/
def Inside (d : Drawing) (grid : List Row) (x y : Nat) : Prop :=
  x + d.width ≤ grid.length ∧ y + d.height ≤ grid.length

instance (d : Drawing) (grid : List Row) (x y : Nat) : Decidable (d.Inside grid x y) := by
  unfold Inside
  infer_instance

/-- `owner` has a match at the place. What agrees for both sides is a match of red. -/
def MatchesAt (d : Drawing) (owner : Color) (grid : List Row) (x y : Nat) : Prop :=
  d.Inside grid x y ∧ d.Agrees owner grid x y ∧ (owner = .blue → ¬ d.Agrees .red grid x y)

instance (d : Drawing) (owner : Color) (grid : List Row) (x y : Nat) :
    Decidable (d.MatchesAt owner grid x y) := by
  unfold MatchesAt
  infer_instance

/-- The places of the matches of a side, column before row. -/
def places (d : Drawing) (owner : Color) (grid : List Row) : Finset (Nat × Nat) :=
  (Finset.range grid.length ×ˢ Finset.range grid.length).filter fun o => d.MatchesAt owner grid o.1 o.2

/-- The rows below a match at `o`. -/
def rowSpan (d : Drawing) (o : Nat × Nat) : Finset Nat := Finset.Ico o.2 (o.2 + d.height)

def columnSpan (d : Drawing) (o : Nat × Nat) : Finset Nat := Finset.Ico o.1 (o.1 + d.width)

end Drawing

namespace DrawnPattern

/-- The number of matches of a side, over all drawings and places. -/
def matchCount (p : DrawnPattern) (owner : Color) (grid : List Row) : Nat :=
  (p.drawings.map fun d => (d.places owner grid).card).sum

/-- A match of the pattern covers line `z`. `span` are the lines that one match covers; an excluded drawing
covers none. -/
def Covers (span : Drawing → Nat × Nat → Finset Nat) (owner : Color) (grid : List Row) (z : Nat)
    (p : DrawnPattern) : Prop :=
  ∃ d ∈ p.drawings, d.excluded = false ∧ ∃ o ∈ d.places owner grid, z ∈ span d o

instance (span : Drawing → Nat × Nat → Finset Nat) (owner : Color) (grid : List Row) (z : Nat)
    (p : DrawnPattern) : Decidable (p.Covers span owner grid z) := by
  unfold Covers
  infer_instance

/-- The lines of the grid that matches of the selected patterns cover. -/
def covered (span : Drawing → Nat × Nat → Finset Nat) (ps : List DrawnPattern) (subset : Option (List Nat))
    (owner : Color) (grid : List Row) : Finset Nat :=
  (Finset.range grid.length).filter fun z =>
    ∃ i : Fin ps.length, Selects subset i ∧ ps[i].Covers span owner grid z

/-- What is counted for a side: the matches of each selected pattern, and at the end the covered rows and
columns. -/
def counts (ps : List DrawnPattern) (subset : Option (List Nat)) (grid : List Row) (owner : Color) : List Nat :=
  List.ofFn (fun i : Fin ps.length => if Selects subset i then ps[i].matchCount owner grid else 0) ++
    [(covered Drawing.rowSpan ps subset owner grid).card,
      (covered Drawing.columnSpan ps subset owner grid).card]

end DrawnPattern

/-! ## Packed and drawn matches -/

section Fitting

variable {d : Drawing} {owner : Color} {grid : List Row} {x y : Nat}

theorem cellCode_cons_succ (r : Row) (grid : List Row) (x y : Nat) :
    cellCode (r :: grid) x (y + 1) = cellCode grid x y := by
  simp [cellCode]

theorem cellCode_drop (grid : List Row) (x y j : Nat) : cellCode (grid.drop y) x j = cellCode grid x (y + j) := by
  simp [cellCode, List.getElem?_drop]

theorem fitsRows_pack_iff {rows : List (List CellCode)} (hheight : rows.length ≤ grid.length)
    (hwidth : ∀ row ∈ rows, x + row.length ≤ maxSize) :
    Variant.fitsRows owner x (rows.map PackedLine.pack) grid = true ↔
      ∀ j (hj : j < rows.length), ∀ k (hk : k < rows[j].length),
        rows[j][k].Admits owner (cellCode grid (x + k) j) := by
  induction rows generalizing grid with
  | nil => simp [Variant.fitsRows]
  | cons row rows ih =>
    cases grid with
    | nil => simp at hheight
    | cons r grid =>
      rw [List.forall_mem_cons] at hwidth
      have hrest := ih (Nat.le_of_succ_le_succ hheight) hwidth.2
      rw [List.map_cons, Variant.fitsRows, Bool.and_eq_true, hrest, PackedLine.fits_pack_iff hwidth.1]
      constructor
      · rintro ⟨hrow, hrows⟩ (_ | j) hj k hk
        · exact hrow k hk
        · rw [cellCode_cons_succ]
          exact hrows j (by simpa using hj) k hk
      · refine fun h => ⟨fun k hk => h 0 (by simp) k hk, fun j hj k hk => ?_⟩
        rw [← cellCode_cons_succ r]
        exact h (j + 1) (by simpa using hj) k hk

theorem Drawing.ownerAt_eq_some (hgrid : grid.length ≤ maxSize) (hin : d.Inside grid x y) :
    d.pack.ownerAt (grid.drop y) x = some owner ↔
      d.Agrees owner grid x y ∧ (owner = .blue → ¬ d.Agrees .red grid x y) := by
  have hfits (side : Color) : Variant.fitsRows side x d.pack.lines (grid.drop y) = true ↔
      d.Agrees side grid x y := by
    rw [pack_lines, fitsRows_pack_iff]
    · simp only [cellCode_drop]
      rfl
    · have := hin.2
      rw [height] at this
      rw [List.length_drop]
      omega
    · intro row hrow
      have := length_le_width hrow
      have := hin.1
      omega
  unfold Variant.ownerAt
  rw [if_congr (hfits .red) rfl rfl, if_congr (hfits .blue) rfl rfl]
  cases owner <;> by_cases hred : d.Agrees .red grid x y <;> simp [hred]

end Fitting

/-! ## Boxes -/

section Boxes

variable {v : Variant} {d : Drawing} {p : DrawnPattern} {owner : Color} {grid : List Row} {b : Box}
  {x y z : Nat}

theorem Variant.mem_boxes : b ∈ v.boxes grid ↔
    ∃ x y owner, x + v.width ≤ grid.length ∧ y + v.height ≤ grid.length ∧
      v.ownerAt (grid.drop y) x = some owner ∧ b = ⟨owner, x, y, v.width, v.height, v.excluded⟩ := by
  unfold boxes
  dsimp only
  split
  · simp
    omega
  · simp only [List.mem_flatMap, List.mem_filterMap, List.mem_range, Option.map_eq_some_iff]
    constructor
    · rintro ⟨y, hy, x, hx, owner, howner, rfl⟩
      exact ⟨x, y, owner, by omega, by omega, howner, rfl⟩
    · rintro ⟨x, y, owner, hx, hy, howner, rfl⟩
      exact ⟨y, by omega, x, by omega, owner, howner, rfl⟩

theorem Variant.nodup_boxes (v : Variant) (grid : List Row) : (v.boxes grid).Nodup := by
  unfold boxes
  dsimp only
  split
  · exact List.nodup_nil
  · refine List.nodup_flatMap.mpr ⟨fun y _ => ?_, ?_⟩
    · refine List.nodup_range.filterMap fun x x' b hx hx' => ?_
      obtain ⟨_, _, rfl⟩ := Option.map_eq_some_iff.mp hx
      obtain ⟨_, _, hb⟩ := Option.map_eq_some_iff.mp hx'
      exact (congrArg Box.x hb).symm
    · refine List.nodup_range.imp fun {y y'} hne b hy hy' => hne ?_
      obtain ⟨_, _, h⟩ := List.mem_filterMap.mp hy
      obtain ⟨_, _, h'⟩ := List.mem_filterMap.mp hy'
      obtain ⟨_, _, rfl⟩ := Option.map_eq_some_iff.mp h
      obtain ⟨_, _, hb⟩ := Option.map_eq_some_iff.mp h'
      exact (congrArg Box.y hb).symm

namespace Drawing

def boxAt (d : Drawing) (owner : Color) (o : Nat × Nat) : Box := ⟨owner, o.1, o.2, d.width, d.height, d.excluded⟩

theorem boxAt_injective (d : Drawing) (owner : Color) : Function.Injective (d.boxAt owner) :=
  fun _ _ h => Prod.ext (congrArg Box.x h) (congrArg Box.y h)

theorem mem_places (hd : d.Proper) {o : Nat × Nat} :
    o ∈ d.places owner grid ↔ d.MatchesAt owner grid o.1 o.2 := by
  rw [places, Finset.mem_filter, Finset.mem_product, Finset.mem_range, Finset.mem_range]
  refine ⟨And.right, fun h => ⟨?_, h⟩⟩
  have := hd.width_pos
  have := hd.height_pos
  obtain ⟨⟨hx, hy⟩, -⟩ := h
  omega

theorem mem_boxes_pack (hd : d.Proper) (hgrid : grid.length ≤ maxSize) :
    b ∈ d.pack.boxes grid ∧ b.owner = owner ↔ ∃ o ∈ d.places owner grid, d.boxAt owner o = b := by
  rw [Variant.mem_boxes]
  simp only [pack_width, pack_height, pack_excluded, mem_places hd]
  constructor
  · rintro ⟨⟨x, y, owner, hx, hy, howner, rfl⟩, rfl⟩
    exact ⟨(x, y), ⟨⟨hx, hy⟩, (ownerAt_eq_some hgrid ⟨hx, hy⟩).mp howner⟩, rfl⟩
  · rintro ⟨⟨x, y⟩, ⟨hin, hagrees⟩, rfl⟩
    exact ⟨⟨x, y, owner, hin.1, hin.2, (ownerAt_eq_some hgrid hin).mpr hagrees, rfl⟩, rfl⟩

theorem length_boxes_pack (hd : d.Proper) (hgrid : grid.length ≤ maxSize) :
    ((d.pack.boxes grid).filter fun b => b.owner = owner).length = (d.places owner grid).card := by
  have hset : ((d.pack.boxes grid).filter fun b => b.owner = owner).toFinset =
      (d.places owner grid).image (d.boxAt owner) := by
    ext b
    rw [List.mem_toFinset, List.mem_filter, decide_eq_true_iff, mem_boxes_pack hd hgrid, Finset.mem_image]
  rw [← List.toFinset_card_of_nodup ((d.pack.nodup_boxes grid).filter _), hset,
    Finset.card_image_of_injective _ (d.boxAt_injective owner)]

end Drawing

namespace DrawnPattern

theorem boxes_pack (p : DrawnPattern) (grid : List Row) :
    p.pack.boxes grid = p.drawings.flatMap fun d => d.pack.boxes grid := by
  rw [Pattern.boxes, pack, List.flatMap_map]

theorem length_boxes_pack (hp : ∀ d ∈ p.drawings, d.Proper) (hgrid : grid.length ≤ maxSize) :
    ((p.pack.boxes grid).filter fun b => b.owner = owner).length = p.matchCount owner grid := by
  rw [boxes_pack, List.filter_flatMap, List.length_flatMap, matchCount]
  exact congrArg List.sum (List.map_congr_left fun d hd => Drawing.length_boxes_pack (hp d hd) hgrid)

theorem exists_box_iff_covers (hp : ∀ d ∈ p.drawings, d.Proper) (hgrid : grid.length ≤ maxSize)
    {span : Drawing → Nat × Nat → Finset Nat} {covers : Box → Nat → Bool}
    (hspan : ∀ d o, covers (d.boxAt owner o) z = true ↔ d.excluded = false ∧ z ∈ span d o) :
    (∃ b ∈ p.pack.boxes grid, b.owner = owner ∧ covers b z = true) ↔ p.Covers span owner grid z := by
  rw [boxes_pack]
  simp only [List.mem_flatMap, Covers]
  constructor
  · rintro ⟨b, ⟨d, hd, hb⟩, howner, hcovers⟩
    obtain ⟨o, ho, rfl⟩ := (Drawing.mem_boxes_pack (hp d hd) hgrid).mp ⟨hb, howner⟩
    obtain ⟨hexcluded, hz⟩ := (hspan d o).mp hcovers
    exact ⟨d, hd, hexcluded, o, ho, hz⟩
  · rintro ⟨d, hd, hexcluded, o, ho, hz⟩
    obtain ⟨hb, howner⟩ := (Drawing.mem_boxes_pack (hp d hd) hgrid).mpr ⟨o, ho, rfl⟩
    exact ⟨_, ⟨d, hd, hb⟩, howner, (hspan d o).mpr ⟨hexcluded, hz⟩⟩

end DrawnPattern

theorem Drawing.coversRow_boxAt (d : Drawing) (o : Nat × Nat) :
    (d.boxAt owner o).coversRow z = true ↔ d.excluded = false ∧ z ∈ d.rowSpan o := by
  simp only [Box.coversRow, rowSpan, Bool.and_eq_true, Bool.not_eq_true', decide_eq_true_eq, Finset.mem_Ico,
    and_assoc]
  rfl

theorem Drawing.coversColumn_boxAt (d : Drawing) (o : Nat × Nat) :
    (d.boxAt owner o).coversColumn z = true ↔ d.excluded = false ∧ z ∈ d.columnSpan o := by
  simp only [Box.coversColumn, columnSpan, Bool.and_eq_true, Bool.not_eq_true', decide_eq_true_eq,
    Finset.mem_Ico, and_assoc]
  rfl

end Boxes
end HexGame
