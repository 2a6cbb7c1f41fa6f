import HexGame.Chain.Search
import HexGame.Proofs.Grid.Bridges

/-!
# Cells joined to the near edge

`Joined` is the meaning of a strict chain: the cells that stones lying beside each other join to the
near edge. A link of the search is described here by what it leads over (`mem_entryLinks`,
`mem_onwardLinks`), and by the cells it joins once a carrier of its bridge is filled (`Joined.link`).
-/
namespace HexGame

/-- The cells that a chain of stones joins to the near edge; `own` tells where the stones are. -/
inductive Joined (color : Color) (own : Cell → Prop) : Cell → Prop where
  | edge {c : Cell} (hc : own c) (hd : color.depth c = 0) : Joined color own c
  | beside {c : Cell} (d : Direction) (h : Joined color own c) (hd : own (c.step d)) :
      Joined color own (c.step d)

/-- The stones join both edges of their colour. -/
def Spans (color : Color) (size : Nat) (own : Cell → Prop) : Prop :=
  ∃ c, Joined color own c ∧ color.remaining size c ≤ 0

namespace Joined

variable {color : Color} {own : Cell → Prop} {c d : Cell}

theorem stone (h : Joined color own c) : own c := by
  cases h with
  | edge hc _ => exact hc
  | beside _ _ hd => exact hd

theorem adjacent (h : Joined color own c) (hcd : c.isAdjacent d = true) (hd : own d) :
    Joined color own d := by
  obtain ⟨e, rfl⟩ := Cell.isAdjacent_iff.mp hcd
  exact .beside e h hd

end Joined

namespace Color

@[simp] theorem depth_cellAt (color : Color) (a k : Int) : color.depth (color.cellAt a k) = k := by
  cases color <;> rfl

@[simp] theorem along_cellAt (color : Color) (a k : Int) : color.along (color.cellAt a k) = a := by
  cases color <;> rfl

@[simp] theorem cellAt_along_depth (color : Color) (c : Cell) :
    color.cellAt (color.along c) (color.depth c) = c := by
  cases color <;> rfl

/-- The two directions that lead nearer to the near edge. -/
def toEdge : Color → Direction × Direction
  | red => (.north, .northEast)
  | blue => (.west, .southWest)

def isOutward (color : Color) (d : Direction) : Bool := d = color.toEdge.1 || d = color.toEdge.2

theorem edgeCarriers_eq (color : Color) (c : Cell) :
    color.edgeCarriers c = ⟨c.step color.toEdge.1, c.step color.toEdge.2⟩ := by
  cases color <;> simp [edgeCarriers, cellAt, along, depth, toEdge, Cell.step, Direction.offset] <;>
    omega

theorem depth_step_outward {color : Color} {c : Cell} {d : Direction} (h : color.isOutward d = true) :
    color.depth (c.step d) = color.depth c - 1 := by
  cases color <;> cases d <;> simp [isOutward, toEdge] at h <;>
    simp [depth, Cell.step, Direction.offset] <;> omega

theorem isAdjacent_edgeCarriers {color : Color} {c p : Cell} (h : p ∈ (color.edgeCarriers c).cells) :
    p.isAdjacent c = true := by
  rw [edgeCarriers_eq] at h
  rw [Cell.isAdjacent_comm]
  rcases Carriers.mem_cells.mp h with rfl | rfl <;> exact Cell.isAdjacent_step c _

theorem depth_edgeCarriers {color : Color} {c p : Cell} (h : p ∈ (color.edgeCarriers c).cells) :
    color.depth p = color.depth c - 1 := by
  rcases Carriers.mem_cells.mp h with rfl | rfl <;> simp [edgeCarriers]

theorem depth_step (color : Color) (c : Cell) (d : Direction) :
    color.depth c - 1 ≤ color.depth (c.step d) ∧ color.depth (c.step d) ≤ color.depth c + 1 := by
  cases color <;> cases d <;> simp only [depth, Cell.step, Direction.offset] <;> omega

end Color

namespace Board

variable {b : Board} {color : Color} {mode : Mode} {c : Cell} {l : Link}

theorem owns_iff : b.owns color c = true ↔ b.colorAt c = some color := by simp [owns]

theorem contains_of_owns (h : b.owns color c = true) : b.Contains c := by
  by_cases hc : b.Contains c
  · exact hc
  · simp [owns, colorAt, hc] at h

theorem isEmptyAt_of_owns (h : b.owns color c = true) : b.isEmptyAt c = false := by
  rw [owns_iff] at h
  simp [isEmptyAt, h]

theorem not_owns_opponent (h : b.owns color c = true) : b.owns color.opponent c = false := by
  rw [owns_iff] at h
  simp [owns, h, Ne.symm (Color.opponent_ne color)]

theorem contains_iff_along (color : Color) : b.Contains c ↔
    0 ≤ color.along c ∧ color.along c < b.size ∧ 0 ≤ color.depth c ∧ color.depth c < b.size := by
  cases color with
  | red => exact Iff.rfl
  | blue =>
    simp only [Contains, Color.along, Color.depth]
    omega

theorem isOpen_iff {p : Carriers} : b.isOpen p = true ↔ ∀ q ∈ p.cells, b.isEmptyAt q = true := by
  simp [isOpen, Carriers.cells]

theorem mem_entryLinks : l ∈ b.entryLinks color mode ↔
    (b.owns color l.target = true ∧ color.depth l.target = 0 ∧ l.via = none) ∨
      (mode = .virtual ∧ b.owns color l.target = true ∧ color.depth l.target = 1 ∧
        b.isOpen (color.edgeCarriers l.target) = true ∧
        l.via = some (color.edgeCarriers l.target)) := by
  have hedge : l ∈ (List.range b.size).filterMap (fun (a : Nat) =>
      if b.owns color (color.cellAt a 0) then some ⟨color.cellAt a 0, none⟩ else none) ↔
      b.owns color l.target = true ∧ color.depth l.target = 0 ∧ l.via = none := by
    simp only [List.mem_filterMap, List.mem_range, Option.ite_none_right_eq_some, Option.some.injEq]
    constructor
    · rintro ⟨a, -, h, rfl⟩
      exact ⟨h, by simp, rfl⟩
    · rintro ⟨ho, hd, hv⟩
      have hc := (contains_iff_along color).mp (contains_of_owns ho)
      have ha : color.cellAt (color.along l.target).toNat 0 = l.target := by
        rw [← hd, Int.toNat_of_nonneg hc.1, Color.cellAt_along_depth]
      exact ⟨(color.along l.target).toNat, by omega, by rwa [ha], by rw [ha, ← hv]⟩
  have hbridge : l ∈ (List.range (b.size - 1)).filterMap (fun (a : Nat) =>
      if b.owns color (color.cellAt a 1) && b.isOpen (color.edgeCarriers (color.cellAt a 1)) then
        some ⟨color.cellAt a 1, some (color.edgeCarriers (color.cellAt a 1))⟩ else none) ↔
      b.owns color l.target = true ∧ color.depth l.target = 1 ∧
        b.isOpen (color.edgeCarriers l.target) = true ∧
        l.via = some (color.edgeCarriers l.target) := by
    simp only [List.mem_filterMap, List.mem_range, Option.ite_none_right_eq_some, Option.some.injEq,
      Bool.and_eq_true]
    constructor
    · rintro ⟨a, -, ⟨h, h'⟩, rfl⟩
      exact ⟨h, by simp, h', rfl⟩
    · rintro ⟨ho, hd, hp, hv⟩
      have hc := (contains_iff_along color).mp (contains_of_owns ho)
      have he := isEmptyAt_iff.mp (isOpen_iff.mp hp _ (Carriers.mem_cells.mpr (.inr rfl)))
      have hs := (contains_iff_along color).mp he.1
      simp only [Color.edgeCarriers, Color.along_cellAt] at hs
      have ha : color.cellAt (color.along l.target).toNat 1 = l.target := by
        rw [← hd, Int.toNat_of_nonneg hc.1, Color.cellAt_along_depth]
      exact ⟨(color.along l.target).toNat, by omega, by rw [ha]; exact ⟨ho, hp⟩, by rw [ha, ← hv]⟩
  cases mode with
  | strict => simpa [entryLinks] using hedge
  | virtual => simpa [entryLinks] using or_congr hedge hbridge

theorem mem_onwardLinks {entry : Option Carriers} : l ∈ b.onwardLinks color mode c entry ↔
    (∃ d, b.owns color (c.step d) = true ∧ l = ⟨c.step d, none⟩) ∨
      (mode = .virtual ∧ ∃ d, b.isOpen (c.carriers d) = true ∧
        (∀ p, entry = some p → (c.carriers d).overlaps p = false) ∧
        (color.isPastFarEdge b.size (c.leap d) = true ∨ b.owns color (c.leap d) = true) ∧
        l = ⟨c.leap d, some (c.carriers d)⟩) := by
  have hentry (p : Carriers) : (!entry.any p.overlaps) = true ↔
      ∀ q, entry = some q → p.overlaps q = false := by
    cases entry <;> simp
  cases mode with
  | strict =>
    simp only [onwardLinks, List.mem_filterMap, Direction.mem_all, true_and,
      Option.ite_none_right_eq_some, Option.some.injEq, eq_comm (a := l), reduceCtorEq, false_and,
      or_false]
  | virtual =>
    simp only [onwardLinks, List.mem_append, List.mem_filterMap, Direction.mem_all, true_and,
      Option.ite_none_right_eq_some, Option.some.injEq, Bool.and_eq_true, Bool.or_eq_true, hentry,
      and_assoc, eq_comm (a := l)]

end Board
end HexGame
