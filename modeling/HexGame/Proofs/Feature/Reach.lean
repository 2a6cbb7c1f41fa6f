import HexGame.Proofs.Board.Cells
import HexGame.Proofs.Chain.Joined
import Mathlib.Data.List.Perm.Basic

/-!
# Reachable cells

The stones mark what they reach one after the other, and cells are marked over and over. In the end exactly those
cells are marked that some stone reaches (`contains_reached`), and each of them counts once
(`reachableCells_eq`).
-/
namespace HexGame

namespace CellSet

variable {s : CellSet} {cells : List Cell} {c : Cell}

@[simp] theorem size_foldl_insert (s : CellSet) (cells : List Cell) : (cells.foldl insert s).size = s.size := by
  induction cells generalizing s with
  | nil => rfl
  | cons c cells ih => rw [List.foldl_cons, ih, size_insert]

theorem contains_foldl_insert :
    (cells.foldl insert s).contains c = true ↔ s.contains c = true ∨ s.OnGrid c ∧ c ∈ cells := by
  induction cells generalizing s with
  | nil => simp
  | cons d cells ih =>
    have hgrid : (s.insert d).OnGrid c ↔ s.OnGrid c := by rw [OnGrid, OnGrid, size_insert]
    rw [List.foldl_cons, ih, contains_insert, hgrid, List.mem_cons, Bool.or_eq_true, decide_eq_true_iff]
    by_cases hc : c = d
    · subst hc
      tauto
    · simp [hc]

theorem slots_eq_range (rows width : Nat) :
    ((List.range rows).flatMap fun y => (List.range width).map fun x => y * width + x) =
      List.range (rows * width) := by
  induction rows with
  | zero => simp
  | succ rows ih =>
    rw [List.range_succ, List.flatMap_append, ih, Nat.succ_mul, List.range_add, List.flatMap_singleton]

theorem card_eq_countP {b : Board} (h : s.size = b.size) : s.card = b.cells.countP s.contains := by
  have hmarks : s.marks.toList = (List.range (b.size * b.size)).map fun i => s.marks[i]?.getD false := by
    refine List.ext_getElem ?_ fun i hi _ => ?_
    · rw [List.length_map, List.length_range, Array.length_toList, s.size_marks, h]
    · rw [Array.length_toList] at hi
      rw [List.getElem_map, List.getElem_range, Array.getElem?_eq_getElem hi, Option.getD_some, Array.getElem_toList]
  have hcells : b.cells.map s.slot = List.range (b.size * b.size) := by
    rw [← slots_eq_range, Board.cells, List.map_flatMap]
    simp only [List.map_map, Function.comp_def, slot, h, Int.toNat_natCast]
  rw [card, ← Array.count_toList, hmarks, ← hcells, List.map_map, List.count, List.countP_map]
  refine List.countP_congr fun c hc => ?_
  have hgrid : s.OnGrid c := by
    rw [OnGrid, h]
    exact Board.mem_cells.mp hc
  rw [contains, if_pos hgrid]
  simp

end CellSet

namespace Board

variable {b : Board} {color : Color} {c stone : Cell}

/-- An empty cell beside a stone of the colour, or at the other end of an open bridge from one. -/
def Reaches (b : Board) (color : Color) (c : Cell) : Prop :=
  b.isEmptyAt c = true ∧ ∃ stone, b.owns color stone = true ∧
    ∃ d, stone.step d = c ∨ stone.leap d = c ∧ b.isOpen (stone.carriers d) = true

theorem mem_reachedFrom : c ∈ b.reachedFrom stone ↔ b.isEmptyAt c = true ∧
    ∃ d, stone.step d = c ∨ stone.leap d = c ∧ b.isOpen (stone.carriers d) = true := by
  simp only [reachedFrom, List.mem_append, List.mem_map, List.mem_filter, Direction.mem_all, true_and,
    Bool.and_eq_true]
  constructor
  · rintro (⟨d, he, rfl⟩ | ⟨d, ⟨he, ho⟩, rfl⟩)
    · exact ⟨he, d, .inl rfl⟩
    · exact ⟨he, d, .inr ⟨rfl, ho⟩⟩
  · rintro ⟨he, d, rfl | ⟨rfl, ho⟩⟩
    · exact .inl ⟨d, he, rfl⟩
    · exact .inr ⟨d, ⟨he, ho⟩, rfl⟩

/-- Stone by stone the same cells are marked as when they are taken one after the other. -/
theorem reached_eq (b : Board) (color : Color) : b.reached color =
    ((b.cells.filter (b.owns color)).flatMap b.reachedFrom).foldl CellSet.insert (.empty b.size) :=
  List.foldl_flatMap.symm

theorem size_reached (b : Board) (color : Color) : (b.reached color).size = b.size := by
  rw [reached_eq, CellSet.size_foldl_insert]
  rfl

theorem contains_reached : (b.reached color).contains c = true ↔ b.Reaches color c := by
  rw [reached_eq, CellSet.contains_foldl_insert, CellSet.contains_empty]
  simp only [Bool.false_eq_true, false_or, List.mem_flatMap, List.mem_filter, mem_reachedFrom, mem_cells]
  constructor
  · rintro ⟨-, stone, ⟨-, ho⟩, he, hd⟩
    exact ⟨he, stone, ho, hd⟩
  · rintro ⟨he, stone, ho, hd⟩
    exact ⟨(isEmptyAt_iff.mp he).1, stone, ⟨contains_of_owns ho, ho⟩, he, hd⟩

theorem reachableCells_eq (b : Board) (color : Color) :
    b.reachableCells color = b.cells.countP (b.reached color).contains :=
  CellSet.card_eq_countP (b.size_reached color)

end Board
end HexGame
