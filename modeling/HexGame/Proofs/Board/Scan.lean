import HexGame.Board.Setup
import Mathlib.Data.List.Basic

/-!
# Scanning the packed rows

The lists of moves and the counts are made by shifting each row out of its word, two bits at a time. On clean
rows this reads what is on the cells one by one (`legalMoves_eq`, `stoneCounts_eq`).
-/
namespace HexGame

theorem Row.code_shift {r : Row} {x : Nat} (hx : x + 1 < maxSize) : (r >>> 2 : Row).code x = r.code (x + 1) := by
  apply UInt64.toNat_inj.mp
  rw [toNat_code (Nat.lt_of_succ_lt hx), toNat_code hx, UInt64.toNat_shiftRight,
    show (2 : UInt64).toNat % 64 = 2 from rfl, ← Nat.shiftRight_add, Nat.mul_succ, Nat.add_comm]

theorem Row.scan_eq {n : Nat} {r : Row} (h : n ≤ maxSize) : r.scan n = (List.range n).map r.code := by
  induction n generalizing r with
  | zero => rfl
  | succ n ih =>
    have hrest : (List.range n).map (r >>> 2 : Row).code = (List.range n).map (r.code ∘ Nat.succ) :=
      List.map_congr_left fun x hx => code_shift (Nat.lt_of_lt_of_le (Nat.succ_lt_succ (List.mem_range.mp hx)) h)
    rw [scan, ih (Nat.le_of_succ_le h), hrest, List.range_succ_eq_map, List.map_cons, List.map_map]
    rfl

theorem StoneCounts.foldl_count (l : List (Option Color)) (n : StoneCounts) :
    l.foldl count n =
      ⟨n.red + l.countP (· = some .red), n.blue + l.countP (· = some .blue), n.empty + l.countP (·.isNone)⟩ := by
  induction l generalizing n with
  | nil => rfl
  | cons stone l ih =>
    rw [List.foldl_cons, ih]
    rcases stone with - | - | - <;> simp [count] <;> omega

namespace Board

variable {b : Board} {mv : Move}

theorem contains_of_lt {x y : Nat} (hx : x < b.size) (hy : y < b.size) : b.Contains ⟨x, y⟩ := by
  simp only [Contains]
  omega

/-! ## Rows and cells -/

theorem rows_eq (b : Board) : b.rows.toList = (List.range b.size).map fun y => b.rows[y]?.getD 0 := by
  apply List.ext_getElem
  · simp [size]
  · intro y hy _
    simp [Array.getElem?_eq_getElem (Array.length_toList ▸ hy)]

theorem scan_row (b : Board) (y : Nat) :
    Row.scan b.size (b.rows[y]?.getD 0) = (List.range b.size).map fun (x : Nat) => b.code ⟨x, y⟩ :=
  Row.scan_eq b.size_le

theorem zipIdx_map_range {α : Type} (f : Nat → α) (n : Nat) :
    ((List.range n).map f).zipIdx = (List.range n).map fun i => (f i, i) := by
  apply List.ext_getElem <;> simp

/-! ## The legal moves -/

theorem legalMoves_eq (b : Board) : b.legalMoves = (b.cells.filter b.isEmptyAt).map (⟨·, b.toMove⟩) := by
  rw [legalMoves, rows_eq, zipIdx_map_range, List.flatMap_map, cells, List.filter_flatMap, List.map_flatMap]
  refine List.flatMap_congr fun y hy => ?_
  simp only [scan_row, zipIdx_map_range, List.filterMap_map]
  rw [List.filter_map, List.map_map, ← List.filterMap_eq_map, List.filterMap_filter]
  refine List.filterMap_congr fun x hx => ?_
  have hc : b.Contains ⟨x, y⟩ := contains_of_lt (List.mem_range.mp hx) (List.mem_range.mp hy)
  have hempty : b.isEmptyAt ⟨x, y⟩ = true ↔ b.code ⟨x, y⟩ = 0 := by
    rw [isEmptyAt_iff_code, and_iff_right hc]
  simp [hempty]

theorem isEmptyAt_of_mem_legalMoves (h : mv ∈ b.legalMoves) :
    b.isEmptyAt mv.cell = true ∧ mv.color = b.toMove := by
  simp only [legalMoves_eq, List.mem_map, List.mem_filter] at h
  obtain ⟨c, ⟨-, hc⟩, rfl⟩ := h
  exact ⟨hc, rfl⟩

theorem play_of_mem_legalMoves (h : mv ∈ b.legalMoves) : b.play mv = .ok (b.place mv) := by
  obtain ⟨he, hc⟩ := isEmptyAt_of_mem_legalMoves h
  obtain ⟨hb, hn⟩ := isEmptyAt_iff.mp he
  have ht : mv.color ≠ b.lastMover := by simp [hc, toMove]
  simp [play, tryPlay, ht, hb, hn]

/-! ## The counts -/

theorem colors_eq (b : Board) :
    b.rows.toList.flatMap (fun row => (row.scan b.size).map Color.ofCode?) = b.cells.map b.colorAt := by
  rw [rows_eq, List.flatMap_map, cells, List.map_flatMap]
  refine List.flatMap_congr fun y hy => ?_
  rw [scan_row, List.map_map, List.map_map]
  refine List.map_congr_left fun x hx => ?_
  simp [colorAt, contains_of_lt (List.mem_range.mp hx) (List.mem_range.mp hy)]

theorem stoneCounts_eq (b : Board) : b.stoneCounts =
    ⟨b.cells.countP (b.colorAt · = some .red), b.cells.countP (b.colorAt · = some .blue),
      b.cells.countP b.isEmptyAt⟩ := by
  have hempty : b.cells.countP (fun c => (b.colorAt c).isNone) = b.cells.countP b.isEmptyAt :=
    List.countP_congr fun c hc => by simp [isEmptyAt, mem_cells.mp hc]
  have hfold : b.stoneCounts = (b.cells.map b.colorAt).foldl StoneCounts.count ⟨0, 0, 0⟩ := by
    rw [← colors_eq, List.foldl_flatMap, stoneCounts, ← Array.foldl_toList]
    simp only [List.foldl_map]
  rw [hfold, StoneCounts.foldl_count]
  simp only [List.countP_map, Function.comp_def, hempty, Nat.zero_add]

end Board
end HexGame
