import HexGame.Proofs.Board.Line
import Mathlib.Order.Basic
import Mathlib.Tactic.ByContra

/-!
# The move between two boards

Two boards are compared row by row, and the comparison ends at the first difference that is not the first
added stone. Passing over equal rows leaves nothing out (`foldlM_compareRow`), so what is found is the one stone
that the second board has more than the first (`transitionMove_eq_some_iff`), and there is none when they differ
in any other way or not at all.
-/
namespace HexGame
namespace Board

variable {a b : Board} {c d : Cell} {k : Color} {mv : Move} {found : Option Move} {cells : List Cell}

/-- The second board holds one more stone than the first, and is the same everywhere else. -/
structure Adds (a b : Board) (mv : Move) : Prop where
  size_eq : a.size = b.size
  empty : a.isEmptyAt mv.cell = true
  stone : b.colorAt mv.cell = some mv.color
  others : ∀ c, c ≠ mv.cell → b.colorAt c = a.colorAt c

/-! ## One cell -/

theorem compareCell_of_eq (h : a.colorAt c = b.colorAt c) : compareCell a b found c = some found := by
  unfold compareCell
  cases hb : b.colorAt c <;> simp [h, hb]

theorem compareCell_of_added (ha : a.colorAt c = none) (hb : b.colorAt c = some k) :
    compareCell a b none c = some (some ⟨c, k⟩) := by
  simp [compareCell, ha, hb]

/-- A second added stone ends the comparison like a stone that is gone or has another colour. -/
theorem compareCell_eq_none (hne : a.colorAt c ≠ b.colorAt c) (h : a.colorAt c ≠ none ∨ found ≠ none) :
    compareCell a b found c = none := by
  unfold compareCell
  cases ha : a.colorAt c <;> cases hb : b.colorAt c <;> cases found <;> simp_all

/-! ## All cells -/

/-- After a move has been found, the rest of the cells have to be equal. -/
theorem foldlM_compareCell_some :
    cells.foldlM (compareCell a b) (some mv) = some found ↔
      found = some mv ∧ ∀ c ∈ cells, a.colorAt c = b.colorAt c := by
  induction cells with
  | nil => simp [eq_comm]
  | cons c cells ih =>
    rw [List.foldlM_cons, List.forall_mem_cons]
    by_cases h : a.colorAt c = b.colorAt c
    · rw [compareCell_of_eq h]
      simpa [h] using ih
    · rw [compareCell_eq_none h (.inr (Option.some_ne_none mv))]
      simp [h]

/-- From the beginning, a move is found where it is the only difference. -/
theorem foldlM_compareCell_none (hnodup : cells.Nodup) :
    cells.foldlM (compareCell a b) none = some (some mv) ↔
      mv.cell ∈ cells ∧ a.colorAt mv.cell = none ∧ b.colorAt mv.cell = some mv.color ∧
        ∀ c ∈ cells, c ≠ mv.cell → a.colorAt c = b.colorAt c := by
  induction cells with
  | nil => simp
  | cons c cells ih =>
    rw [List.nodup_cons] at hnodup
    rw [List.foldlM_cons, List.forall_mem_cons, List.mem_cons]
    by_cases h : a.colorAt c = b.colorAt c
    · have hne (ha : a.colorAt mv.cell = none) (hb : b.colorAt mv.cell = some mv.color) : mv.cell ≠ c := by
        rintro rfl
        simp [ha, hb] at h
      rw [compareCell_of_eq h]
      refine (ih hnodup.2).trans ?_
      constructor
      · rintro ⟨hmem, ha, hb, hrest⟩
        exact ⟨.inr hmem, ha, hb, fun _ => h, hrest⟩
      · rintro ⟨hmem, ha, hb, -, hrest⟩
        exact ⟨hmem.resolve_left (hne ha hb), ha, hb, hrest⟩
    · have hcell (hfirst : c ≠ mv.cell → a.colorAt c = b.colorAt c) : mv.cell = c :=
        Decidable.byContradiction fun hne => h (hfirst (Ne.symm hne))
      by_cases ha : a.colorAt c = none
      · obtain ⟨k, hb⟩ := Option.ne_none_iff_exists'.mp fun hb => h (ha.trans hb.symm)
        rw [compareCell_of_added ha hb]
        change cells.foldlM (compareCell a b) (some ⟨c, k⟩) = some (some mv) ↔ _
        rw [foldlM_compareCell_some]
        constructor
        · rintro ⟨hmv, hrest⟩
          obtain rfl := Option.some.inj hmv
          exact ⟨.inl rfl, ha, hb, fun hne => absurd rfl hne, fun d hd _ => hrest d hd⟩
        · rintro ⟨-, -, hb', hfirst, hrest⟩
          obtain ⟨d, k'⟩ := mv
          obtain rfl : d = c := hcell hfirst
          obtain rfl : k = k' := Option.some.inj (hb.symm.trans hb')
          exact ⟨rfl, fun c hc => hrest c hc (ne_of_mem_of_not_mem hc hnodup.1)⟩
      · rw [compareCell_eq_none h (.inl ha)]
        refine iff_of_false nofun ?_
        rintro ⟨-, ha', -, hfirst, -⟩
        exact ha (hcell hfirst ▸ ha')

/-! ## Rows -/

/-- Equal words hold equal cells, so a row that is passed over has no difference. -/
theorem compareRow_eq (hsize : a.size = b.size) (y : Nat) :
    compareRow a b found y =
      ((List.range a.size).map fun (x : Nat) => (⟨x, y⟩ : Cell)).foldlM (compareCell a b) found := by
  rw [List.foldlM_map]
  unfold compareRow
  split
  · rename_i hrow
    have hcell (x : Nat) : a.colorAt ⟨x, y⟩ = b.colorAt ⟨x, y⟩ := by
      have hin : a.Contains ⟨x, y⟩ ↔ b.Contains ⟨x, y⟩ := by simp only [Contains, hsize]
      simp only [colorAt, hin, code, Int.toNat_natCast, hrow]
    induction List.range a.size with
    | nil => rfl
    | cons x xs ih =>
      rw [List.foldlM_cons, compareCell_of_eq (hcell x)]
      exact ih
  · rfl

theorem foldlM_compareRow (hsize : a.size = b.size) :
    (List.range a.size).foldlM (compareRow a b) found = a.cells.foldlM (compareCell a b) found := by
  unfold cells
  rw [foldlM_flatMap]
  exact congrArg (List.foldlM · _ _) (funext fun found => funext fun y => compareRow_eq hsize y)

/-! ## The move -/

/-- The comparison finds exactly the one stone that has been added. -/
theorem transitionMove_eq_some_iff : a.transitionMove b = some mv ↔ a.Adds b mv := by
  unfold transitionMove
  by_cases hsize : a.size = b.size
  · rw [if_neg (not_not_intro hsize), foldlM_compareRow hsize, Option.join_eq_some_iff,
      foldlM_compareCell_none a.cells_nodup]
    have hoff (c : Cell) (hc : c ∉ a.cells) : b.colorAt c = a.colorAt c := by
      rw [mem_cells] at hc
      have hc' : ¬ b.Contains c := by simpa only [Contains, hsize] using hc
      rw [colorAt, colorAt, if_neg hc, if_neg hc']
    constructor
    · rintro ⟨hmem, ha, hb, hrest⟩
      refine ⟨hsize, isEmptyAt_iff.mpr ⟨mem_cells.mp hmem, ha⟩, hb, fun c hc => ?_⟩
      by_cases hin : c ∈ a.cells
      · exact (hrest c hin hc).symm
      · exact hoff c hin
    · intro h
      obtain ⟨hin, ha⟩ := isEmptyAt_iff.mp h.empty
      exact ⟨mem_cells.mpr hin, ha, h.stone, fun c _ hc => (h.others c hc).symm⟩
  · rw [if_pos hsize]
    exact iff_of_false (Option.some_ne_none mv).symm fun h => hsize h.size_eq

theorem adds_place (h : a.isEmptyAt mv.cell = true) : a.Adds (a.place mv) mv where
  size_eq := (size_place a mv).symm
  empty := h
  stone := by rw [colorAt_place h, if_pos rfl]
  others c hc := by rw [colorAt_place h, if_neg hc]

theorem transitionMove_place (hmv : mv ∈ a.legalMoves) : a.transitionMove (a.place mv) = some mv :=
  transitionMove_eq_some_iff.mpr (adds_place (mem_legalMoves.mp hmv).1)

/-- Boards of one size on which every stone has stayed are equal or differ by stones that have been added. -/
theorem exists_adds (hsize : a.size = b.size) (hdiffer : ∃ c, a.colorAt c ≠ b.colorAt c)
    (hkept : ∀ c, a.colorAt c ≠ none → b.colorAt c = a.colorAt c)
    (hone : ∀ c d, a.colorAt c = none → b.colorAt c ≠ none → a.colorAt d = none → b.colorAt d ≠ none → c = d) :
    ∃ mv, a.Adds b mv := by
  obtain ⟨c, hc⟩ := hdiffer
  have ha : a.colorAt c = none := Decidable.byContradiction fun ha => hc (hkept c ha).symm
  have hb : b.colorAt c ≠ none := fun hb => hc (ha.trans hb.symm)
  obtain ⟨k, hk⟩ := Option.ne_none_iff_exists'.mp hb
  have hin : b.Contains c := Decidable.byContradiction fun hoff => hb (if_neg hoff)
  refine ⟨⟨c, k⟩, hsize, isEmptyAt_iff.mpr ⟨?_, ha⟩, hk, fun d hd => ?_⟩
  · simpa only [Contains, hsize] using hin
  · by_cases hd' : a.colorAt d = none
    · rw [hd']
      exact Decidable.byContradiction fun hb' => hd (hone d c hd' hb' ha hb)
    · exact hkept d hd'

/-- The move that is found is the one stone that the second board has more than the first. There is none when
the sizes differ, when no cell does, when a stone is gone or has another colour, and when two cells or more have
been filled. So the move between a board and the next one is the one that was played. -/
theorem transitionMove_inverts_play (a b : Board) :
    (∀ mv, a.transitionMove b = some mv ↔ a.size = b.size ∧ a.isEmptyAt mv.cell = true ∧
      b.colorAt mv.cell = some mv.color ∧ ∀ c, c ≠ mv.cell → b.colorAt c = a.colorAt c) ∧
    (a.transitionMove b = none ↔ a.size ≠ b.size ∨ (∀ c, b.colorAt c = a.colorAt c) ∨
      (∃ c, a.colorAt c ≠ none ∧ b.colorAt c ≠ a.colorAt c) ∨
      ∃ c d, c ≠ d ∧ a.colorAt c = none ∧ b.colorAt c ≠ none ∧ a.colorAt d = none ∧ b.colorAt d ≠ none) ∧
    ∀ mv ∈ a.legalMoves, ∃ b', a.play mv = .ok b' ∧ a.transitionMove b' = some mv := by
  refine ⟨fun mv => ?_, ⟨fun hnone => ?_, fun hother => ?_⟩, fun mv hmv => ?_⟩
  · rw [transitionMove_eq_some_iff]
    exact ⟨fun h => ⟨h.size_eq, h.empty, h.stone, h.others⟩, fun ⟨hs, ha, hb, ho⟩ => ⟨hs, ha, hb, ho⟩⟩
  · -- a board that is none of these exceeds the first by one stone
    by_contra hother
    simp only [not_or, not_not, not_forall, not_exists, not_and] at hother
    obtain ⟨hsize, ⟨c, hc⟩, hkept, hone⟩ := hother
    obtain ⟨mv, hadds⟩ := exists_adds hsize ⟨c, Ne.symm hc⟩ hkept fun c d ha hb ha' hb' =>
      Decidable.byContradiction fun hne => hb' (hone c d hne ha hb ha')
    simp [transitionMove_eq_some_iff.mpr hadds] at hnone
  · rw [Option.eq_none_iff_forall_ne_some]
    intro mv hmv
    obtain ⟨hsize, hempty, hstone, hothers⟩ := transitionMove_eq_some_iff.mp hmv
    have hnone := (isEmptyAt_iff.mp hempty).2
    have hfilled (c : Cell) (hne : b.colorAt c ≠ a.colorAt c) : c = mv.cell :=
      Decidable.byContradiction fun hc => hne (hothers c hc)
    rcases hother with hother | hother | ⟨c, hc, hne⟩ | ⟨c, d, hcd, ha, hb, ha', hb'⟩
    · exact hother hsize
    · have hsame := hother mv.cell
      simp [hstone, hnone] at hsame
    · exact hc (hfilled c hne ▸ hnone)
    · exact hcd ((hfilled c (ha ▸ hb)).trans (hfilled d (ha' ▸ hb')).symm)
  · exact ⟨_, play_of_mem_legalMoves hmv, transitionMove_place hmv⟩

/-- Beside a blue stone red plays one move, which is found again, and no move leads over the two that follow. -/
theorem transitionMove_inverts_play_fourCells :
    let b := (blank 2 .red two_le_maxSize).put ⟨1, 1⟩ .blue
    (⟨⟨0, 1⟩, .red⟩ : Move) ∈ b.legalMoves ∧
      (∃ b', b.play ⟨⟨0, 1⟩, .red⟩ = .ok b' ∧ b.transitionMove b' = some ⟨⟨0, 1⟩, .red⟩) ∧
      b.transitionMove ((b.place ⟨⟨0, 1⟩, .red⟩).place ⟨⟨1, 0⟩, .blue⟩) = none := by
  intro b
  obtain ⟨-, -, hplay⟩ := transitionMove_inverts_play b b
  obtain ⟨-, hnone, -⟩ :=
    transitionMove_inverts_play b ((b.place ⟨⟨0, 1⟩, .red⟩).place ⟨⟨1, 0⟩, .blue⟩)
  have hmv : (⟨⟨0, 1⟩, .red⟩ : Move) ∈ b.legalMoves := by decide +kernel
  exact ⟨hmv, hplay _ hmv, hnone.mpr (.inr (.inr (.inr ⟨⟨0, 1⟩, ⟨1, 0⟩, by decide +kernel⟩)))⟩

end Board
end HexGame
