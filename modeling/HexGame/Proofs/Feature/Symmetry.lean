import HexGame.Proofs.Board.Symmetry
import HexGame.Proofs.Chain.Winner
import HexGame.Proofs.Feature.Center
import HexGame.Proofs.Feature.Reach

/-!
# Features of related boards

What a colour has on a board its image has on the image of the board: complete chains, reachable cells and the
same distance from the centre. A chain may be followed from either edge, and where the symmetry exchanges the
edges of a colour it is followed backwards (`Joined.cell_back`). The nearest centre cell of a cell need not go to
the nearest centre cell of its image, but the distance does not depend on the choice
(`distance_closestCenter_cell`).
-/
namespace HexGame

variable {size : Nat} {s : Symmetry size} {b b' : Board} {k : Color} {c : Cell} {own own' : Cell → Prop}

/-! ## Chains -/

theorem Joined.cell (h : Joined k own c) (hown : ∀ c, own c → own' (s.cell c))
    (hdepth : ∀ c, (s.color k).depth (s.cell c) = k.depth c) : Joined (s.color k) own' (s.cell c) := by
  induction h with
  | @edge c hc hd => exact .edge (hown c hc) ((hdepth c).trans hd)
  | @beside c d _ hd ih =>
    have hstone := hown _ hd
    rw [s.cell_step] at hstone ⊢
    exact ih.beside _ hstone

/-- A chain that ends where the image of its colour begins leads back to where that colour ends. -/
theorem Joined.cell_back (h : Joined k own c) (hown : ∀ c, own c → own' (s.cell c))
    (hc : Joined (s.color k) own' (s.cell c)) :
    ∃ e, k.depth e = 0 ∧ Joined (s.color k) own' (s.cell e) := by
  induction h with
  | @edge c _ hd => exact ⟨c, hd, hc⟩
  | @beside c d h _ ih =>
    refine ih (hc.adjacent ?_ (hown c h.stone))
    rw [s.cell_step, Cell.isAdjacent_comm]
    exact Cell.isAdjacent_step _ _

theorem Spans.cell (h : Spans k size own) (hown : ∀ c, own c → own' (s.cell c))
    (hin : ∀ c, own c → k.depth c < size) : Spans (s.color k) size own' := by
  obtain ⟨c, hc, hfar⟩ := h
  unfold Color.remaining at hfar
  rcases s.depth_cell k with hdepth | hdepth
  · exact ⟨s.cell c, hc.cell hown hdepth, by rw [Color.remaining, hdepth]; exact hfar⟩
  · have hin := hin c hc.stone
    have hnear : (s.color k).depth (s.cell c) = 0 := by
      rw [hdepth]
      omega
    obtain ⟨e, he, hback⟩ := hc.cell_back hown (.edge (hown c hc.stone) hnear)
    refine ⟨s.cell e, hback, ?_⟩
    rw [Color.remaining, hdepth, he]
    omega

namespace Symmetry.Relates

theorem spans (h : s.Relates b b') (hspans : Spans k b.size (b.owns k · = true)) :
    Spans (s.color k) b'.size (b'.owns (s.color k) · = true) := by
  have hin : ∀ c, b.owns k c = true → k.depth c < size := fun c hc =>
    h.size_eq ▸ (Board.contains_iff_depth.mp (Board.contains_of_owns hc) k).2
  rw [h.size_eq] at hspans
  rw [h.size_eq']
  exact hspans.cell (fun c hc => h.owns_cell.trans hc) hin

theorem isConnected (h : s.Relates b b') : b'.isConnected (s.color k) .strict = b.isConnected k .strict := by
  rw [Bool.eq_iff_iff, Board.isConnected_strict_iff, Board.isConnected_strict_iff]
  refine ⟨fun hspans => ?_, h.spans⟩
  have hback := h.symm.spans hspans
  rwa [s.color_color] at hback

/-! ## Reachable cells -/

theorem reaches (h : s.Relates b b') (hc : b.Reaches k c) : b'.Reaches (s.color k) (s.cell c) := by
  obtain ⟨hempty, stone, hstone, d, hstep | ⟨hleap, hopen⟩⟩ := hc
  · refine ⟨h.isEmptyAt_cell.trans hempty, s.cell stone, h.owns_cell.trans hstone, s.direction d, .inl ?_⟩
    rw [← s.cell_step, hstep]
  · obtain ⟨e, hcell, hcarriers⟩ := s.exists_leap_cell stone d
    refine ⟨h.isEmptyAt_cell.trans hempty, s.cell stone, h.owns_cell.trans hstone, e, .inr ⟨?_, ?_⟩⟩
    · rw [← hcell, hleap]
    · rw [Board.isOpen_iff] at hopen ⊢
      intro q hq
      obtain ⟨p, hp, rfl⟩ := hcarriers q hq
      exact h.isEmptyAt_cell.trans (hopen p hp)

theorem contains_reached (h : s.Relates b b') :
    (b'.reached (s.color k)).contains (s.cell c) = (b.reached k).contains c := by
  rw [Bool.eq_iff_iff, Board.contains_reached, Board.contains_reached]
  refine ⟨fun hc => ?_, h.reaches⟩
  have hback := h.symm.reaches hc
  rwa [s.color_color, s.cell_cell] at hback

theorem reachableCells (h : s.Relates b b') : b'.reachableCells (s.color k) = b.reachableCells k := by
  rw [Board.reachableCells_eq, Board.reachableCells_eq, h.perm_cells.countP_eq, List.countP_map]
  exact List.countP_congr fun c _ => by rw [Function.comp_apply, h.contains_reached]

end Symmetry.Relates

/-! ## The centre -/

theorem isCenter_iff_depth : IsCenter size c ↔ ∀ k : Color, IsMiddle size (k.depth c) := by
  constructor
  · rintro ⟨hx, hy⟩ k
    cases k with
    | red => exact hy
    | blue => exact hx
  · exact fun h => ⟨h .blue, h .red⟩

namespace Symmetry

theorem isCenter_cell (s : Symmetry size) (h : IsCenter size c) : IsCenter size (s.cell c) := by
  rw [isCenter_iff_depth] at h ⊢
  intro k
  have hmiddle := h (s.color k)
  have hdepth := s.depth_cell (s.color k)
  rw [s.color_color] at hdepth
  unfold IsMiddle at hmiddle ⊢
  rcases hdepth with hdepth | hdepth
  · rwa [hdepth]
  · rw [hdepth]
    omega

/-- The nearest of the centre cells is as near as the nearest of their images. -/
theorem distance_closestCenter_cell (s : Symmetry size) (c : Cell) :
    (s.cell c).distance (closestCenter size (s.cell c)) = c.distance (closestCenter size c) := by
  have hle (c : Cell) : (s.cell c).distance (closestCenter size (s.cell c)) ≤ c.distance (closestCenter size c) := by
    rw [← s.distance_cell c]
    exact distance_closestCenter_le (s.isCenter_cell (isCenter_closestCenter size c))
  refine Nat.le_antisymm (hle c) ?_
  have hback := hle (s.cell c)
  rwa [s.cell_cell] at hback

theorem Relates.centerDistance (h : s.Relates b b') : b'.centerDistance (s.color k) = b.centerDistance k := by
  have hstones : (b'.cells.filter (b'.owns (s.color k))).Perm ((b.cells.filter (b.owns k)).map s.cell) := by
    refine (h.perm_cells.filter _).trans (.of_eq ?_)
    rw [List.filter_map]
    exact congrArg _ (List.filter_congr fun c _ => h.owns_cell)
  unfold Board.centerDistance
  rw [hstones.foldl_eq' (fun _ _ _ _ _ => by omega), List.foldl_map, h.size_eq, h.size_eq']
  simp only [s.distance_closestCenter_cell]

end Symmetry

/-! ## Reflections and half turns -/

namespace Board

/-- Rows become columns and red becomes blue. -/
def reflected (b : Board) : Board := b.image (.reflection b.size)

def turned (b : Board) : Board := b.image (.halfTurn b.size)

/-- No colour and no end of the board is favoured: neither in the search for a complete chain, nor in the count
of the reachable cells, nor in the distance from the centre. -/
theorem symmetries_keep_features (b : Board) (color : Color) :
    (b.reflected.size = b.size ∧ (∀ c, b.reflected.colorAt ⟨c.y, c.x⟩ = (b.colorAt c).map Color.opponent) ∧
      b.reflected.isConnected color.opponent .strict = b.isConnected color .strict ∧
      b.reflected.reachableCells color.opponent = b.reachableCells color ∧
      b.reflected.centerDistance color.opponent = b.centerDistance color) ∧
    (b.turned.size = b.size ∧ (∀ c, b.turned.colorAt ⟨b.size - 1 - c.x, b.size - 1 - c.y⟩ = b.colorAt c) ∧
      b.turned.isConnected color .strict = b.isConnected color .strict ∧
      b.turned.reachableCells color = b.reachableCells color ∧
      b.turned.centerDistance color = b.centerDistance color) := by
  have hreflected := b.relates_image (.reflection b.size)
  have hturned := b.relates_image (.halfTurn b.size)
  constructor
  · exact ⟨hreflected.size_eq', hreflected.colorAt_cell, hreflected.isConnected, hreflected.reachableCells,
      hreflected.centerDistance⟩
  · refine ⟨hturned.size_eq', fun c => ?_, hturned.isConnected, hturned.reachableCells, hturned.centerDistance⟩
    exact (hturned.colorAt_cell c).trans Option.map_id'

end Board
end HexGame
