import HexGame.Proofs.Chain.Joined

/-!
# A full board holds a chain

Above the board lies the near edge of red and on its left the near edge of blue. Cells joined to one of
them count as `Top` and `Left`. If no chain joins two edges, no three cells beside each other are of both
kinds and of neither (`Unjoined`), so that the seams between both kinds cross each row equally often up
to parity (`rowSeams_eq`): once above the board, and never below it.
-/
namespace HexGame

variable {n : Nat} {red blue : Cell → Prop} {c u v w : Cell} {d e : Direction}

/-- Above the board, or joined to its top by red. -/
def Top (red : Cell → Prop) (c : Cell) : Prop := (0 ≤ c.x ∧ c.y = -1) ∨ Joined .red red c

/-- On the left of the board, or joined to its left by blue. -/
def Left (blue : Cell → Prop) (c : Cell) : Prop := c.x = -1 ∨ Joined .blue blue c

/-- The colours of a full board on which neither joins its edges. -/
structure Undecided (n : Nat) (red blue : Cell → Prop) : Prop where
  size_pos : 0 < n
  red_on : ∀ c, red c → 0 ≤ c.x ∧ c.x < n ∧ 0 ≤ c.y ∧ c.y < n
  blue_on : ∀ c, blue c → 0 ≤ c.x ∧ c.x < n ∧ 0 ≤ c.y ∧ c.y < n
  disjoint : ∀ c, red c → ¬ blue c
  full : ∀ c : Cell, 0 ≤ c.x → c.x < n → 0 ≤ c.y → c.y < n → red c ∨ blue c
  red_open : ¬ Spans .red n red
  blue_open : ¬ Spans .blue n blue

namespace Undecided

variable (h : Undecided n red blue)
include h

theorem top_lt (hc : Top red c) : c.y < n - 1 := by
  have := h.size_pos
  rcases hc with ⟨-, hy⟩ | hj
  · omega
  · by_cases hr : Color.red.remaining n c ≤ 0
    · exact absurd ⟨c, hj, hr⟩ h.red_open
    · simp only [Color.remaining, Color.depth] at hr
      omega

theorem left_lt (hc : Left blue c) : c.x < n - 1 := by
  have := h.size_pos
  rcases hc with hx | hj
  · omega
  · by_cases hr : Color.blue.remaining n c ≤ 0
    · exact absurd ⟨c, hj, hr⟩ h.blue_open
    · simp only [Color.remaining, Color.depth] at hr
      omega

theorem not_left_of_top (hc : Top red c) : ¬ Left blue c := by
  rintro (hx | hj)
  · rcases hc with ⟨hx', -⟩ | hj'
    · omega
    · have := h.red_on c hj'.stone
      omega
  · rcases hc with ⟨-, hy⟩ | hj'
    · have := h.blue_on c hj.stone
      omega
    · exact h.disjoint c hj'.stone hj.stone

/-- A cell of neither kind has no neighbours of both kinds: it would be on the board, and its stone would
join it to one of them. -/
theorem not_unjoined (hx : -1 ≤ c.x) (hy : -1 ≤ c.y) (hc : ¬ Top red c) (hc' : ¬ Left blue c)
    (hu : u.isAdjacent c = true) (hv : v.isAdjacent c = true) (htop : Top red u) : ¬ Left blue v := by
  intro hleft
  obtain ⟨d, rfl⟩ := Cell.isAdjacent_iff.mp hu
  obtain ⟨e, he⟩ := Cell.isAdjacent_iff.mp hv
  have hux := h.top_lt htop
  have hvx := h.left_lt hleft
  have hdy := Color.red.depth_step u d
  have hex := Color.blue.depth_step v e
  simp only [he, Color.depth] at hdy hex
  have hx0 : 0 ≤ (u.step d).x := by
    have : (u.step d).x ≠ -1 := fun h => hc' (.inl h)
    omega
  have hy0 : 0 ≤ (u.step d).y := by
    have : (u.step d).y ≠ -1 := fun h => hc (.inl ⟨hx0, h⟩)
    omega
  rcases h.full _ hx0 (by omega) hy0 (by omega) with ho | ho
  · apply hc
    rcases htop with ⟨-, hy⟩ | hj
    · exact .inr (.edge ho (by simp only [Color.depth]; omega))
    · exact .inr (hj.adjacent hu ho)
  · apply hc'
    rcases hleft with hx | hj
    · exact .inr (.edge ho (by simp only [Color.depth]; omega))
    · exact .inr (hj.adjacent hv ho)

end Undecided

/-! ## Seams -/

/-- One cell is of the one kind and the other of the other. -/
def Seam (red blue : Cell → Prop) (u v : Cell) : Prop :=
  (Top red u ∧ Left blue v) ∨ (Left blue u ∧ Top red v)

open Classical in
/-- The parity of the seams on the first `k` steps to the east. -/
noncomputable def rowSeams (red blue : Cell → Prop) (c : Cell) : Nat → Bool
  | 0 => false
  | k + 1 => decide (Seam red blue c (c.step .east)) ^^ rowSeams red blue (c.step .east) k

theorem rowSeams_eq_false (P : Cell → Prop) (hstep : ∀ c, P c → P (c.step .east))
    (hseam : ∀ c, P c → ¬ Seam red blue c (c.step .east)) (hc : P c) (k : Nat) :
    rowSeams red blue c k = false := by
  induction k generalizing c with
  | zero => rfl
  | succ k ih => simp [rowSeams, hseam c hc, ih (hstep c hc)]

namespace Undecided

variable (h : Undecided n red blue)
include h

open Classical in
/-- Around a triangle lie two seams or none. -/
theorem seams_triangle (hu : -1 ≤ u.x ∧ -1 ≤ u.y) (hv : -1 ≤ v.x ∧ -1 ≤ v.y)
    (hw : -1 ≤ w.x ∧ -1 ≤ w.y) (huv : u.isAdjacent v = true) (hvw : v.isAdjacent w = true)
    (huw : u.isAdjacent w = true) :
    (decide (Seam red blue u v) ^^ decide (Seam red blue v w)) = decide (Seam red blue u w) := by
  have hvu := Cell.isAdjacent_comm u v ▸ huv
  have hwv := Cell.isAdjacent_comm v w ▸ hvw
  have hwu := Cell.isAdjacent_comm u w ▸ huw
  have hou := h.not_left_of_top (c := u)
  have hov := h.not_left_of_top (c := v)
  have how := h.not_left_of_top (c := w)
  have h₁ := fun hc hc' => h.not_unjoined hu.1 hu.2 hc hc' hvu hwu
  have h₂ := fun hc hc' => h.not_unjoined hu.1 hu.2 hc hc' hwu hvu
  have h₃ := fun hc hc' => h.not_unjoined hv.1 hv.2 hc hc' huv hwv
  have h₄ := fun hc hc' => h.not_unjoined hv.1 hv.2 hc hc' hwv huv
  have h₅ := fun hc hc' => h.not_unjoined hw.1 hw.2 hc hc' huw hvw
  have h₆ := fun hc hc' => h.not_unjoined hw.1 hw.2 hc hc' hvw huw
  unfold Seam
  by_cases htu : Top red u <;> by_cases htv : Top red v <;> by_cases htw : Top red w <;> grind

open Classical in
/-- The seams of a row and of the next one differ by those on the downward steps at both ends. -/
theorem rowSeams_south (hx : -1 ≤ c.x) (hy : -1 ≤ c.y) (k : Nat) :
    (rowSeams red blue c k ^^ rowSeams red blue (c.step .south) k) =
      (decide (Seam red blue c (c.step .south)) ^^
        decide (Seam red blue ⟨c.x + k, c.y⟩ ⟨c.x + k, c.y + 1⟩)) := by
  induction k generalizing c with
  | zero =>
    have he : c.step .south = ⟨c.x, c.y + 1⟩ := by ext <;> simp [Cell.step, Direction.offset]
    simp [rowSeams, he]
  | succ k ih =>
    have heast : (c.step .east).x = c.x + 1 ∧ (c.step .east).y = c.y := by
      simp [Cell.step, Direction.offset]
    have hsouth : (c.step .south).x = c.x ∧ (c.step .south).y = c.y + 1 := by
      simp [Cell.step, Direction.offset]
    have hcorner : (c.step .south).step .east = (c.step .east).step .south := by
      ext <;> simp [Cell.step, Direction.offset]
    have hdiagonal : (c.step .east).step .southWest = c.step .south := by
      simp only [Cell.step, Direction.offset, Cell.mk.injEq]
      omega
    have hd := hdiagonal ▸ Cell.isAdjacent_step (c.step .east) .southWest
    have h₁ := h.seams_triangle (u := c) (v := c.step .east) (w := c.step .south) ⟨hx, hy⟩ (by omega)
      (by omega) (Cell.isAdjacent_step c _) hd (Cell.isAdjacent_step c _)
    have h₂ := h.seams_triangle (u := c.step .east) (v := c.step .south)
      (w := (c.step .east).step .south) (by omega) (by omega)
      (by simp [Cell.step, Direction.offset]; omega) hd
      (hcorner ▸ Cell.isAdjacent_step (c.step .south) .east) (Cell.isAdjacent_step _ _)
    have ih := ih (c := c.step .east) (by omega) (by omega)
    rw [heast.1, heast.2, Int.add_assoc, Int.add_comm 1] at ih
    simp only [rowSeams, hcorner, Int.natCast_add, Int.natCast_one]
    grind

theorem rowSeams_eq {y : Int} (hy : -1 ≤ y) :
    rowSeams red blue ⟨-1, y⟩ (n + 1) = rowSeams red blue ⟨-1, y + 1⟩ (n + 1) := by
  classical
  have hs := h.rowSeams_south (c := ⟨-1, y⟩) (by simp) hy (n + 1)
  have hfirst : ¬ Seam red blue ⟨-1, y⟩ ⟨-1, y + 1⟩ := by
    rintro (⟨ht, -⟩ | ⟨-, ht⟩) <;> exact h.not_left_of_top ht (.inl rfl)
  have hlast : ¬ Seam red blue ⟨-1 + (n + 1 : Nat), y⟩ ⟨-1 + (n + 1 : Nat), y + 1⟩ := by
    rintro (⟨-, hl⟩ | ⟨hl, -⟩) <;> have := h.left_lt hl <;> simp only at this <;> omega
  have he : Cell.step ⟨-1, y⟩ .south = ⟨-1, y + 1⟩ := by simp [Cell.step, Direction.offset]
  simp only [he, hfirst, hlast, decide_false, Bool.xor_false, bne_eq_false_iff_eq] at hs
  exact hs

theorem rowSeams_top : rowSeams red blue ⟨-1, -1⟩ (n + 1) = true := by
  have hleft : Left blue ⟨-1, -1⟩ := .inl rfl
  have htop : Top red (Cell.step ⟨-1, -1⟩ .east) := .inl (by simp [Cell.step, Direction.offset])
  have hrest : rowSeams red blue (Cell.step ⟨-1, -1⟩ .east) n = false := by
    refine rowSeams_eq_false (fun c => 0 ≤ c.x ∧ c.y = -1) ?_ ?_ (by simp [Cell.step, Direction.offset]) n
    · intro c hc
      simp only [Cell.step, Direction.offset]
      omega
    · rintro c hc (⟨-, hl⟩ | ⟨hl, -⟩)
      · refine h.not_left_of_top (.inl ?_) hl
        simp only [Cell.step, Direction.offset]
        omega
      · exact h.not_left_of_top (.inl hc) hl
  simp [rowSeams, hrest, show Seam red blue ⟨-1, -1⟩ (Cell.step ⟨-1, -1⟩ .east) from .inr ⟨hleft, htop⟩]

theorem rowSeams_bottom : rowSeams red blue ⟨-1, n⟩ (n + 1) = false := by
  refine rowSeams_eq_false (fun c => c.y = n) ?_ ?_ rfl _
  · intro c hc
    simpa [Cell.step, Direction.offset] using hc
  · rintro c hc (⟨ht, -⟩ | ⟨-, ht⟩)
    · have := h.top_lt ht
      omega
    · have := h.top_lt ht
      simp only [Cell.step, Direction.offset] at this
      omega

theorem false : False := by
  have hrows (k : Nat) : rowSeams red blue ⟨-1, -1 + k⟩ (n + 1) = true := by
    induction k with
    | zero => exact h.rowSeams_top
    | succ k ih =>
      rw [h.rowSeams_eq (by omega)] at ih
      rwa [Int.natCast_add, ← Int.add_assoc]
  have hbottom := hrows (n + 1)
  rw [show (-1 + (n + 1 : Nat) : Int) = n by omega, h.rowSeams_bottom] at hbottom
  exact Bool.false_ne_true hbottom

end Undecided

/-- On a full board one of the colours joins its edges. -/
theorem spans_of_full (hn : 0 < n) (hred : ∀ c, red c → 0 ≤ c.x ∧ c.x < n ∧ 0 ≤ c.y ∧ c.y < n)
    (hblue : ∀ c, blue c → 0 ≤ c.x ∧ c.x < n ∧ 0 ≤ c.y ∧ c.y < n)
    (hdisjoint : ∀ c, red c → ¬ blue c)
    (hfull : ∀ c : Cell, 0 ≤ c.x → c.x < n → 0 ≤ c.y → c.y < n → red c ∨ blue c) :
    Spans .red n red ∨ Spans .blue n blue := by
  by_cases hr : Spans .red n red
  · exact .inl hr
  · by_cases hb : Spans .blue n blue
    · exact .inr hb
    · exact (Undecided.false ⟨hn, hred, hblue, hdisjoint, hfull, hr, hb⟩).elim

end HexGame
