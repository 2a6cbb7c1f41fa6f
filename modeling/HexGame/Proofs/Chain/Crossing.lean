import HexGame.Proofs.Chain.Joined

/-!
# Chains of both colours cross

A red chain is followed from above the board downwards. For each blue cell the steps are counted that pass
below it on its left, and those that pass above it on its left. The parities of both numbers agree
when the chain has left the board (`Sides.below_eq_above`), and blue cells beside each other see the same
parity (`Sides.step_eq`). On the left edge it is even and on the right edge odd, so no blue chain joins
them.
-/
namespace HexGame

variable {n : Nat} {red blue : Cell → Prop} {a c z : Cell} {d : Direction}

/-- The cell `a` lies in the row of `z`, on its left. -/
def leftOf (z a : Cell) : Bool := a.y = z.y && a.x < z.x

/-- The step leads from the row of `z` to the next row or back, on the left of `z`. -/
def passesBelow (z a c : Cell) : Bool :=
  (leftOf z a && c.y = z.y + 1) || (leftOf z c && a.y = z.y + 1)

/-- The step leads from the row of `z` to the row before it or back, on the left of `z`. -/
def passesAbove (z a c : Cell) : Bool :=
  (leftOf z a && c.y = z.y - 1) || (leftOf z c && a.y = z.y - 1)

/-- The parities of the steps that pass below and above each blue cell on its left, for a chain that leads
from above the board to `c`. -/
structure Sides (n : Nat) (blue : Cell → Prop) (c : Cell) (below above : Cell → Bool) : Prop where
  rows : ∀ z, blue z → (below z ^^ above z) = leftOf z c
  east : ∀ z, blue z → blue (z.step .east) → below z = below (z.step .east)
  south : ∀ z, blue z → blue (z.step .south) → below z = above (z.step .south)
  southWest : ∀ z, blue z → blue (z.step .southWest) → below z = above (z.step .southWest)
  first : ∀ z, blue z → z.x = 0 → below z = false
  last : ∀ z, blue z → z.x = n - 1 → below z = decide (z.y < c.y)

/-! ## One step -/

/-- A step that meets no blue cell passes it below or above as it enters or leaves its row on the left. -/
theorem passesBelow_xor_passesAbove (ha : a ≠ z) (hc : a.step d ≠ z) :
    (passesBelow z a (a.step d) ^^ passesAbove z a (a.step d)) = (leftOf z a ^^ leftOf z (a.step d)) := by
  rw [Ne, Cell.ext_iff] at ha hc
  rw [Bool.eq_iff_iff]
  cases d <;> simp [passesBelow, passesAbove, leftOf, Cell.step, Direction.offset] at ha hc ⊢ <;> grind

theorem passesBelow_east (ha : a ≠ z) (hc : a.step d ≠ z) :
    passesBelow z a (a.step d) = passesBelow (z.step .east) a (a.step d) := by
  rw [Ne, Cell.ext_iff] at ha hc
  rw [Bool.eq_iff_iff]
  cases d <;> simp [passesBelow, leftOf, Cell.step, Direction.offset] at ha hc ⊢ <;> grind

theorem passesBelow_south (ha : a ≠ z) (hc : a.step d ≠ z) :
    passesBelow z a (a.step d) = passesAbove (z.step .south) a (a.step d) := by
  rw [Ne, Cell.ext_iff] at ha hc
  rw [Bool.eq_iff_iff]
  cases d <;> simp [passesBelow, passesAbove, leftOf, Cell.step, Direction.offset] at ha hc ⊢ <;> grind

theorem passesBelow_southWest (ha : a ≠ z.step .southWest) (hc : a.step d ≠ z.step .southWest) :
    passesBelow z a (a.step d) = passesAbove (z.step .southWest) a (a.step d) := by
  rw [Ne, Cell.ext_iff] at ha hc
  rw [Bool.eq_iff_iff]
  cases d <;> simp [passesBelow, passesAbove, leftOf, Cell.step, Direction.offset] at ha hc ⊢ <;> grind

theorem passesBelow_last (ha : a ≠ z) (hc : a.step d ≠ z) (hax : a.x ≤ z.x) (hcx : (a.step d).x ≤ z.x) :
    passesBelow z a (a.step d) = (decide (z.y < a.y) ^^ decide (z.y < (a.step d).y)) := by
  rw [Ne, Cell.ext_iff] at ha hc
  rw [Bool.eq_iff_iff]
  cases d <;> simp [passesBelow, leftOf, Cell.step, Direction.offset] at ha hc hax hcx ⊢ <;> grind

theorem passesBelow_first (ha : z.x ≤ a.x) (hc : z.x ≤ c.x) : passesBelow z a c = false := by
  have h₁ : ¬ a.x < z.x := by omega
  have h₂ : ¬ c.x < z.x := by omega
  simp [passesBelow, leftOf, h₁, h₂]

/-! ## Chains -/

namespace Sides

variable {below above : Cell → Bool}

theorem start (hblue : ∀ z, blue z → 0 ≤ z.y) (hc : c.y < 0) :
    Sides n blue c (fun _ => false) fun _ => false where
  rows z hz := by
    have := hblue z hz
    have hy : c.y ≠ z.y := by omega
    simp [leftOf, hy]
  east _ _ _ := rfl
  south _ _ _ := rfl
  southWest _ _ _ := rfl
  first _ _ _ := rfl
  last z hz _ := by
    have := hblue z hz
    have hy : ¬ z.y < c.y := by omega
    simp [hy]

/-- A step to a cell that is not blue, within the columns of the board. -/
theorem go (h : Sides n blue c below above) (hc : ¬ blue c) (hd : ¬ blue (c.step d))
    (hx : 0 ≤ c.x ∧ c.x < n) (hdx : 0 ≤ (c.step d).x ∧ (c.step d).x < n) :
    Sides n blue (c.step d) (fun z => below z ^^ passesBelow z c (c.step d))
      fun z => above z ^^ passesAbove z c (c.step d) := by
  have hne {z : Cell} (hz : blue z) : c ≠ z ∧ c.step d ≠ z :=
    ⟨fun he => hc (he ▸ hz), fun he => hd (he ▸ hz)⟩
  refine ⟨fun z hz => ?_, fun z hz hz' => ?_, fun z hz hz' => ?_, fun z hz hz' => ?_, fun z hz hzx => ?_,
    fun z hz hzx => ?_⟩
  · calc ((below z ^^ passesBelow z c (c.step d)) ^^ (above z ^^ passesAbove z c (c.step d)))
        = ((below z ^^ above z) ^^ (passesBelow z c (c.step d) ^^ passesAbove z c (c.step d))) := by
          rw [Bool.xor_assoc, Bool.xor_assoc, Bool.xor_left_comm (above z)]
      _ = (leftOf z c ^^ (leftOf z c ^^ leftOf z (c.step d))) := by
          rw [h.rows z hz, passesBelow_xor_passesAbove (hne hz).1 (hne hz).2]
      _ = leftOf z (c.step d) := by simp
  · rw [h.east z hz hz', passesBelow_east (hne hz).1 (hne hz).2]
  · rw [h.south z hz hz', passesBelow_south (hne hz).1 (hne hz).2]
  · rw [h.southWest z hz hz', passesBelow_southWest (hne hz').1 (hne hz').2]
  · rw [h.first z hz hzx, passesBelow_first (by omega) (by omega)]
    rfl
  · rw [h.last z hz hzx, passesBelow_last (hne hz).1 (hne hz).2 (by omega) (by omega)]
    simp

theorem of_joined (hred : ∀ c, red c → 0 ≤ c.x ∧ c.x < n) (hblue : ∀ z, blue z → 0 ≤ z.y)
    (hdisjoint : ∀ c, red c → ¬ blue c) (h : Joined .red red c) :
    ∃ below above, Sides n blue c below above := by
  induction h with
  | @edge c hc hd =>
    have hentry : (c.step .north).step .south = c := c.step_opposite .north
    have hx := hred c hc
    have hy : (c.step .north).y < 0 := by
      simp only [Color.depth] at hd
      simp only [Cell.step, Direction.offset]
      omega
    have hnorth : 0 ≤ (c.step .north).x ∧ (c.step .north).x < n := by
      simpa [Cell.step, Direction.offset] using hx
    have hgo := go (start (n := n) hblue hy) (d := .south)
      (fun hz => by have := hblue _ hz; omega) (by rw [hentry]; exact hdisjoint c hc) hnorth
      (by rwa [hentry])
    rw [hentry] at hgo
    exact ⟨_, _, hgo⟩
  | @beside c d hj hd ih =>
    obtain ⟨below, above, h⟩ := ih
    exact ⟨_, _, h.go (hdisjoint c hj.stone) (hdisjoint _ hd) (hred c hj.stone) (hred _ hd)⟩

/-- Once the chain has left the board as many steps pass below a cell as above it, up to parity. -/
theorem below_eq_above (h : Sides n blue c below above) (hblue : ∀ z, blue z → z.y < n) (hc : n ≤ c.y)
    (hz : blue z) : below z = above z := by
  have h₁ := h.rows z hz
  have h₂ := hblue z hz
  have hy : c.y ≠ z.y := by omega
  simpa [leftOf, hy] using h₁

theorem step_eq (h : Sides n blue c below above) (hblue : ∀ z, blue z → z.y < n) (hc : n ≤ c.y)
    (hz : blue z) (hd : blue (z.step d)) : below (z.step d) = below z := by
  have hforward {z : Cell} {d : Direction} (hz : blue z) (hd : blue (z.step d))
      (he : d = .east ∨ d = .south ∨ d = .southWest) : below (z.step d) = below z := by
    have hsame := h.below_eq_above hblue hc hd
    rcases he with rfl | rfl | rfl
    · exact (h.east z hz hd).symm
    · rw [hsame, h.south z hz hd]
    · rw [hsame, h.southWest z hz hd]
  have hback : (z.step d).step d.opposite = z := z.step_opposite d
  have hcases : (d = .east ∨ d = .south ∨ d = .southWest) ∨
      d.opposite = .east ∨ d.opposite = .south ∨ d.opposite = .southWest := by
    cases d <;> simp [Direction.opposite]
  rcases hcases with he | he
  · exact hforward hz hd he
  · have := hforward hd (by rwa [hback]) he
    rw [hback] at this
    exact this.symm

end Sides

/-- No red chain and blue chain join their edges on the same board. -/
theorem not_spans_of_spans (hred : ∀ c, red c → 0 ≤ c.x ∧ c.x < n)
    (hblue : ∀ c, blue c → 0 ≤ c.x ∧ c.x < n ∧ 0 ≤ c.y ∧ c.y < n)
    (hdisjoint : ∀ c, red c → ¬ blue c) (h : Spans .red n red) : ¬ Spans .blue n blue := by
  obtain ⟨c, hc, hr⟩ := h
  have hlow : ∀ z, blue z → 0 ≤ z.y := fun z hz => (hblue z hz).2.2.1
  have hhigh : ∀ z, blue z → z.y < n := fun z hz => (hblue z hz).2.2.2
  obtain ⟨below, above, hsides⟩ := Sides.of_joined hred hlow hdisjoint hc
  have hx := hred c hc.stone
  have hy : (n : Int) ≤ (c.step .south).y := by
    simp only [Color.remaining, Color.depth] at hr
    simp only [Cell.step, Direction.offset]
    omega
  have hexit := hsides.go (d := .south) (hdisjoint c hc.stone)
    (fun hz => by have := hhigh _ hz; omega) hx (by simpa [Cell.step, Direction.offset] using hx)
  have hjoined {z : Cell} (hz : Joined .blue blue z) :
      (below z ^^ passesBelow z c (c.step .south)) = false := by
    induction hz with
    | edge hz hd => exact hexit.first _ hz hd
    | beside d hz hd ih => exact (hexit.step_eq hhigh hy hz.stone hd).trans ih
  rintro ⟨z, hz, hzr⟩
  have hzb := hblue z hz.stone
  have hzx : z.x = n - 1 := by
    simp only [Color.remaining, Color.depth] at hzr
    omega
  have hlast := hexit.last z hz.stone hzx
  rw [hjoined hz] at hlast
  have hlt : z.y < (c.step .south).y := by omega
  simp [hlt] at hlast

end HexGame
