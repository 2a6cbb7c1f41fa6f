import HexGame.Grid.Cell

/-!
# Sets of cells of a square grid

One mark for each cell, row by row. Cells off the grid are never members (`contains_insert`).
-/
namespace HexGame

structure CellSet where
  size : Nat
  marks : Array Bool
  size_marks : marks.size = size * size

namespace CellSet

def empty (size : Nat) : CellSet := ⟨size, Array.replicate (size * size) false, by simp⟩

def slot (s : CellSet) (c : Cell) : Nat := c.y.toNat * s.size + c.x.toNat

def OnGrid (s : CellSet) (c : Cell) : Prop := 0 ≤ c.x ∧ c.x < s.size ∧ 0 ≤ c.y ∧ c.y < s.size

instance (s : CellSet) (c : Cell) : Decidable (s.OnGrid c) :=
  inferInstanceAs (Decidable (_ ∧ _ ∧ _ ∧ _))

def contains (s : CellSet) (c : Cell) : Bool :=
  if s.OnGrid c then s.marks[s.slot c]?.getD false else false

def insert (s : CellSet) (c : Cell) : CellSet :=
  if s.OnGrid c then
    { s with marks := s.marks.setIfInBounds (s.slot c) true, size_marks := by simp [s.size_marks] }
  else s

/-- The number of marks. -/
def card (s : CellSet) : Nat := s.marks.count true

theorem slot_lt {s : CellSet} {c : Cell} (h : s.OnGrid c) : s.slot c < s.size * s.size := by
  unfold OnGrid at h
  have hy : c.y.toNat + 1 ≤ s.size := by omega
  have := Nat.mul_le_mul_right s.size hy
  rw [Nat.add_mul] at this
  unfold slot
  omega

private theorem slot_inj {s : CellSet} {c d : Cell} (hc : s.OnGrid c) (hd : s.OnGrid d)
    (h : s.slot c = s.slot d) : c = d := by
  unfold OnGrid at hc hd
  unfold slot at h
  have hx : c.x.toNat = d.x.toNat := by
    have h' := congrArg (· % s.size) h
    simp only [Nat.mul_add_mod_self_right] at h'
    rwa [Nat.mod_eq_of_lt (by omega), Nat.mod_eq_of_lt (by omega)] at h'
  have hy : c.y.toNat = d.y.toNat := by
    rw [hx] at h
    exact Nat.eq_of_mul_eq_mul_right (by omega) (Nat.add_right_cancel h)
  ext <;> omega

@[simp] theorem contains_empty (size : Nat) (c : Cell) : (empty size).contains c = false := by
  unfold contains
  split
  · rename_i h
    have := slot_lt h
    simp [empty] at this ⊢
    simp [this]
  · rfl

@[simp] theorem size_insert (s : CellSet) (c : Cell) : (s.insert c).size = s.size := by
  unfold insert
  split <;> rfl

/-- Inserting adds the cell, provided that it lies on the grid, and nothing else. -/
theorem contains_insert (s : CellSet) (c d : Cell) :
    (s.insert c).contains d = (decide (s.OnGrid c ∧ d = c) || s.contains d) := by
  by_cases hc : s.OnGrid c
  · by_cases hd : s.OnGrid d
    · have hd' : ({ s with
          marks := s.marks.setIfInBounds (s.slot c) true
          size_marks := by simp [s.size_marks] } : CellSet).OnGrid d := hd
      simp only [insert, hc, if_true, contains, hd', hd, true_and]
      have hs : s.slot c < s.marks.size := by rw [s.size_marks]; exact slot_lt hc
      by_cases e : d = c
      · subst e
        simpa [slot] using hs
      · have hne : s.slot c ≠ s.slot d := fun h => e (slot_inj hc hd h).symm
        simp only [e, decide_false, Bool.false_or]
        rw [show ({ s with
            marks := s.marks.setIfInBounds (s.slot c) true
            size_marks := by simp [s.size_marks] } : CellSet).slot d = s.slot d from rfl,
          Array.getElem?_setIfInBounds_ne hne]
    · have e : d ≠ c := by
        rintro rfl
        exact hd hc
      have hd' : ¬ (s.insert c).OnGrid d := by
        simpa [OnGrid] using hd
      simp [contains, hd, hd', e]
  · simp [insert, hc]

end CellSet
end HexGame
