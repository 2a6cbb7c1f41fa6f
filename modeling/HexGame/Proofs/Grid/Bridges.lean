import HexGame.Grid.Cell

/-!
# Neighbours and bridges

A bridge is read the same from both of its ends (`carriers_leap_opposite`). Two bridges that share a
carrier lie around it, so that an end of one is an end of the other, a carrier of the other or beside
the other's end (`shared_carrier`).
-/
namespace HexGame

namespace Direction

/-- The direction one sixth of a turn further, on either side. -/
def turn (d : Direction) (clockwise : Bool) : Direction :=
  if clockwise then d.opposite.before.before else d.before

theorem turn_true (d : Direction) : d.turn true = d.opposite.before.before := rfl

theorem turn_false (d : Direction) : d.turn false = d.before := rfl

/-- Two pairs of places around a cell that are two sixths of a turn apart meet, hold the place between
the other pair, or have places beside each other. -/
theorem turn_cases (d e : Direction) (s t : Bool) :
    (e = d ∨ e = (d.turn s).turn s ∨ (e.turn t).turn t = d ∨ (e.turn t).turn t = (d.turn s).turn s) ∨
      (e = d.turn s ∨ (e.turn t).turn t = d.turn s) ∨
      (∃ r, d.turn r = e) ∨ ∃ r, d.turn r = (e.turn t).turn t := by
  revert s t
  cases d <;> cases e <;> decide

end Direction

namespace Cell

variable {a b c : Cell} {d e : Direction}

theorem isAdjacent_iff : a.isAdjacent b = true ↔ ∃ d, a.step d = b := by
  simp [isAdjacent]

theorem isAdjacent_step (a : Cell) (d : Direction) : a.isAdjacent (a.step d) = true :=
  isAdjacent_iff.mpr ⟨d, rfl⟩

theorem isAdjacent_comm (a b : Cell) : a.isAdjacent b = b.isAdjacent a := by
  rw [Bool.eq_iff_iff, isAdjacent_iff, isAdjacent_iff]
  constructor <;> rintro ⟨d, rfl⟩ <;> exact ⟨d.opposite, step_opposite _ d⟩

theorem step_inj (h : c.step d = c.step e) : d = e := by
  rw [Cell.ext_iff] at h
  cases d <;> cases e <;> simp only [step, Direction.offset] at h <;> first | rfl | omega

theorem leap_inj (h : c.leap d = c.leap e) : d = e := by
  rw [Cell.ext_iff] at h
  cases d <;> cases e <;>
    simp only [leap, Direction.leapOffset] at h <;>
    first | rfl | omega

@[simp] theorem leap_opposite (c : Cell) (d : Direction) : (c.leap d).leap d.opposite = c := by
  ext <;> cases d <;>
    simp only [leap, Direction.leapOffset, Direction.opposite] <;>
    omega

theorem not_isAdjacent_leap (c : Cell) (d : Direction) : c.isAdjacent (c.leap d) = false := by
  rw [Bool.eq_false_iff, Ne, isAdjacent_iff]
  rintro ⟨e, h⟩
  rw [Cell.ext_iff] at h
  cases d <;> cases e <;>
    simp only [step, leap, Direction.leapOffset, Direction.offset] at h <;> omega

theorem bridgeCarriers_leap (c : Cell) (d : Direction) :
    c.bridgeCarriers (c.leap d) = some (c.carriers d) := by
  have h : ∀ e, (c.leap e = c.leap d) ↔ e = d := fun e => ⟨leap_inj, fun h => h ▸ rfl⟩
  simp only [bridgeCarriers, h, Option.map_eq_some_iff]
  exact ⟨d, by cases d <;> rfl, rfl⟩

theorem carriers_leap_opposite (c : Cell) (d : Direction) :
    (c.leap d).carriers d.opposite = ⟨c.step d, c.step d.before⟩ := by
  simp only [carriers, Carriers.mk.injEq, Cell.ext_iff]
  cases d <;>
    simp only [step, leap, Direction.leapOffset, Direction.before, Direction.offset,
      Direction.opposite] <;> omega

theorem step_step_before' (c : Cell) (d : Direction) : (c.step d).step d.before = c.leap d := by
  simp only [step, leap, Direction.leapOffset_eq, Cell.mk.injEq]
  omega

end Cell

namespace Carriers

variable {p q : Carriers}

theorem mem_cells {c : Cell} : c ∈ p.cells ↔ c = p.first ∨ c = p.second := by simp [cells]

theorem not_overlaps_iff : p.overlaps q = false ↔ ∀ c ∈ p.cells, c ∉ q.cells := by
  simp [overlaps]

end Carriers

namespace Cell

theorem isAdjacent_step_turn (q : Cell) (d : Direction) (s : Bool) :
    (q.step d).isAdjacent (q.step (d.turn s)) = true := by
  apply isAdjacent_iff.mpr
  cases s with
  | false =>
    refine ⟨d.before.before, ?_⟩
    cases d <;>
      simp only [step, Direction.turn_false, Direction.before, Direction.offset, Cell.mk.injEq] <;>
      omega
  | true =>
    refine ⟨d.opposite.before, ?_⟩
    cases d <;>
      simp only [step, Direction.turn_true, Direction.before, Direction.opposite, Direction.offset,
        Cell.mk.injEq] <;>
      omega

theorem isAdjacent_carriers {c q : Cell} {d : Direction} (h : q ∈ (c.carriers d).cells) :
    c.isAdjacent q = true ∧ q.isAdjacent (c.leap d) = true := by
  rw [isAdjacent_iff, isAdjacent_iff]
  rcases Carriers.mem_cells.mp h with rfl | rfl
  · exact ⟨⟨d.before, rfl⟩, d, step_step_before c d⟩
  · exact ⟨⟨d, rfl⟩, d.before, step_step_before' c d⟩

/-- The ends of a bridge over `q` stand around it, with the other carrier between them. -/
theorem around_carrier {a q : Cell} {d : Direction} (h : q ∈ (a.carriers d).cells) :
    ∃ e s, a = q.step e ∧ q.step (e.turn s) ∈ (a.carriers d).cells ∧
      a.leap d = q.step ((e.turn s).turn s) := by
  rcases Carriers.mem_cells.mp h with rfl | rfl
  · refine ⟨d.before.opposite, false, (step_opposite a _).symm, ?_, ?_⟩
    · apply Carriers.mem_cells.mpr
      right
      cases d <;>
        simp only [carriers, step, Direction.turn_false, Direction.before, Direction.opposite,
          Direction.offset, Cell.mk.injEq] <;>
        omega
    · cases d <;>
        simp only [carriers, leap, step, Direction.turn_false, Direction.before, Direction.opposite,
          Direction.offset, Direction.leapOffset, Cell.mk.injEq] <;>
        omega
  · refine ⟨d.opposite, true, (step_opposite a _).symm, ?_, ?_⟩
    · apply Carriers.mem_cells.mpr
      left
      cases d <;>
        simp only [carriers, step, Direction.turn_true, Direction.before, Direction.opposite,
          Direction.offset, Cell.mk.injEq] <;>
        omega
    · cases d <;>
        simp only [carriers, leap, step, Direction.turn_true, Direction.before, Direction.opposite,
          Direction.offset, Direction.leapOffset, Cell.mk.injEq] <;>
        omega

/-- Two bridges that share a carrier have a common end, or an end of one is a carrier of the other or
stands beside an end of the other. -/
theorem shared_carrier {a c q : Cell} {d e : Direction} (ha : q ∈ (a.carriers d).cells)
    (hc : q ∈ (c.carriers e).cells) :
    (c = a ∨ c = a.leap d ∨ c.leap e = a ∨ c.leap e = a.leap d) ∨
      (c ∈ (a.carriers d).cells ∨ c.leap e ∈ (a.carriers d).cells) ∨
      a.isAdjacent c = true ∨ a.isAdjacent (c.leap e) = true := by
  obtain ⟨f, s, hf, hm, hl⟩ := around_carrier ha
  obtain ⟨g, t, hg, -, hl'⟩ := around_carrier hc
  rw [hl, hl']
  rcases f.turn_cases g s t with (h | h | h | h) | (h | h) | ⟨r, h⟩ | ⟨r, h⟩
  · simp [hf, hg, h]
  · simp [hg, h]
  · simp [hf, h]
  · simp [h]
  · right; left; left
    rwa [hg, h]
  · right; left; right
    rwa [h]
  · right; right; left
    rw [hf, hg, ← h]
    exact isAdjacent_step_turn q f r
  · right; right; right
    rw [hf, ← h]
    exact isAdjacent_step_turn q f r

end Cell
end HexGame
