import HexGame.Proofs.Grid.Around
import Mathlib.Data.Set.Card
import Mathlib.Order.Bounds.Basic

/-!
# Distances on the grid

The distance of two cells is a closed formula. It is also the length of the shortest walk between them
(`isLeast_distance`), since a step changes it by one at most (`distance_le_step`) and some step brings the cells
nearer (`exists_step_toward`). Cells at distance two are the ends of a bridge or lie on a straight line
(`leap_or_straight_of_distance`), and only the former have two common neighbours.
-/
namespace HexGame

namespace Direction

/-- Of two steps that add up to a bridge, one goes over each carrier. -/
theorem steps_of_leap : ∀ d e f : Direction,
    (e.offset.1 + f.offset.1, e.offset.2 + f.offset.2) = d.leapOffset →
      e = d.before ∧ f = d ∨ e = d ∧ f = d.before := by
  have h : ∀ d ∈ all, ∀ e ∈ all, ∀ f ∈ all,
      (e.offset.1 + f.offset.1, e.offset.2 + f.offset.2) = d.leapOffset →
        e = d.before ∧ f = d ∨ e = d ∧ f = d.before := by decide
  exact fun d e f => h d (mem_all d) e (mem_all e) f (mem_all f)

theorem steps_of_straight : ∀ d e f : Direction,
    (e.offset.1 + f.offset.1, e.offset.2 + f.offset.2) = (d.offset.1 + d.offset.1, d.offset.2 + d.offset.2) →
      e = d := by
  have h : ∀ d ∈ all, ∀ e ∈ all, ∀ f ∈ all,
      (e.offset.1 + f.offset.1, e.offset.2 + f.offset.2) = (d.offset.1 + d.offset.1, d.offset.2 + d.offset.2) →
        e = d := by decide
  exact fun d e f => h d (mem_all d) e (mem_all e) f (mem_all f)

end Direction

namespace Cell

variable {a b c : Cell} {d e : Direction} {n : Nat}

/-- So many steps lead from one cell to the other. -/
inductive Walk : Cell → Cell → Nat → Prop where
  | here (a : Cell) : Walk a a 0
  | step (a : Cell) (d : Direction) {b : Cell} {n : Nat} (h : Walk (a.step d) b n) : Walk a b (n + 1)

/-! ## The distance of a walk -/

@[simp] theorem distance_self (a : Cell) : a.distance a = 0 := by
  simp [distance]

theorem eq_of_distance_eq_zero (h : a.distance b = 0) : a = b := by
  unfold distance at h
  ext <;> omega

theorem distance_le_iff : a.distance b ≤ n ↔ (-n ≤ a.x - b.x ∧ a.x - b.x ≤ n) ∧
    (-n ≤ a.y - b.y ∧ a.y - b.y ≤ n) ∧ -n ≤ a.x + a.y - b.x - b.y ∧ a.x + a.y - b.x - b.y ≤ n := by
  unfold distance
  omega

theorem distance_le_step (a b : Cell) (d : Direction) : a.distance b ≤ (a.step d).distance b + 1 := by
  cases d <;> simp only [distance, step, Direction.offset] <;> omega

/-- A step that brings `a` nearer to `b`. It is told by the signs of the differences. -/
def toward (a b : Cell) : Direction :=
  if a.x < b.x then if b.y < a.y then .northEast else .east
  else if b.x < a.x then if a.y < b.y then .southWest else .west
  else if b.y < a.y then .north else .south

theorem distance_step_toward (h : a.distance b = n + 1) : (a.step (a.toward b)).distance b = n := by
  unfold distance at h
  unfold toward
  split_ifs <;> simp only [distance, step, Direction.offset] <;> omega

theorem exists_step_toward (h : a.distance b = n + 1) : ∃ d, (a.step d).distance b = n :=
  ⟨a.toward b, distance_step_toward h⟩

theorem Walk.distance_le (h : Walk a b n) : a.distance b ≤ n := by
  induction h with
  | here a => simp
  | step a d h ih => exact (distance_le_step a _ d).trans (Nat.succ_le_succ ih)

theorem walk_of_distance (h : a.distance b = n) : Walk a b n := by
  induction n generalizing a with
  | zero =>
    obtain rfl := eq_of_distance_eq_zero h
    exact .here a
  | succ n ih =>
    obtain ⟨d, hd⟩ := exists_step_toward h
    exact .step a d (ih hd)

theorem isLeast_distance (a b : Cell) : IsLeast {n | Walk a b n} (a.distance b) :=
  ⟨walk_of_distance rfl, fun _ h => h.distance_le⟩

/-! ## Neighbours -/

theorem distance_step (a : Cell) (d : Direction) : a.distance (a.step d) = 1 := by
  cases d <;> simp only [distance, step, Direction.offset] <;> omega

theorem isAdjacent_iff_distance : a.isAdjacent b = true ↔ a.distance b = 1 := by
  rw [isAdjacent_iff]
  constructor
  · rintro ⟨d, rfl⟩
    exact distance_step a d
  · intro h
    obtain ⟨d, hd⟩ := exists_step_toward h
    exact ⟨d, eq_of_distance_eq_zero hd⟩

/-! ## Bridges -/

/-- The cells beside both. -/
def commonNeighbours (a b : Cell) : Set Cell := {c | a.isAdjacent c = true ∧ c.isAdjacent b = true}

theorem mem_commonNeighbours : c ∈ commonNeighbours a b ↔ (∃ d, a.step d = c) ∧ ∃ d, c.step d = b :=
  and_congr isAdjacent_iff isAdjacent_iff

theorem step_step (a : Cell) (d e : Direction) :
    (a.step d).step e = ⟨a.x + (d.offset.1 + e.offset.1), a.y + (d.offset.2 + e.offset.2)⟩ := by
  simp only [step, Int.add_assoc]

theorem offsets_of_step_step {d e : Direction} {x y : Int} (h : (a.step d).step e = ⟨a.x + x, a.y + y⟩) :
    (d.offset.1 + e.offset.1, d.offset.2 + e.offset.2) = (x, y) := by
  rw [step_step, Cell.mk.injEq] at h
  rw [Prod.mk.injEq]
  omega

theorem commonNeighbours_leap (a : Cell) (d : Direction) :
    commonNeighbours a (a.leap d) = {(a.carriers d).first, (a.carriers d).second} := by
  ext c
  rw [mem_commonNeighbours]
  constructor
  · rintro ⟨⟨e, rfl⟩, f, hf⟩
    rcases Direction.steps_of_leap d e f (offsets_of_step_step hf) with ⟨rfl, -⟩ | ⟨rfl, -⟩
    · exact .inl rfl
    · exact .inr rfl
  · rintro (rfl | rfl)
    · exact ⟨⟨d.before, rfl⟩, d, step_step_before a d⟩
    · exact ⟨⟨d, rfl⟩, d.before, step_step_before' a d⟩

theorem commonNeighbours_straight (a : Cell) (d : Direction) :
    commonNeighbours a ((a.step d).step d) = {a.step d} := by
  ext c
  rw [mem_commonNeighbours]
  constructor
  · rintro ⟨⟨e, rfl⟩, f, hf⟩
    rw [step_step a d d] at hf
    rw [Direction.steps_of_straight d e f (offsets_of_step_step hf)]
    rfl
  · rintro rfl
    exact ⟨⟨d, rfl⟩, d, rfl⟩

theorem carriers_ne (a : Cell) (d : Direction) : (a.carriers d).first ≠ (a.carriers d).second := by
  intro h
  have hd := step_inj h
  cases d <;> cases hd

theorem distance_leap (a : Cell) (d : Direction) : a.distance (a.leap d) = 2 := by
  cases d <;> simp only [distance, leap, Direction.leapOffset] <;> omega

theorem leap_or_straight_of_distance (h : a.distance b = 2) :
    (∃ d, a.leap d = b) ∨ ∃ d, (a.step d).step d = b := by
  obtain ⟨d, hd⟩ := exists_step_toward h
  obtain ⟨e, he⟩ := exists_step_toward hd
  obtain rfl := eq_of_distance_eq_zero he
  by_cases hleap : e = d ∨ e = d.before ∨ d = e.before
  · rcases hleap with rfl | rfl | rfl
    · exact .inr ⟨e, rfl⟩
    · exact .inl ⟨d, (step_step_before' a d).symm⟩
    · exact .inl ⟨e, (step_step_before a e).symm⟩
  · exfalso
    revert h hleap
    cases d <;> cases e <;> simp [distance, step, Direction.offset, Direction.before] <;> omega

theorem isSome_bridgeCarriers_iff :
    (a.bridgeCarriers b).isSome = true ↔ a.distance b = 2 ∧ (commonNeighbours a b).ncard = 2 := by
  constructor
  · intro h
    obtain ⟨p, hp⟩ := Option.isSome_iff_exists.mp h
    obtain ⟨d, rfl, rfl⟩ := exists_leap_of_bridgeCarriers hp
    exact ⟨distance_leap a d, by rw [commonNeighbours_leap, Set.ncard_pair (carriers_ne a d)]⟩
  · rintro ⟨hdistance, hcommon⟩
    rcases leap_or_straight_of_distance hdistance with ⟨d, rfl⟩ | ⟨d, rfl⟩
    · simp [bridgeCarriers_leap]
    · rw [commonNeighbours_straight, Set.ncard_singleton] at hcommon
      cases hcommon

theorem commonNeighbours_of_bridgeCarriers {p : Carriers} (h : a.bridgeCarriers b = some p) :
    p.first ≠ p.second ∧ commonNeighbours a b = {p.first, p.second} := by
  obtain ⟨d, rfl, rfl⟩ := exists_leap_of_bridgeCarriers h
  exact ⟨carriers_ne a d, commonNeighbours_leap a d⟩

end Cell
end HexGame
