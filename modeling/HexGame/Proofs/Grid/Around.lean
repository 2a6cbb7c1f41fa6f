import HexGame.Proofs.Chain.Joined

/-!
# Places around a cell

The six neighbours of a cell are counted from one of them, on either side. Bridges over the cell lead
between places that are two sixths of a turn apart; overlapping bridges of one stone lead to every second
place (`ends_around`), and there a third bridge closes the ring (`exists_leap_around`).
-/
namespace HexGame

namespace Direction

/-- So many sixths of a turn further, on one side. -/
def turns (d : Direction) (clockwise : Bool) : Nat → Direction
  | 0 => d
  | k + 1 => (d.turns clockwise k).turn clockwise

theorem turns_six (d : Direction) (s : Bool) (k : Nat) : d.turns s (k + 6) = d.turns s k := by
  induction k with
  | zero => cases s <;> cases d <;> rfl
  | succ k ih => exact congrArg (·.turn s) ih

theorem turns_turns (d : Direction) (s : Bool) (k n : Nat) : (d.turns s k).turns s n = d.turns s (k + n) := by
  induction n with
  | zero => rfl
  | succ n ih => exact congrArg (·.turn s) ih

theorem turn_turn_not (d : Direction) (s : Bool) : ((d.turns s 2).turn !s).turn (!s) = d := by
  cases s <;> cases d <;> rfl

end Direction

namespace Cell

variable {a q : Cell} {d e f : Direction} {s : Bool}

/-- Two bridges of one stone that share a carrier are the same bridge, or their three ends stand at every
second place around it. -/
theorem ends_around (hd : q ∈ (a.carriers d).cells) (he : q ∈ ((a.leap d).carriers e).cells) :
    (a.leap d).leap e = a ∨ ∃ f s, (a.leap d).leap e = q.step f ∧ a = q.step (f.turns s 2) ∧
      a.leap d = q.step (f.turns s 4) ∧ q.step (f.turns s 3) ∈ (a.carriers d).cells ∧
      q.step (f.turns s 5) ∈ ((a.leap d).carriers e).cells := by
  obtain ⟨g, s, ha, hbetween, hc⟩ := around_carrier hd
  obtain ⟨g', t, hc', hbetween', hl⟩ := around_carrier he
  have hg : g' = g.turns s 2 := step_inj (hc'.symm.trans hc)
  subst hg
  by_cases ht : t = s
  · subst ht
    right
    refine ⟨g.turns t 4, t, hl, ?_, ?_, ?_, ?_⟩ <;> rw [Direction.turns_turns]
    · exact ha.trans (congrArg q.step (g.turns_six t 0).symm)
    · exact hc.trans (congrArg q.step (g.turns_six t 2).symm)
    · rw [g.turns_six t 1]
      exact hbetween
    · rw [g.turns_six t 3]
      exact hbetween'
  · obtain rfl : t = !s := Bool.eq_not_of_ne ht
    left
    rw [hl, Direction.turn_turn_not, ← ha]

theorem exists_leap_of_bridgeCarriers {c : Cell} {p : Carriers} (h : a.bridgeCarriers c = some p) :
    ∃ d, a.leap d = c ∧ p = a.carriers d := by
  obtain ⟨d, hd, rfl⟩ := Option.map_eq_some_iff.mp h
  exact ⟨d, by simpa using List.find?_some hd, rfl⟩

theorem leap_around (q : Cell) (f : Direction) : (q.step (f.turns true 2)).leap f = q.step f ∧
    (q.step (f.turns true 2)).carriers f = ⟨q, q.step (f.turns true 1)⟩ := by
  constructor <;> cases f <;>
    simp only [carriers, leap, step, Carriers.mk.injEq, Cell.ext_iff, Direction.turns, Direction.turn_true,
      Direction.before, Direction.opposite, Direction.leapOffset, Direction.offset] <;>
    omega

/-- Over a cell leads a bridge between any two places around it that are two sixths of a turn apart. -/
theorem exists_leap_around (q : Cell) (f : Direction) (s : Bool) :
    ∃ d, (q.step (f.turns s 2)).leap d = q.step f ∧
      ∀ c ∈ ((q.step (f.turns s 2)).carriers d).cells, c = q ∨ c = q.step (f.turns s 1) := by
  cases s with
  | true =>
    obtain ⟨hl, hc⟩ := leap_around q f
    refine ⟨f, hl, fun c h => ?_⟩
    rw [hc] at h
    exact Carriers.mem_cells.mp h
  | false =>
    obtain ⟨hl, hc⟩ := leap_around q (f.turns false 2)
    have hback : (f.turns false 2).turns true 2 = f := by cases f <;> rfl
    have hbetween : (f.turns false 2).turns true 1 = f.turns false 1 := by cases f <;> rfl
    rw [hback] at hl hc
    rw [hbetween, carriers, Carriers.mk.injEq] at hc
    refine ⟨(f.turns false 2).opposite, by rw [← hl, leap_opposite], fun c h => ?_⟩
    rw [← hl, carriers_leap_opposite, hc.1, hc.2] at h
    exact (Carriers.mem_cells.mp h).symm

/-- Of three cells at every second place around a cell, where they lie decides where this cell lies. -/
theorem depth_around (color : Color) (q : Cell) (f : Direction) (s : Bool) :
    color.depth (q.step f) + color.depth (q.step (f.turns s 2)) + color.depth (q.step (f.turns s 4)) =
      3 * color.depth q := by
  cases color <;> cases s <;> cases f <;>
    simp only [Color.depth, step, Direction.turns, Direction.turn_true, Direction.turn_false,
      Direction.before, Direction.opposite, Direction.offset] <;>
    omega

end Cell

theorem Board.contains_between {b : Board} {q : Cell} {f : Direction} {s : Bool} (hq : b.Contains q)
    (h : b.Contains (q.step f)) (h' : b.Contains (q.step (f.turns s 2))) :
    b.Contains (q.step (f.turns s 1)) := by
  unfold Board.Contains at *
  cases s <;> cases f <;>
    simp only [Cell.step, Direction.turns, Direction.turn_true, Direction.turn_false, Direction.before,
      Direction.opposite, Direction.offset] at * <;>
    omega

end HexGame
