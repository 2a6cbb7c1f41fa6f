import HexGame.Proofs.Board.Line
import HexGame.Proofs.Grid.Bridges

/-!
# Geometry in words

Where the arithmetic of 32-bit words gives a result it is the one of the unbounded grid, and for cells that are
not too far from the origin it always does.
-/
namespace HexGame
namespace Narrow

variable {a b c : Cell} {d : Direction} {bound : Overrun} {n m : Int} {ds : List Direction}

/-- Sums of eight such coordinates fit into a word. -/
def Near (c : Cell) : Prop := -268435456 < c.x ∧ c.x < 268435456 ∧ -268435456 < c.y ∧ c.y < 268435456

theorem fit_eq_ok : fit bound n = .ok m ↔ n = m ∧ -2147483648 ≤ n ∧ n < 2147483648 := by
  unfold fit
  split
  · rename_i h
    simp only [Except.ok.injEq, h, and_self, and_true]
  · rename_i h
    exact iff_of_false nofun fun h' => h h'.2

theorem fit_of_lt (h : -2147483648 ≤ n ∧ n < 2147483648) : fit bound n = .ok n := if_pos h

/-! ## Results are right -/

theorem step_eq_ok (h : step c d = .ok a) : a = c.step d := by
  obtain ⟨x, hx, h⟩ := bind_eq_ok.mp h
  obtain ⟨y, hy, h⟩ := bind_eq_ok.mp h
  obtain ⟨rfl, -⟩ := fit_eq_ok.mp hx
  obtain ⟨rfl, -⟩ := fit_eq_ok.mp hy
  exact (Except.ok.inj h).symm

theorem carriers_eq_ok {p : Carriers} (h : carriers c d = .ok p) : p = c.carriers d := by
  obtain ⟨q, hq, h⟩ := bind_eq_ok.mp h
  obtain ⟨q', hq', h⟩ := bind_eq_ok.mp h
  obtain rfl := step_eq_ok hq
  obtain rfl := step_eq_ok hq'
  exact (Except.ok.inj h).symm

theorem isAdjacentBy_eq_ok {r : Bool} (h : isAdjacentBy a b ds = .ok r) : r = ds.any (a.step · = b) := by
  induction ds with
  | nil => exact (Except.ok.inj h).symm
  | cons d ds ih =>
    obtain ⟨c, hc, h⟩ := bind_eq_ok.mp h
    obtain rfl := step_eq_ok hc
    rw [List.any_cons]
    split at h
    · rename_i heq
      simpa [heq] using (Except.ok.inj h).symm
    · rename_i hne
      simpa [hne] using ih h

theorem isAdjacent_eq_ok {r : Bool} (h : isAdjacent a b = .ok r) : r = a.isAdjacent b :=
  isAdjacentBy_eq_ok h

theorem leap_eq_iff : a.leap d = b ↔ d.leapOffset = (b.x - a.x, b.y - a.y) := by
  rw [Cell.ext_iff, Prod.ext_iff]
  simp only [Cell.leap]
  omega

theorem bridgeCarriers_eq_ok {r : Option Carriers} (h : bridgeCarriers a b = .ok r) : r = a.bridgeCarriers b := by
  obtain ⟨x, hx, h⟩ := bind_eq_ok.mp h
  obtain ⟨y, hy, h⟩ := bind_eq_ok.mp h
  obtain ⟨rfl, -⟩ := fit_eq_ok.mp hx
  obtain ⟨rfl, -⟩ := fit_eq_ok.mp hy
  simp only [Cell.bridgeCarriers, leap_eq_iff]
  dsimp only at h
  split at h
  · rename_i hfind
    rw [hfind]
    exact (Except.ok.inj h).symm
  · rename_i d hfind
    rw [hfind]
    obtain ⟨p, hp, h⟩ := bind_eq_ok.mp h
    obtain rfl := carriers_eq_ok hp
    exact (Except.ok.inj h).symm

theorem magnitude_eq_ok : magnitude n = .ok m ↔ (n.natAbs : Int) = m ∧ n.natAbs < 2147483648 := by
  rw [magnitude, fit_eq_ok]
  omega

/-- There is a result when every word on the way has room. -/
theorem distance_eq_ok_iff {r : Nat} : distance a b = .ok r ↔ ∃ dx, fit .subtraction (a.x - b.x) = .ok dx ∧
    ∃ nx, magnitude dx = .ok nx ∧ ∃ sum, fit .addition (a.x + a.y) = .ok sum ∧
    ∃ rest, fit .subtraction (sum - b.x) = .ok rest ∧ ∃ dz, fit .subtraction (rest - b.y) = .ok dz ∧
    ∃ nz, magnitude dz = .ok nz ∧ ∃ part, fit .addition (nx + nz) = .ok part ∧
    ∃ dy, fit .subtraction (a.y - b.y) = .ok dy ∧ ∃ ny, magnitude dy = .ok ny ∧
    ∃ total, fit .addition (part + ny) = .ok total ∧ total.toNat / 2 = r := by
  simp only [distance, bind_eq_ok, pure, Except.pure, Except.ok.injEq]

theorem distance_eq_ok {r : Nat} (h : distance a b = .ok r) : r = a.distance b := by
  simp only [distance_eq_ok_iff, fit_eq_ok, magnitude_eq_ok] at h
  obtain ⟨dx, ⟨rfl, -⟩, nx, ⟨rfl, -⟩, sum, ⟨rfl, -⟩, rest, ⟨rfl, -⟩, dz, ⟨rfl, -⟩, nz, ⟨rfl, -⟩, part, ⟨rfl, -⟩,
    dy, ⟨rfl, -⟩, ny, ⟨rfl, -⟩, total, ⟨rfl, -⟩, rfl⟩ := h
  unfold Cell.distance
  omega

/-! ## Near the origin there is a result -/

theorem step_of_near (h : Near c) (d : Direction) : step c d = .ok (c.step d) := by
  unfold Near at h
  have hx : -1 ≤ d.offset.1 ∧ d.offset.1 ≤ 1 := by cases d <;> decide
  have hy : -1 ≤ d.offset.2 ∧ d.offset.2 ≤ 1 := by cases d <;> decide
  rw [step, fit_of_lt (by omega), fit_of_lt (by omega)]
  rfl

theorem carriers_of_near (h : Near c) (d : Direction) : carriers c d = .ok (c.carriers d) := by
  rw [carriers, step_of_near h, step_of_near h]
  rfl

theorem exists_isAdjacentBy (h : Near a) (b : Cell) (ds : List Direction) : ∃ r, isAdjacentBy a b ds = .ok r := by
  induction ds with
  | nil => exact ⟨false, rfl⟩
  | cons d ds ih =>
    rw [isAdjacentBy, step_of_near h]
    by_cases heq : a.step d = b
    · exact ⟨true, if_pos heq⟩
    · obtain ⟨r, hr⟩ := ih
      exact ⟨r, (if_neg heq).trans hr⟩

theorem isAdjacent_of_near (h : Near a) (b : Cell) : isAdjacent a b = .ok (a.isAdjacent b) := by
  obtain ⟨r, hr⟩ := exists_isAdjacentBy h b Direction.all
  rw [← isAdjacent_eq_ok hr]
  exact hr

theorem bridgeCarriers_of_near (ha : Near a) (hb : Near b) :
    bridgeCarriers a b = .ok (a.bridgeCarriers b) := by
  have hcarriers := carriers_of_near ha
  unfold Near at ha hb
  obtain ⟨r, hr⟩ : ∃ r, bridgeCarriers a b = .ok r := by
    rw [bridgeCarriers, fit_of_lt (by omega), fit_of_lt (by omega)]
    cases hfind : Direction.all.find? (·.leapOffset = (b.x - a.x, b.y - a.y)) with
    | none => exact ⟨none, by simp [hfind, bind, Except.bind, pure, Except.pure]⟩
    | some d => exact ⟨some (a.carriers d), by simp [hfind, hcarriers, bind, Except.bind, pure, Except.pure]⟩
  rw [← bridgeCarriers_eq_ok hr]
  exact hr

theorem distance_of_near (ha : Near a) (hb : Near b) : distance a b = .ok (a.distance b) := by
  unfold Near at ha hb
  obtain ⟨r, hr⟩ : ∃ r, distance a b = .ok r := by
    simp only [distance_eq_ok_iff, fit_eq_ok, magnitude_eq_ok]
    refine ⟨_, _, ⟨rfl, ?_⟩, _, ⟨rfl, ?_⟩, _, ⟨rfl, ?_⟩, _, ⟨rfl, ?_⟩, _, ⟨rfl, ?_⟩, _, ⟨rfl, ?_⟩, _, ⟨rfl, ?_⟩,
      _, ⟨rfl, ?_⟩, _, ⟨rfl, ?_⟩, _, ⟨rfl, ?_⟩, rfl⟩ <;> omega
  rw [← distance_eq_ok hr]
  exact hr

end Narrow
end HexGame
