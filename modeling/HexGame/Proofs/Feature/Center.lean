import HexGame.Feature.Vector
import HexGame.Proofs.Grid.Distance
import HexGame.Proofs.Grid.Narrow

/-!
# The centre of a board

The centre cells are those in the middle of the rows and of the columns: one on a board of odd size, four on one
of even size. Taking the nearer middle in each direction gives a centre cell that no other one is nearer than,
although the directions are not independent on the grid (`distance_closestCenter_le`).
-/
namespace HexGame

open Cell

variable {size : Nat} {c m : Cell}

/-- At most half a cell away from the middle of a row. -/
def IsMiddle (size : Nat) (z : Int) : Prop := (2 * z - (size - 1)).natAbs ≤ 1

def IsCenter (size : Nat) (c : Cell) : Prop := IsMiddle size c.x ∧ IsMiddle size c.y

theorem ncard_middle (size : Nat) : {z | IsMiddle size z}.ncard = if size % 2 = 1 then 1 else 2 := by
  split
  · rename_i hodd
    have hset : {z | IsMiddle size z} = {((size / 2 : Nat) : Int)} := by
      ext z
      simp only [IsMiddle, Set.mem_ofPred_eq, Set.mem_singleton_iff]
      omega
    rw [hset, Set.ncard_singleton]
  · rename_i heven
    have hset : {z | IsMiddle size z} = {((size / 2 : Nat) : Int) - 1, ((size / 2 : Nat) : Int)} := by
      ext z
      simp only [IsMiddle, Set.mem_ofPred_eq, Set.mem_insert_iff, Set.mem_singleton_iff]
      omega
    rw [hset, Set.ncard_pair (by omega)]

theorem ncard_center (size : Nat) : {c | IsCenter size c}.ncard = if size % 2 = 1 then 1 else 4 := by
  have hset : {c | IsCenter size c} =
      (fun p : Int × Int => (⟨p.1, p.2⟩ : Cell)) '' ({z | IsMiddle size z} ×ˢ {z | IsMiddle size z}) := by
    ext c
    constructor
    · exact fun h => ⟨(c.x, c.y), h, rfl⟩
    · rintro ⟨p, h, rfl⟩
      exact h
  have hinjective : Function.Injective fun p : Int × Int => (⟨p.1, p.2⟩ : Cell) :=
    fun p q h => Prod.ext (congrArg Cell.x h) (congrArg Cell.y h)
  rw [hset, Set.ncard_image_of_injective _ hinjective, Set.ncard_prod, ncard_middle]
  split <;> rfl

theorem isCenter_closestCenter (size : Nat) (c : Cell) : IsCenter size (closestCenter size c) := by
  unfold closestCenter
  split
  · simp only [IsCenter, IsMiddle]
    omega
  · simp only [IsCenter, IsMiddle]
    split_ifs <;> omega

/-- The hexagon of cells that are as near as another centre cell holds the one that is chosen. -/
theorem distance_closestCenter_le (h : IsCenter size m) : c.distance (closestCenter size c) ≤ c.distance m := by
  have hm := distance_le_iff.mp (Nat.le_refl (c.distance m))
  rw [distance_le_iff]
  unfold IsCenter IsMiddle at h
  unfold closestCenter
  split
  · dsimp only
    omega
  · dsimp only
    split_ifs <;> omega

/-- The formula for distances, the table of neighbours and the table of bridges tell of one graph, also in the
arithmetic of words, and the centre cell of a cell is one that is nearest in this graph. -/
theorem geometry_follows_walks :
    (∀ a b : Cell, IsLeast {n | Walk a b n} (a.distance b) ∧
      (a.isAdjacent b = true ↔ a.distance b = 1) ∧
      ((a.bridgeCarriers b).isSome = true ↔ a.distance b = 2 ∧ (commonNeighbours a b).ncard = 2) ∧
      ∀ p, a.bridgeCarriers b = some p → p.first ≠ p.second ∧ commonNeighbours a b = {p.first, p.second}) ∧
    (∀ a b : Cell, (∀ n, Narrow.distance a b = .ok n → n = a.distance b) ∧
      (∀ r, Narrow.isAdjacent a b = .ok r → r = a.isAdjacent b) ∧
      ∀ r, Narrow.bridgeCarriers a b = .ok r → r = a.bridgeCarriers b) ∧
    (∀ a b : Cell, Narrow.Near a → Narrow.Near b → Narrow.distance a b = .ok (a.distance b) ∧
      Narrow.isAdjacent a b = .ok (a.isAdjacent b) ∧ Narrow.bridgeCarriers a b = .ok (a.bridgeCarriers b)) ∧
    ∀ size : Nat, {c | IsCenter size c}.ncard = (if size % 2 = 1 then 1 else 4) ∧
      ∀ c, IsCenter size (closestCenter size c) ∧
        ∀ m, IsCenter size m → c.distance (closestCenter size c) ≤ c.distance m := by
  refine ⟨fun a b => ?_, fun a b => ?_, fun a b ha hb => ?_, fun size => ⟨ncard_center size, fun c => ?_⟩⟩
  · exact ⟨isLeast_distance a b, isAdjacent_iff_distance, isSome_bridgeCarriers_iff,
      fun p => commonNeighbours_of_bridgeCarriers⟩
  · exact ⟨fun n => Narrow.distance_eq_ok, fun r => Narrow.isAdjacent_eq_ok, fun r => Narrow.bridgeCarriers_eq_ok⟩
  · exact ⟨Narrow.distance_of_near ha hb, Narrow.isAdjacent_of_near ha b, Narrow.bridgeCarriers_of_near ha hb⟩
  · exact ⟨isCenter_closestCenter size c, fun m => distance_closestCenter_le⟩

/-- A bridge on a board with four centre cells. -/
theorem geometry_follows_walks_bridge :
    Narrow.Near ⟨4, 1⟩ ∧ Narrow.Near ⟨3, 3⟩ ∧ Narrow.distance ⟨4, 1⟩ ⟨3, 3⟩ = .ok 2 ∧
      IsLeast {n | Walk ⟨4, 1⟩ ⟨3, 3⟩ n} 2 ∧
      Narrow.bridgeCarriers ⟨4, 1⟩ ⟨3, 3⟩ = .ok (some ⟨⟨4, 2⟩, ⟨3, 2⟩⟩) ∧
      commonNeighbours ⟨4, 1⟩ ⟨3, 3⟩ = {⟨4, 2⟩, ⟨3, 2⟩} ∧
      IsCenter 6 ⟨3, 3⟩ ∧ distance ⟨4, 1⟩ (closestCenter 6 ⟨4, 1⟩) ≤ 2 := by
  obtain ⟨hgrid, hright, hnear, hcenter⟩ := geometry_follows_walks
  have hfirst : Narrow.Near ⟨4, 1⟩ := by unfold Narrow.Near; decide
  have hsecond : Narrow.Near ⟨3, 3⟩ := by unfold Narrow.Near; decide
  have hmiddle : IsCenter 6 ⟨3, 3⟩ := by unfold IsCenter IsMiddle; decide
  obtain ⟨hleast, -, -, hcommon⟩ := hgrid ⟨4, 1⟩ ⟨3, 3⟩
  obtain ⟨hdistance, -, hbridge⟩ := hnear ⟨4, 1⟩ ⟨3, 3⟩ hfirst hsecond
  exact ⟨hfirst, hsecond, hdistance, hleast, hbridge, (hcommon ⟨⟨4, 2⟩, ⟨3, 2⟩⟩ rfl).2, hmiddle,
    ((hcenter 6).2 ⟨4, 1⟩).2 ⟨3, 3⟩ hmiddle⟩

end HexGame
