import HexGame.Negamax.Value

/-!
# Ranks of values

The search is studied for values some of which are numbers, and numbers are compared by an integer rank
that negation reverses. Two numbers of one rank need not be the same value: zero has two signs.
-/
namespace HexGame

/-- The values that are numbers, with the rank by which they are compared. -/
structure Ranking (V : Type) [GameValue V] where
  IsNumber : V → Prop
  rank : V → Int
  lt_iff {a b : V} : IsNumber a → IsNumber b → (GameValue.lt a b = true ↔ rank a < rank b)
  le_iff {a b : V} : IsNumber a → IsNumber b → (GameValue.le a b = true ↔ rank a ≤ rank b)
  neg {a : V} : IsNumber a → IsNumber (-a)
  rank_neg {a : V} : IsNumber a → rank (-a) = -rank a
  won : IsNumber GameValue.won
  even : IsNumber GameValue.even
  rank_le_won {a : V} : IsNumber a → rank a ≤ rank GameValue.won
  won_pos : 0 < rank GameValue.won

namespace Ranking

variable {V : Type} [GameValue V] (R : Ranking V) {a b : V}

theorem lost : R.IsNumber GameValue.lost := R.neg R.won

theorem rank_lost : R.rank GameValue.lost = -R.rank GameValue.won := R.rank_neg R.won

theorem rank_lost_le (ha : R.IsNumber a) : R.rank GameValue.lost ≤ R.rank a := by
  have h := R.rank_le_won (R.neg ha)
  rw [R.rank_neg ha] at h
  rw [rank_lost]
  omega

theorem rank_lost_lt_won : R.rank GameValue.lost < R.rank GameValue.won := by
  have := R.won_pos
  rw [rank_lost]
  omega

theorem max (ha : R.IsNumber a) (hb : R.IsNumber b) :
    R.IsNumber (GameValue.max a b) ∧
      R.rank (GameValue.max a b) = Max.max (R.rank a) (R.rank b) := by
  have h := R.lt_iff ha hb
  unfold GameValue.max
  split
  · rename_i hlt
    have := h.mp hlt
    exact ⟨hb, by omega⟩
  · rename_i hlt
    have := mt h.mpr hlt
    exact ⟨ha, by omega⟩

theorem min (ha : R.IsNumber a) (hb : R.IsNumber b) :
    R.IsNumber (GameValue.min a b) ∧
      R.rank (GameValue.min a b) = Min.min (R.rank a) (R.rank b) := by
  have h := R.lt_iff hb ha
  unfold GameValue.min
  split
  · rename_i hlt
    have := h.mp hlt
    exact ⟨hb, by omega⟩
  · rename_i hlt
    have := mt h.mpr hlt
    exact ⟨ha, by omega⟩

theorem foldl_max {vs : List V} (ha : R.IsNumber a) (hvs : ∀ v ∈ vs, R.IsNumber v) :
    R.IsNumber (vs.foldl GameValue.max a) ∧ R.rank a ≤ R.rank (vs.foldl GameValue.max a) ∧
      (∀ v ∈ vs, R.rank v ≤ R.rank (vs.foldl GameValue.max a)) ∧
      (R.rank (vs.foldl GameValue.max a) = R.rank a ∨
        ∃ v ∈ vs, R.rank (vs.foldl GameValue.max a) = R.rank v) := by
  induction vs generalizing a with
  | nil => exact ⟨ha, Int.le_refl _, by simp, .inl rfl⟩
  | cons v vs ih =>
    obtain ⟨hm, hr⟩ := R.max ha (hvs v (by simp))
    obtain ⟨h₁, h₂, h₃, h₄⟩ := ih hm fun w hw => hvs w (by simp [hw])
    rw [hr] at h₂ h₄
    refine ⟨h₁, by simp only [List.foldl_cons]; omega, ?_, ?_⟩
    · intro w hw
      rcases List.mem_cons.mp hw with rfl | hw
      · simp only [List.foldl_cons]
        omega
      · exact h₃ w hw
    · rcases h₄ with h₄ | ⟨w, hw, h₄⟩
      · rcases Int.le_total (R.rank a) (R.rank v) with hle | hle
        · exact .inr ⟨v, by simp, by simp only [List.foldl_cons]; omega⟩
        · exact .inl (by simp only [List.foldl_cons]; omega)
      · exact .inr ⟨w, by simp [hw], h₄⟩

end Ranking
end HexGame
