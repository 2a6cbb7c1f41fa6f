import HexGame.Proofs.Negamax.Plain

/-!
# Windows and tables

What a search with a window owes (`Fits`) and what a stored bound says (`Bound.Holds`) is stated for the
ranks of the values. A sound entry narrows a window without loss (`Sound.probe`).
-/
namespace HexGame

/-- The value `v` was found with a window for the true value `t`: below the upper end it is not too
small, and above the lower end it is not too large. -/
structure Fits (alpha beta v t : Int) : Prop where
  upper : v < beta → t ≤ v
  lower : alpha < v → v ≤ t

theorem Fits.neg {alpha beta v t : Int} (h : Fits (-beta) (-alpha) v t) : Fits alpha beta (-v) (-t) where
  upper hv := by
    have := h.lower
    omega
  lower hv := by
    have := h.upper
    omega

/-- What a bound says of the stored value `v` and the true value `t`. -/
def Bound.Holds : Bound → Int → Int → Prop
  | .exact, v, t => v = t
  | .lower, v, t => v ≤ t
  | .upper, v, t => t ≤ v

theorem Table.entry_of_insert {V : Type} {table : Table V} {k k' : BoardKey} {new entry : TableEntry V}
    (h : (table.insert k new)[k']? = some entry) : (k = k' ∧ new = entry) ∨ table[k']? = some entry := by
  rw [Std.HashMap.getElem?_insert] at h
  split at h
  · rename_i hkey
    exact .inl ⟨eq_of_beq hkey, Option.some.inj h⟩
  · exact .inr h

namespace Negamax

variable {V : Type} [GameValue V] {R : Ranking V} {score : Board → V} {b b₀ : Board}
variable {depth j n : Nat} {table : Table V} {alpha beta value : V} {bound : Bound}

/-- The entries of a table hold for all positions of the search with their keys. -/
structure Sound (R : Ranking V) (score : Board → V) (b₀ : Board) (depth : Nat) (table : Table V) :
    Prop where
  isNumber : ∀ (k : BoardKey) (e : TableEntry V), table[k]? = some e → R.IsNumber e.value
  holds : ∀ (k : BoardKey) (e : TableEntry V), table[k]? = some e → ∀ j n b, j + n = depth →
    Ahead b₀ j b → b.key = k → e.bound.Holds (R.rank e.value) (R.rank (plainValue score n b))

namespace Sound

theorem empty : Sound R score b₀ depth ∅ where
  isNumber _ _ h := by simp at h
  holds _ _ h := by simp at h

theorem insert (h : Sound R score b₀ depth table)
    (hscore : ∀ b b', b.key = b'.key → score b = score b') (hb : Ahead b₀ j b) (hn : j + n = depth)
    (hv : R.IsNumber value) (hbound : bound.Holds (R.rank value) (R.rank (plainValue score n b))) :
    Sound R score b₀ depth (table.insert b.key ⟨value, bound⟩) := by
  refine ⟨fun k e he => ?_, fun k e he i m b' hm hb' hk => ?_⟩
  · rcases Table.entry_of_insert he with ⟨-, rfl⟩ | he
    · exact hv
    · exact h.isNumber k e he
  · rcases Table.entry_of_insert he with ⟨hkey, rfl⟩ | he
    · have hkey : b.key = b'.key := hkey.trans hk.symm
      have hplies := hb.plies_eq hb' hkey
      obtain rfl : n = m := by omega
      rwa [← plainValue_eq_of_key hscore hkey]
    · exact h.holds k e he i m b' hm hb' hk

/-- An answer of the table fits the window, and what fits the window it leaves fits the one before. -/
theorem probe (h : Sound R score b₀ depth table) (hb : Ahead b₀ j b) (hn : j + n = depth)
    (ha : R.IsNumber alpha) (hbeta : R.IsNumber beta) (hlt : R.rank alpha < R.rank beta) :
    (∃ v, table.probe b.key alpha beta = .answer v ∧ R.IsNumber v ∧
        Fits (R.rank alpha) (R.rank beta) (R.rank v) (R.rank (plainValue score n b))) ∨
      ∃ alpha' beta', table.probe b.key alpha beta = .window alpha' beta' ∧ R.IsNumber alpha' ∧
        R.IsNumber beta' ∧ R.rank alpha ≤ R.rank alpha' ∧ R.rank alpha' < R.rank beta' ∧
        ∀ v, Fits (R.rank alpha') (R.rank beta') v (R.rank (plainValue score n b)) →
          Fits (R.rank alpha) (R.rank beta) v (R.rank (plainValue score n b)) := by
  cases he : table[b.key]? with
  | none =>
    exact .inr ⟨alpha, beta, by simp [Table.probe, he], ha, hbeta, Int.le_refl _, hlt, fun _ => id⟩
  | some e =>
    obtain ⟨v, bound⟩ := e
    have hv : R.IsNumber v := h.isNumber _ _ he
    have hholds := h.holds _ _ he j n b hn hb rfl
    cases bound with
    | exact =>
      simp only [Bound.Holds] at hholds
      exact .inl ⟨v, by simp [Table.probe, he], hv, by omega, by omega⟩
    | lower =>
      simp only [Bound.Holds] at hholds
      obtain ⟨hm, hr⟩ := R.max ha hv
      cases hle : GameValue.le beta (GameValue.max alpha v) with
      | true =>
        have := (R.le_iff hbeta hm).mp hle
        exact .inl ⟨v, by simp [Table.probe, he, hle], hv, by omega, by omega⟩
      | false =>
        have : ¬ R.rank beta ≤ R.rank (GameValue.max alpha v) := fun hc => by
          simp [(R.le_iff hbeta hm).mpr hc] at hle
        refine .inr ⟨_, beta, by simp [Table.probe, he, hle], hm, hbeta, by omega, by omega,
          fun w hw => ⟨hw.upper, fun hlow => ?_⟩⟩
        have := hw.lower
        omega
    | upper =>
      simp only [Bound.Holds] at hholds
      obtain ⟨hm, hr⟩ := R.min hbeta hv
      cases hle : GameValue.le (GameValue.min beta v) alpha with
      | true =>
        have := (R.le_iff hm ha).mp hle
        exact .inl ⟨v, by simp [Table.probe, he, hle], hv, by omega, by omega⟩
      | false =>
        have : ¬ R.rank (GameValue.min beta v) ≤ R.rank alpha := fun hc => by
          simp [(R.le_iff hm ha).mpr hc] at hle
        refine .inr ⟨alpha, _, by simp [Table.probe, he, hle], ha, hm, Int.le_refl _, by omega,
          fun w hw => ⟨fun hup => ?_, hw.lower⟩⟩
        have := hw.upper
        omega

end Sound

end Negamax
end HexGame
