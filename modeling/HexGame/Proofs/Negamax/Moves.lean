import HexGame.Proofs.Negamax.Window

/-!
# Trying the moves

While the moves of a position are tried, the best of them and the raised lower end of the window are tied
to the values that the moves really have (`Scanned`). Each move keeps this, so that at the end no move is
better or the window is closed.
-/
namespace HexGame
namespace Negamax

variable {V : Type} [GameValue V] {R : Ranking V} {target : Move → Int} {low high : Int}
variable {done moves : List Move} {c : Scan V} {mv : Move} {v : V}

/-- The state after the moves `done` have been tried with a window from `low` to `high`; `target` gives the
true values of the moves. -/
structure Scanned (R : Ranking V) (target : Move → Int) (low high : Int) (done : List Move)
    (c : Scan V) : Prop where
  value : R.IsNumber c.value
  alpha : R.IsNumber c.alpha
  rank_alpha : R.rank c.alpha = max low (R.rank c.value)
  best : ∀ mv v, c.best = some (mv, v) → mv ∈ done ∧ Fits low high (R.rank v) (target mv)
  upper : ∀ mv ∈ done, R.rank c.value < high → target mv ≤ R.rank c.value
  untried : c.best = none → done = []
  lost_le : R.rank GameValue.lost ≤ low

namespace Scanned

theorem start {alpha : V} (ha : R.IsNumber alpha) :
    Scanned R target (R.rank alpha) high [] ⟨alpha, none, [], false⟩ where
  value := R.lost
  alpha := ha
  rank_alpha := by
    have := R.rank_lost_le ha
    simp only [Scan.value]
    omega
  best := by simp
  upper := by simp
  untried := fun _ => rfl
  lost_le := R.rank_lost_le ha

theorem congr {c' : Scan V} (h : Scanned R target low high done c) (halpha : c'.alpha = c.alpha)
    (hbest : c'.best = c.best) : Scanned R target low high done c' := by
  have hvalue : c'.value = c.value := by simp only [Scan.value, hbest]
  exact ⟨hvalue ▸ h.value, halpha ▸ h.alpha, by rw [halpha, hvalue, h.rank_alpha], hbest ▸ h.best,
    hvalue ▸ h.upper, hbest ▸ h.untried, h.lost_le⟩

/-- The best move after one more: the new one if it is the first or better than all before. -/
theorem best_add (h : Scanned R target low high done c) (mv : Move) (hv : R.IsNumber v)
    (node : Option (Tree (NodeLabel V))) :
    ((c.add mv v node).best = some (mv, v) ∧ (c.best = none ∨ R.rank c.value < R.rank v)) ∨
      ((c.add mv v node).best = c.best ∧ c.best ≠ none ∧ R.rank v ≤ R.rank c.value) := by
  have hvalue := h.value
  unfold Scan.value at hvalue ⊢
  cases hb : c.best with
  | none => exact .inl ⟨by simp [Scan.add, hb], .inl rfl⟩
  | some best =>
    obtain ⟨m, w⟩ := best
    simp only [hb] at hvalue ⊢
    cases hlt : GameValue.lt w v with
    | true => exact .inl ⟨by simp [Scan.add, hb, hlt], .inr ((R.lt_iff hvalue hv).mp hlt)⟩
    | false =>
      have : ¬ R.rank w < R.rank v := fun hc => by simp [(R.lt_iff hvalue hv).mpr hc] at hlt
      exact .inr ⟨by simp [Scan.add, hb, hlt], by simp, by omega⟩

theorem value_add (h : Scanned R target low high done c) (mv : Move) (hv : R.IsNumber v)
    (node : Option (Tree (NodeLabel V))) :
    R.IsNumber (c.add mv v node).value ∧
      R.rank (c.add mv v node).value = max (R.rank c.value) (R.rank v) := by
  rcases h.best_add mv hv node with ⟨hb, hc⟩ | ⟨hb, hc, hle⟩
  · have he : (c.add mv v node).value = v := by simp only [Scan.value, hb]
    rw [he]
    refine ⟨hv, ?_⟩
    rcases hc with hc | hc
    · have := R.rank_lost_le hv
      simp only [Scan.value, hc]
      omega
    · omega
  · have he : (c.add mv v node).value = c.value := by simp only [Scan.value, hb]
    rw [he]
    exact ⟨h.value, by omega⟩

theorem alpha_add {c' : Scan V} (h : Scanned R target low high done c) (hnumber : R.IsNumber c'.value)
    (hle : R.rank c.value ≤ R.rank c'.value)
    (halpha : (GameValue.lt c.alpha c'.value = true ∧ c'.alpha = c'.value) ∨
      (GameValue.lt c.alpha c'.value = false ∧ c'.alpha = c.alpha)) :
    R.IsNumber c'.alpha ∧ R.rank c'.alpha = max low (R.rank c'.value) := by
  have hiff := R.lt_iff h.alpha hnumber
  have hrank := h.rank_alpha
  rcases halpha with ⟨hlt, he⟩ | ⟨hlt, he⟩
  · have := hiff.mp hlt
    rw [he]
    exact ⟨hnumber, by omega⟩
  · have : ¬ R.rank c.alpha < R.rank c'.value := fun hc => by simp [hiff.mpr hc] at hlt
    rw [he]
    exact ⟨h.alpha, by omega⟩

theorem add {c' : Scan V} (h : Scanned R target low high done c) (hv : R.IsNumber v)
    (hfits : Fits (R.rank c.alpha) high (R.rank v) (target mv)) (node : Option (Tree (NodeLabel V)))
    (hbest : c'.best = (c.add mv v node).best)
    (halpha : (GameValue.lt c.alpha (c.add mv v node).value = true ∧ c'.alpha = c'.value) ∨
      (GameValue.lt c.alpha (c.add mv v node).value = false ∧ c'.alpha = c.alpha)) :
    Scanned R target low high (mv :: done) c' := by
  have hadd : (c.add mv v node).value = c'.value := by simp only [Scan.value, hbest]
  obtain ⟨hnumber, hrank⟩ := h.value_add mv hv node
  rw [hadd] at halpha hnumber hrank
  obtain ⟨hnumber_alpha, hrank_alpha⟩ := h.alpha_add hnumber (by omega) halpha
  have hbegin := h.rank_alpha
  refine ⟨hnumber, hnumber_alpha, hrank_alpha, fun m w hm => ?_, fun m hm hlt => ?_, fun hnone => ?_,
    h.lost_le⟩
  · rw [hbest] at hm
    rcases h.best_add mv hv node with ⟨hb, hc⟩ | ⟨hb, -, -⟩
    · obtain ⟨rfl, rfl⟩ := Prod.mk.inj (Option.some.inj (hb.symm.trans hm))
      refine ⟨by simp, hfits.upper, fun hgt => hfits.lower ?_⟩
      rcases hc with hc | hc
      · have hlost := h.lost_le
        simp only [Scan.value, hc] at hbegin
        omega
      · omega
    · obtain ⟨hmem, hfit⟩ := h.best m w (hb ▸ hm)
      exact ⟨List.mem_cons_of_mem mv hmem, hfit⟩
  · rcases List.mem_cons.mp hm with rfl | hm
    · have := hfits.upper (by omega)
      omega
    · have := h.upper m hm (by omega)
      omega
  · rw [hbest] at hnone
    rcases h.best_add mv hv node with ⟨hb, -⟩ | ⟨hb, hc, -⟩
    · simp [hb] at hnone
    · exact absurd (hb ▸ hnone) hc

end Scanned

end Negamax
end HexGame
