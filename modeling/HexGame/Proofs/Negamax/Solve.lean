import HexGame.Proofs.Negamax.Deepening

/-!
# Solving a game

A search that is not interrupted tells who wins, provided that every static score is finite. It stops at the
first depth at which the plain value is infinite. A deeper look would not take this value back, since a
player forces a chain at it (`FiniteScores.forces`).
-/
namespace HexGame
namespace Negamax

variable {b : Board} {e : Evaluator} {weights : ScoreWeights} {n : Nat}

theorem decisive_iff {v : Float} : floatRanking.Decisive v ↔ v.isInf = true := by
  rw [Ranking.Decisive, floatRanking.rank_eq_won_iff, floatRanking.rank_eq_lost_iff, FloatRank.isInf_iff]

theorem finiteScores (hscores : ∀ j b', Ahead b j b' → b'.isDecided .strict = false →
      ∃ v, e.staticScore weights b' = .ok v ∧ v.isFinite = true) :
    FiniteScores floatRanking (e.staticScore weights) (e.scoreOf weights) b where
  same _ _ := e.scoreOf_eq_of_key weights
  leaf j b' hb' hopen := by
    obtain ⟨v, hv, hfinite⟩ := hscores j b' hb' hopen
    have hscore : e.scoreOf weights b' = v := by
      simp only [Evaluator.scoreOf, hv, Except.toOption, Option.getD_some]
    obtain ⟨hnumber, hinf⟩ := FloatRank.isFinite_iff.mp hfinite
    rw [hscore, decisive_iff, hinf]
    exact ⟨hv, hnumber, Bool.false_ne_true⟩

/-- A search without a deadline tells whether the player to move has a winning strategy, and its move keeps
one. It ends with the first round that sees the end of the game. -/
theorem search_solves (e : Evaluator) (weights : ScoreWeights) (b : Board) (wantTree : Bool)
    (hempty : ∃ c, b.isEmptyAt c = true) (hopen : b.isDecided .strict = false)
    (hscores : ∀ j b', Ahead b j b' → b'.isDecided .strict = false →
      ∃ v, e.staticScore weights b' = .ok v ∧ v.isFinite = true) :
    ∃ o mv, search (e.staticScore weights) b .never wantTree = .ok o ∧
      (o.value = GameValue.won ∨ o.value = GameValue.lost) ∧
      o.best = some mv ∧ mv ∈ b.legalMoves ∧
      (o.value = GameValue.won ↔ b.HasWin b.toMove) ∧
      (o.value = GameValue.won → (b.place mv).HasWin b.toMove) ∧
      ∃ i, o.depth = min (2 * (i + 1)) b.stoneCounts.empty ∧
        (plainValue (e.scoreOf weights) o.depth b).isInf = true ∧
        ∀ k < i, (plainValue (e.scoreOf weights) (min (2 * (k + 1)) b.stoneCounts.empty) b).isInf = false := by
  have hs := finiteScores hscores
  have hpos : 0 < b.emptyCells := by
    obtain ⟨c, hc⟩ := hempty
    exact List.countP_pos_iff.mpr ⟨c, Board.mem_cells.mpr (Board.isEmptyAt_iff.mp hc).1, hc⟩
  have hplay : b.Playable := fun hfull => by omega
  have hmoves : b.legalMoves ≠ [] := Board.legalMoves_ne_nil_iff.mpr hpos
  have hfull : floatRanking.Decisive (plainValue (e.scoreOf weights) b.emptyCells b) :=
    hs.decisive hplay .root (Nat.le_refl _)
  obtain ⟨o, before, after, hrun, ho, hsplit, hbefore⟩ :=
    deepen_spec (s := ⟨e.staticScore weights, none, .never, wantTree⟩) hs rfl (by simp) hopen hmoves
      (pos_of_mem_schedule hpos) ⟨_, empty_mem_schedule hpos, hfull⟩ 0 .initial
  obtain ⟨mv, hbest, hlegal, hchild⟩ := ho.best
  have hdecisive := ho.decisive
  have hvalue : o.value = GameValue.won ↔ Forces b.toMove b := by
    rw [← floatRanking.rank_eq_won_iff, ho.rank]
    exact hs.won_iff_forces hplay hdecisive
  obtain ⟨hdepth, hearlier⟩ := schedule_split hsplit
  rw [← b.empty_stoneCounts] at hrun hdepth hearlier
  refine ⟨o, mv, hrun, ?_, hbest, hlegal, ?_, fun hwon => ?_, before.length, hdepth,
    decisive_iff.mp hdecisive, ?_⟩
  · rw [Ranking.Decisive, ← ho.rank] at hdecisive
    exact hdecisive.imp floatRanking.rank_eq_won_iff.mp floatRanking.rank_eq_lost_iff.mp
  · rw [hvalue, forces_iff_hasWin]
  · rw [hwon, ← floatRanking.rank_lost] at hchild
    have hlost := (hs.forces hplay (Ahead.root.move hopen hlegal)).2 hchild
    rw [Board.lastMover_place hlegal] at hlost
    exact forces_iff_hasWin.mp hlost
  · intro k hk
    have := mt decisive_iff.mpr (hbefore _ (hearlier k hk))
    exact Bool.eq_false_iff.mpr this

theorem search_solves_fourCells :
    (∃ c, fourCells.isEmptyAt c = true) ∧ fourCells.isDecided .strict = false ∧
      ∃ o mv, search (patternless.staticScore (.forPatterns 0)) fourCells .never false = .ok o ∧
        o.best = some mv ∧ mv ∈ fourCells.legalMoves ∧
        (o.value = GameValue.won ↔ fourCells.HasWin .red) := by
  have hempty : ∃ c, fourCells.isEmptyAt c = true := ⟨⟨0, 0⟩, by decide +kernel⟩
  have hopen : fourCells.isDecided .strict = false := by decide +kernel
  have hcheck : checkAhead (fun b => match patternless.staticScore (.forPatterns 0) b with
      | .ok v => v.isFinite
      | .error _ => false) fourCells.emptyCells fourCells = true := by decide +kernel
  obtain ⟨o, mv, hrun, -, hbest, hlegal, hwon, -⟩ :=
    search_solves patternless (.forPatterns 0) fourCells false hempty hopen fun j b' hb' hopen' => by
      have hfinite := hb'.check hcheck hopen'
      split at hfinite
      · exact ⟨_, ‹_›, hfinite⟩
      · simp at hfinite
  exact ⟨hempty, hopen, o, mv, hrun, hbest, hlegal, hwon⟩

end Negamax
end HexGame
