import HexGame.Proofs.Negamax.Plain
import HexGame.Proofs.Play.Strategy

/-!
# Forced wins and plain values

Where no static score is that of a finished game, a plain value is won or lost only if a player forces a
chain (`FiniteScores.forces`). A look at all empty cells finds nothing else (`FiniteScores.decisive`), so it
tells which of the players does.
-/
namespace HexGame

namespace Ranking

variable {V : Type} [GameValue V]

/-- The rank of a finished game. -/
def Decisive (R : Ranking V) (v : V) : Prop :=
  R.rank v = R.rank GameValue.won ∨ R.rank v = R.rank GameValue.lost

theorem isDecisive_iff (R : Ranking V) {v : V} (hv : R.IsNumber v) :
    GameValue.isDecisive v = true ↔ R.Decisive v := by
  have hle := R.rank_le_won hv
  have hge := R.rank_lost_le hv
  simp only [GameValue.isDecisive, Bool.or_eq_true, R.le_iff R.won hv, R.le_iff hv R.lost, Decisive]
  omega

end Ranking

namespace Negamax

variable {V : Type} [GameValue V] {R : Ranking V} {evaluate : Board → Except Error V} {score : Board → V}
variable {b b₀ : Board} {j n : Nat} {mv : Move}

/-- The evaluation is `score` wherever the game goes on, and gives numbers there that are not those of a
finished game. -/
structure FiniteScores (R : Ranking V) (evaluate : Board → Except Error V) (score : Board → V)
    (b₀ : Board) : Prop where
  same : ∀ b b', b.key = b'.key → score b = score b'
  leaf : ∀ j b, Ahead b₀ j b → b.isDecided .strict = false →
    evaluate b = .ok (score b) ∧ R.IsNumber (score b) ∧ ¬ R.Decisive (score b)

theorem Ahead.playable (hplay : b₀.Playable) (h : Ahead b₀ j b) : b.Playable := by
  cases h with
  | root => exact hplay
  | move _ hopen hmv => exact Board.Playable.place hopen hmv

namespace FiniteScores

theorem scores (h : FiniteScores R evaluate score b₀) (depth : Nat) : Scores R evaluate score b₀ depth where
  same := h.same
  leaf b hb hopen := by
    obtain ⟨heval, hnumber, -⟩ := h.leaf depth b hb hopen
    exact ⟨heval, hnumber⟩

theorem rank_succ (h : FiniteScores R evaluate score b₀) (hb : Ahead b₀ j b)
    (hopen : b.isDecided .strict = false) :
    (∀ mv ∈ b.legalMoves,
        -R.rank (plainValue score n (b.place mv)) ≤ R.rank (plainValue score (n + 1) b)) ∧
      (R.rank (plainValue score (n + 1) b) = R.rank GameValue.lost ∨ ∃ mv ∈ b.legalMoves,
        R.rank (plainValue score (n + 1) b) = -R.rank (plainValue score n (b.place mv))) :=
  (h.scores (j + (n + 1))).rank_succ hb rfl hopen

theorem isNumber (h : FiniteScores R evaluate score b₀) (hb : Ahead b₀ j b) :
    R.IsNumber (plainValue score n b) :=
  (h.scores (j + n)).isNumber hb rfl

theorem forces_of_decided (hdecided : b.isDecided .strict = true) :
    (R.rank (plainValue score n b) = R.rank GameValue.won → Forces b.toMove b) ∧
      (R.rank (plainValue score n b) = R.rank GameValue.lost → Forces b.lastMover b) := by
  have hlt := R.rank_lost_lt_won
  rw [plainValue_decided hdecided]
  exact ⟨fun hr => by omega, fun _ => .connected hdecided⟩

theorem forces (h : FiniteScores R evaluate score b₀) (hplay : b₀.Playable) (hb : Ahead b₀ j b) :
    (R.rank (plainValue score n b) = R.rank GameValue.won → Forces b.toMove b) ∧
      (R.rank (plainValue score n b) = R.rank GameValue.lost → Forces b.lastMover b) := by
  induction n generalizing j b with
  | zero =>
    cases hdecided : b.isDecided .strict with
    | true => exact forces_of_decided hdecided
    | false =>
      have hscore := (h.leaf j b hb hdecided).2.2
      rw [plainValue_zero hdecided]
      exact ⟨fun hr => absurd (.inl hr) hscore, fun hr => absurd (.inr hr) hscore⟩
  | succ n ih =>
    cases hdecided : b.isDecided .strict with
    | true => exact forces_of_decided hdecided
    | false =>
      have hlt := R.rank_lost_lt_won
      have hlost := R.rank_lost
      obtain ⟨hge, hreached⟩ := h.rank_succ (n := n) hb hdecided
      constructor
      · intro hwon
        obtain ⟨mv, hmv, he⟩ := hreached.resolve_left (by omega)
        have hchild := (ih (hb.move hdecided hmv)).2 (by omega)
        rw [Board.lastMover_place hmv] at hchild
        exact .own rfl hmv hchild
      · intro hr
        refine .other (Color.opponent_ne _) ((hb.playable hplay).legalMoves_ne_nil hdecided) ?_
        intro mv hmv
        have hle := R.rank_le_won (h.isNumber (n := n) (hb.move hdecided hmv))
        have hchild := (ih (hb.move hdecided hmv)).1 (by have := hge mv hmv; omega)
        rwa [Board.toMove_place_of_mem hmv] at hchild

theorem decisive (h : FiniteScores R evaluate score b₀) (hplay : b₀.Playable) (hb : Ahead b₀ j b)
    (hn : b.emptyCells ≤ n) : R.Decisive (plainValue score n b) := by
  induction n generalizing j b with
  | zero =>
    cases hdecided : b.isDecided .strict with
    | true => exact .inr (by rw [plainValue_decided hdecided])
    | false =>
      have hmoves := (hb.playable hplay).legalMoves_ne_nil hdecided
      have := Board.legalMoves_ne_nil_iff.mp hmoves
      omega
  | succ n ih =>
    cases hdecided : b.isDecided .strict with
    | true => exact .inr (by rw [plainValue_decided hdecided])
    | false =>
      rcases (h.rank_succ (n := n) hb hdecided).2 with hr | ⟨mv, hmv, hr⟩
      · exact .inr hr
      · have hless := Board.emptyCells_place (Board.isEmptyAt_of_mem_legalMoves hmv).1
        have hlost := R.rank_lost
        have hchild := ih (hb.move hdecided hmv) (by omega)
        unfold Ranking.Decisive at hchild ⊢
        omega

theorem won_iff_forces (h : FiniteScores R evaluate score b) (hplay : b.Playable)
    (hv : R.Decisive (plainValue score n b)) :
    R.rank (plainValue score n b) = R.rank GameValue.won ↔ Forces b.toMove b := by
  obtain ⟨hwon, hlost⟩ := h.forces (n := n) hplay .root
  refine ⟨hwon, fun hforces => hv.resolve_right fun hr => ?_⟩
  have := hforces.not_opponent
  rw [Board.toMove, Color.opponent_opponent] at this
  exact this (hlost hr)

end FiniteScores

end Negamax
end HexGame
