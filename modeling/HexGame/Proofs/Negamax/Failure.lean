import HexGame.Proofs.Negamax.Calls

/-!
# Calls that fail

A call fails by itself when its position cannot be evaluated or its moves have no order, and it fails with the
calls that it makes. There is no other way but to be cancelled (`run_eq_error_iff`).
-/
namespace HexGame
namespace Negamax

variable {V : Type} [GameValue V] {s : Setting V} {b : Board} {alpha beta : V} {p : Progress V} {e : Interruption}
variable {recurse : Board → V → V → Progress V → Except Interruption (Scored V × Progress V)}

/-- The call `c'` is made by the call `c`. -/
inductive Call.Makes (s : Setting V) : Call V → Call V → Prop where
  | move {n : Nat} {b : Board} {alpha beta alpha' beta' : V} {p q p' p'' : Progress V}
      {before after : List Move} {mv : Move} {c : Scan V}
      (henter : enter s b alpha beta p = .ok (.opened alpha' beta' q))
      (hmoves : s.orderedMoves b = .ok (before ++ mv :: after))
      (hbefore : explore (visit s n) s b beta' before ⟨alpha', none, [], false⟩ q = .ok (c, p'))
      (hcut : c.cut = false) (hcheck : p'.check s.deadline = .ok p'') :
      Makes s ⟨n + 1, b, alpha, beta, p⟩ ⟨n, b.place mv, -beta', -c.alpha, p''⟩

/-- The call has to evaluate its position: no plies are left, the table does not answer, and the game is not
over. -/
inductive Call.NeedsScore (s : Setting V) : Call V → Prop where
  | opened {b : Board} {alpha beta alpha' beta' : V} {p q : Progress V}
      (henter : enter s b alpha beta p = .ok (.opened alpha' beta' q)) : NeedsScore s ⟨0, b, alpha, beta, p⟩

theorem Call.NeedsScore.isDecided {c : Call V} (h : c.NeedsScore s) : c.board.isDecided .strict = false := by
  cases h with
  | opened henter => exact (opened_of_enter henter).1

/-- The call that a round makes for its board. -/
def Call.first (b : Board) (depth checks : Nat) : Call V :=
  ⟨depth, b, GameValue.lost, GameValue.won, ⟨∅, 0, checks⟩⟩

/-- As long as nothing is stored, a call for an undecided position comes to its first move. -/
theorem Call.Makes.first {n nodes checks : Nat} {mv : Move} {moves : List Move} (hnever : s.deadline = .never)
    (hopen : b.isDecided .strict = false) (hmoves : s.orderedMoves b = .ok (mv :: moves)) :
    Makes s ⟨n + 1, b, alpha, beta, ⟨∅, nodes, checks⟩⟩
      ⟨n, b.place mv, -beta, -alpha, ⟨∅, nodes + 1, checks + 2⟩⟩ := by
  have henter := enter_empty b alpha beta nodes checks hnever
  rw [hopen, if_neg Bool.false_ne_true] at henter
  have hsplit : s.orderedMoves b = .ok ([] ++ mv :: moves) := hmoves
  exact .move henter hsplit rfl rfl (hnever ▸ rfl)

end Negamax
end HexGame
