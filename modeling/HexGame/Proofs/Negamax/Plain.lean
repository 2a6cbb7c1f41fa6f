import HexGame.Negamax.Round
import HexGame.Proofs.Board.Key
import HexGame.Proofs.Negamax.Rank

/-!
# The plain value of a position

The value some plies ahead, read off the game tree. The search may ask for it by the key of a position,
for it depends on no more, and the plies that are left follow from the stones on the board
(`Ahead.emptyCells_add`).
-/
namespace HexGame
namespace Negamax

variable {V : Type} [GameValue V] {score : Board → V} {b b' b₀ : Board} {n j depth : Nat}

/-- The value for the player to move, without a window, a table or an order of the moves. -/
def plainValue (score : Board → V) : Nat → Board → V
  | 0, b => if b.isDecided .strict then GameValue.lost else score b
  | plies + 1, b =>
    if b.isDecided .strict then GameValue.lost
    else (b.legalMoves.map fun mv => -plainValue score plies (b.place mv)).foldl GameValue.max
      GameValue.lost

/-- The positions that lie so many plies ahead. Nothing is played after a decided one. -/
inductive Ahead (b₀ : Board) : Nat → Board → Prop where
  | root : Ahead b₀ 0 b₀
  | move {j : Nat} {b : Board} {mv : Move} (h : Ahead b₀ j b) (hopen : b.isDecided .strict = false)
      (hmv : mv ∈ b.legalMoves) : Ahead b₀ (j + 1) (b.place mv)

theorem Ahead.emptyCells_add (h : Ahead b₀ j b) : b.emptyCells + j = b₀.emptyCells := by
  induction h with
  | root => rfl
  | move _ _ hmv ih =>
    have := Board.emptyCells_place (Board.isEmptyAt_of_mem_legalMoves hmv).1
    omega

theorem Ahead.plies_eq (h : Ahead b₀ j b) {i : Nat} (h' : Ahead b₀ i b') (hkey : b.key = b'.key) :
    j = i := by
  have h₁ := h.emptyCells_add
  have h₂ := h'.emptyCells_add
  rw [Board.emptyCells_eq_of_key hkey] at h₁
  omega

/-- Checks all undecided positions that lie at most so many plies ahead. -/
def checkAhead (P : Board → Bool) : Nat → Board → Bool
  | 0, b => b.isDecided .strict || P b
  | plies + 1, b =>
    b.isDecided .strict || (P b && b.legalMoves.all fun mv => checkAhead P plies (b.place mv))

theorem Ahead.check {P : Board → Bool} (h : Ahead b₀ j b) (hP : checkAhead P b₀.emptyCells b₀ = true)
    (hopen : b.isDecided .strict = false) : P b = true := by
  have hstep {n : Nat} {b : Board} (hb : checkAhead P n b = true) (hopen : b.isDecided .strict = false) :
      P b = true ∧ (0 < n → ∀ mv ∈ b.legalMoves, checkAhead P (n - 1) (b.place mv) = true) := by
    cases n with
    | zero => simpa [checkAhead, hopen] using hb
    | succ n => simpa [checkAhead, hopen] using hb
  have hcheck : checkAhead P (b₀.emptyCells - j) b = true := by
    clear hopen
    induction h with
    | root => exact hP
    | move h hopen hmv ih =>
      have hcount := h.emptyCells_add
      have hless := Board.emptyCells_place (Board.isEmptyAt_of_mem_legalMoves hmv).1
      exact (hstep ih hopen).2 (by omega) _ hmv
  exact (hstep hcheck hopen).1

theorem plainValue_zero (hopen : b.isDecided .strict = false) : plainValue score 0 b = score b := by
  simp [plainValue, hopen]

theorem plainValue_decided (hdecided : b.isDecided .strict = true) :
    plainValue score n b = GameValue.lost := by
  cases n <;> simp [plainValue, hdecided]

theorem plainValue_eq_of_key (hscore : ∀ b b', b.key = b'.key → score b = score b')
    (h : b.key = b'.key) : plainValue score n b = plainValue score n b' := by
  have hdecided := Board.eq_of_key (·.isDecided .strict) (fun b c => b.isDecided_withLast c .strict) h
  cases n with
  | zero => simp only [plainValue, hdecided, hscore b b' h]
  | succ n =>
    have hmoves := Board.eq_of_key Board.legalMoves Board.legalMoves_withLast h
    have hplace (mv : Move) := Board.eq_of_key (·.place mv) (fun b c => b.place_withLast c mv) h
    simp only [plainValue, hdecided, hmoves, hplace]

/-- The evaluation of the search is `score` wherever it is asked for, and gives numbers there. -/
structure Scores (R : Ranking V) (evaluate : Board → Except Error V) (score : Board → V)
    (b₀ : Board) (depth : Nat) : Prop where
  same : ∀ b b', b.key = b'.key → score b = score b'
  leaf : ∀ b, Ahead b₀ depth b → b.isDecided .strict = false →
    evaluate b = .ok (score b) ∧ R.IsNumber (score b)

namespace Scores

variable {R : Ranking V} {evaluate : Board → Except Error V}

theorem isNumber (h : Scores R evaluate score b₀ depth) (hb : Ahead b₀ j b) (hn : j + n = depth) :
    R.IsNumber (plainValue score n b) := by
  induction n generalizing j b with
  | zero =>
    cases hdecided : b.isDecided .strict with
    | true =>
      rw [plainValue_decided hdecided]
      exact R.lost
    | false =>
      rw [plainValue_zero hdecided]
      exact (h.leaf b (hn ▸ hb) hdecided).2
  | succ n ih =>
    cases hdecided : b.isDecided .strict with
    | true =>
      rw [plainValue_decided hdecided]
      exact R.lost
    | false =>
      simp only [plainValue, hdecided, Bool.false_eq_true, if_false]
      refine (R.foldl_max R.lost fun v hv => ?_).1
      obtain ⟨mv, hmv, rfl⟩ := List.mem_map.mp hv
      exact R.neg (ih (hb.move hdecided hmv) (by omega))

theorem rank_succ (h : Scores R evaluate score b₀ depth) (hb : Ahead b₀ j b)
    (hn : j + (n + 1) = depth) (hopen : b.isDecided .strict = false) :
    (∀ mv ∈ b.legalMoves,
        -R.rank (plainValue score n (b.place mv)) ≤ R.rank (plainValue score (n + 1) b)) ∧
      (R.rank (plainValue score (n + 1) b) = R.rank GameValue.lost ∨ ∃ mv ∈ b.legalMoves,
        R.rank (plainValue score (n + 1) b) = -R.rank (plainValue score n (b.place mv))) := by
  have hchild (mv : Move) (hmv : mv ∈ b.legalMoves) :
      R.IsNumber (plainValue score n (b.place mv)) := h.isNumber (hb.move hopen hmv) (by omega)
  have hnumbers : ∀ v ∈ b.legalMoves.map fun mv => -plainValue score n (b.place mv),
      R.IsNumber v := by
    intro v hv
    obtain ⟨mv, hmv, rfl⟩ := List.mem_map.mp hv
    exact R.neg (hchild mv hmv)
  obtain ⟨-, -, hge, hreached⟩ := R.foldl_max R.lost hnumbers
  simp only [plainValue, hopen, Bool.false_eq_true, if_false]
  refine ⟨fun mv hmv => ?_, ?_⟩
  · rw [← R.rank_neg (hchild mv hmv)]
    exact hge _ (List.mem_map.mpr ⟨mv, hmv, rfl⟩)
  · rcases hreached with he | ⟨v, hv, he⟩
    · exact .inl he
    · obtain ⟨mv, hmv, rfl⟩ := List.mem_map.mp hv
      exact .inr ⟨mv, hmv, by rw [he, R.rank_neg (hchild mv hmv)]⟩

end Scores

end Negamax
end HexGame
