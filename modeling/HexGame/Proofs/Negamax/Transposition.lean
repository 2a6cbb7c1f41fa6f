import HexGame.Proofs.Negamax.Calls

/-!
# Transpositions

A key stands for a set of moves. Two lines of legal moves lead to one key exactly when they consist of the
same moves, so they are equally long (`key_identifies_transpositions`). A table for one round therefore needs no
depths: all calls for a position, and all entries that they may find, have the same number of plies left.
-/
namespace HexGame
namespace Negamax

variable {V : Type} [GameValue V] {s : Setting V} {b : Board} {depth j : Nat} {k : BoardKey}

/-- A position with this key comes about on the board, and it always takes so many moves. -/
structure Occurs (b : Board) (k : BoardKey) (j : Nat) : Prop where
  line : ∃ moves b', b.playAll moves = .ok b' ∧ b'.key = k ∧ moves.length = j
  length : ∀ moves b', b.playAll moves = .ok b' → b'.key = k → moves.length = j

theorem Ahead.occurs {b' : Board} (h : Ahead b j b') : Occurs b b'.key j := by
  obtain ⟨moves, hline, hlength⟩ := h.exists_line
  refine ⟨⟨moves, b', hline, rfl, hlength⟩, fun moves' b'' hline' hkey => ?_⟩
  rw [← hlength]
  exact ((Board.key_eq_iff_perm hline' hline).mp hkey).length_eq

theorem Occurs.unique {i : Nat} (h : Occurs b k i) (h' : Occurs b k j) : i = j := by
  obtain ⟨moves, b', hline, hkey, rfl⟩ := h.line
  exact h'.length moves b' hline hkey

omit [GameValue V] in
theorem Stored.occurs {table : Table V} {entry : TableEntry V} (h : Stored b depth table)
    (hentry : table[k]? = some entry) : ∃ j ≤ depth, Occurs b k j := by
  obtain ⟨j, b', hb, hj, rfl⟩ := h k entry hentry
  exact ⟨j, hj, hb.occurs⟩

/-- Keys are equal exactly for positions that arise from each other by transposing moves. Hence a position is
looked at with the same number of plies left whenever a round comes to it, and each entry of the table
is for positions at one depth. -/
theorem key_identifies_transpositions (b : Board) :
    (∀ moves moves' b₁ b₂, b.playAll moves = .ok b₁ → b.playAll moves' = .ok b₂ →
      (b₁.key = b₂.key ↔ moves.Perm moves') ∧ (b₁.samePosition b₂ = true ↔ moves.Perm moves') ∧
      (b₁.key = b₂.key → moves.length = moves'.length)) ∧
    ∀ (s : Setting V) depth c, CallIn s b depth c →
      (∃ j, Occurs b c.board.key j ∧ j + c.plies = depth) ∧
      (∀ c', CallIn s b depth c' → c.board.key = c'.board.key → c.plies = c'.plies) ∧
      ∀ k entry, c.progress.table[k]? = some entry → ∃ j ≤ depth, Occurs b k j := by
  refine ⟨fun moves moves' b₁ b₂ h₁ h₂ => ?_, fun s depth c hc => ?_⟩
  · have hperm := Board.key_eq_iff_perm h₁ h₂
    exact ⟨hperm, Board.samePosition_iff.trans hperm, fun hkey => (hperm.mp hkey).length_eq⟩
  · obtain ⟨j, hb, hn⟩ := hc.ahead
    refine ⟨⟨j, hb.occurs, hn⟩, fun c' hc' hkey => ?_, fun k entry => hc.stored.occurs⟩
    obtain ⟨j', hb', hn'⟩ := hc'.ahead
    have hj : j = j' := (hkey ▸ hb.occurs).unique hb'.occurs
    omega

theorem key_identifies_transpositions_fourCells : ∃ b₁ b₂,
    fourCells.playAll [⟨⟨0, 0⟩, .red⟩, ⟨⟨1, 0⟩, .blue⟩, ⟨⟨1, 1⟩, .red⟩] = .ok b₁ ∧
    fourCells.playAll [⟨⟨1, 1⟩, .red⟩, ⟨⟨1, 0⟩, .blue⟩, ⟨⟨0, 0⟩, .red⟩] = .ok b₂ ∧
    b₁.key = b₂.key ∧ b₁.samePosition b₂ = true ∧ Occurs fourCells fourCells.key 0 := by
  let s : Setting Float := ⟨patternless.staticScore (.forPatterns 0), none, .never, false⟩
  obtain ⟨hlines, hcalls⟩ := key_identifies_transpositions (V := Float) fourCells
  obtain ⟨b₁, h₁⟩ : ∃ b₁, fourCells.playAll [⟨⟨0, 0⟩, .red⟩, ⟨⟨1, 0⟩, .blue⟩, ⟨⟨1, 1⟩, .red⟩] = .ok b₁ :=
    ⟨_, rfl⟩
  obtain ⟨b₂, h₂⟩ : ∃ b₂, fourCells.playAll [⟨⟨1, 1⟩, .red⟩, ⟨⟨1, 0⟩, .blue⟩, ⟨⟨0, 0⟩, .red⟩] = .ok b₂ :=
    ⟨_, rfl⟩
  obtain ⟨hkey, hsame, -⟩ := hlines _ _ _ _ h₁ h₂
  obtain ⟨⟨j, hroot, hplies⟩, -⟩ := hcalls s 2 _ (.root 0)
  obtain rfl : j = 0 := by simpa using hplies
  exact ⟨b₁, b₂, h₁, h₂, hkey.mpr (by decide), hsame.mpr (by decide), hroot⟩

end Negamax
end HexGame
