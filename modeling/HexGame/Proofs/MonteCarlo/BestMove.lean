import HexGame.Proofs.Board.Line
import HexGame.Proofs.Board.Transition
import HexGame.Proofs.Chain.Outcome
import HexGame.Proofs.MonteCarlo.Accounting

/-!
# The move of a search

The children of the root are the positions after the legal moves, so the move to the best of them is legal.
A search that goes on from a later position of its game keeps a tree of that position, whose visits have
been counted already.
-/
namespace HexGame

namespace MonteCarlo

variable {t : SearchTree Float} {ts : List (SearchTree Float)}

theorem firstBest_mem : firstBest t ts ∈ t :: ts := by
  induction ts generalizing t with
  | nil => simp [firstBest]
  | cons u ts ih =>
    unfold firstBest
    split
    · exact List.mem_cons_of_mem t ih
    · rcases List.mem_cons.mp (ih (t := t)) with h | h
      · exact List.mem_cons.mpr (.inl h)
      · exact List.mem_cons_of_mem t (List.mem_cons_of_mem u h)

namespace Search

variable {G : Type} {s s' : Search G} {c : Config Float} {b : Board} {k n : Nat} {mv : Move}

theorem bestChild_mem (h : t ∈ s.bestChild) : t ∈ s.root.children := by
  unfold bestChild at h
  cases hchildren : s.root.children with
  | nil => simp [hchildren] at h
  | cons u ts =>
    rw [hchildren] at h
    exact Option.some.inj h ▸ firstBest_mem

theorem bestMove_legal [ChoiceSource G] (h : s.Reachable c) (hmv : mv ∈ s.bestMove) :
    mv ∈ s.root.value.board.legalMoves := by
  obtain ⟨t, ht, hmove⟩ := Option.bind_eq_some_iff.mp hmv
  have hchild := bestChild_mem ht
  have hboard := List.mem_map_of_mem (f := (·.value.board)) hchild
  rw [h.accounted.here.boards (List.ne_nil_of_mem hchild)] at hboard
  obtain ⟨m, hm, hplace⟩ := List.mem_map.mp hboard
  rw [← hplace, Board.transitionMove_place hm] at hmove
  exact Option.some.inj hmove ▸ hm

theorem continueFrom_key (s : Search G) (b : Board) : (s.continueFrom b).root.value.board.key = b.key := by
  unfold continueFrom
  simp only
  split
  · rename_i t ht
    exact Board.samePosition_iff.mp (List.find?_some (p := fun t : SearchTree Float => t.value.board.samePosition b) ht)
  · rfl

theorem continueFrom_grown (h : Grown n s.root) (hb : b.Playable) : Grown n (s.continueFrom b).root := by
  rcases (continueFrom_root s b).2 with hroot | ⟨u, hu, hroot⟩
  · exact hroot ▸ grown_fresh hb n
  · exact (h.children u hu).children _ hroot

/-- A search that there is room for in the counts of visits comes to its end, and its move is legal. -/
theorem iterateTimes_legal [ChoiceSource G] (h : s.Reachable c) (hgrown : Grown k s.root)
    (hkey : s.root.value.board.key = b.key) (hn : k + n ≤ Statistic.maxVisits) :
    ∃ s', s.iterateTimes n = .ok s' ∧ s'.Reachable c ∧ Grown (k + n) s'.root ∧
      ∀ mv ∈ s'.bestMove, mv ∈ b.legalMoves := by
  obtain ⟨s', hrun, hs', -⟩ := iterateTimes_spec hgrown hn
  refine ⟨s', hrun, h.iterateTimes hrun, hs', fun mv hmv => ?_⟩
  have hlegal := bestMove_legal (h.iterateTimes hrun) hmv
  rwa [iterateTimes_board hrun, Board.legalMoves_eq_of_key hkey] at hlegal

end Search

end MonteCarlo
end HexGame
