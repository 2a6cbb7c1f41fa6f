import HexGame.Proofs.MonteCarlo.BestMove
import HexGame.Proofs.Negamax.Timed
import HexGame.Proofs.Play.Agent

/-!
# Agents that never fail

An agent is ready when its seat follows the game and its search cannot fail: there is room for the visits of
the tree that it keeps, and its static scores are numbers. A ready agent has a legal move, and it is ready
again after it and after every move of the opponent.
-/
namespace HexGame

variable {G : Type} [ChoiceSource G] {s : Seat} {b : Board} {color : Color} {mv : Move} {effort : Effort}
variable {used more size : Nat}

/-- The search keeps a tree that it has grown in at most so many iterations. -/
structure MonteCarloPlayer.Ready (used : Nat) (b : Board) (color : Color) (p : MonteCarloPlayer G) : Prop where
  seat : ∃ s, p.seat = some s ∧ s.Follows b color
  search : ∀ s ∈ p.search, (∃ c, s.Reachable c) ∧ MonteCarlo.Grown used s.root

structure NegamaxPlayer.Ready (b : Board) (color : Color) (p : NegamaxPlayer) : Prop where
  seat : ∃ s, p.seat = some s ∧ s.Follows b color
  scores : Negamax.ScoresNumbers p.evaluator p.weights b

namespace MonteCarloPlayer

variable {p : MonteCarloPlayer G}

theorem Ready.opponentMoved (h : p.Ready used b color) (hwaits : b.toMove = color.opponent)
    (hmv : mv ∈ b.legalMoves) :
    ∃ p', Player.opponentMoved mv p = (.ok (), p') ∧ p'.Ready used (b.place mv) color := by
  obtain ⟨s, hseat, hs⟩ := h.seat
  obtain ⟨htold, hs'⟩ := hs.opponentMoved hwaits hmv
  refine ⟨{ p with seat := some _ }, ?_, ⟨_, rfl, hs'⟩, h.search⟩
  simp [Player.opponentMoved, hseat, tellSeat, htold]

/-- The search that a player starts with or goes on with, before its iterations. -/
inductive Searches (p : MonteCarloPlayer G) (b : Board) : MonteCarlo.Search G → Prop where
  | afresh (h : p.search = none) : Searches p b (.start b p.config p.source)
  | onward {previous : MonteCarlo.Search G} (h : p.search = some previous) :
      Searches p b (previous.continueFrom b)

omit [ChoiceSource G] in
theorem exists_searches (p : MonteCarloPlayer G) (b : Board) : ∃ search, p.Searches b search := by
  cases h : p.search with
  | none => exact ⟨_, .afresh h⟩
  | some previous => exact ⟨_, .onward h⟩

theorem searchMove_eq {search search' : MonteCarlo.Search G} (hsearch : p.Searches s.board search)
    (hrun : search.iterateTimes effort.iterations = .ok search') :
    p.searchMove effort s = p.finish s (some search') (search'.bestMove <|> s.fallbackMove) := by
  unfold MonteCarloPlayer.searchMove
  cases hsearch with
  | afresh h => simp only [h, hrun]
  | onward h => simp only [h, hrun]

theorem searchMove_eq_error {search : MonteCarlo.Search G} {fault : Fault} (hsearch : p.Searches s.board search)
    (hrun : search.iterateTimes effort.iterations = .error fault) :
    p.searchMove effort s = (.error (.fault fault), { p with seat := some s, search := none }) := by
  unfold MonteCarloPlayer.searchMove
  cases hsearch with
  | afresh h => simp only [h, hrun]
  | onward h => simp only [h, hrun]

theorem Ready.searches {search : MonteCarlo.Search G} (h : p.Ready used b color) (hplay : b.Playable)
    (hsearch : p.Searches b search) : (∃ c, search.Reachable c) ∧ MonteCarlo.Grown used search.root ∧
      search.root.value.board.key = b.key := by
  cases hsearch with
  | afresh _ => exact ⟨⟨p.config, .start b p.source⟩, MonteCarlo.grown_fresh hplay used, rfl⟩
  | onward hprevious =>
    obtain ⟨⟨c, hc⟩, hgrown⟩ := h.search _ hprevious
    exact ⟨⟨c, hc.continueFrom b⟩, MonteCarlo.Search.continueFrom_grown hgrown hplay,
      MonteCarlo.Search.continueFrom_key _ b⟩

theorem Ready.searchMove (h : p.Ready used b color) (hs : s.Follows b color) (hopen : b.winner = none)
    (hturn : b.toMove = color) (hnone : s.defense = none)
    (hroom : used + effort.iterations ≤ Statistic.maxVisits) :
    ∃ mv p', p.searchMove effort s = (.ok (some mv), p') ∧ mv ∈ b.legalMoves ∧
      p'.Ready (used + effort.iterations) (b.place mv) color := by
  obtain ⟨search, hsearch⟩ := p.exists_searches b
  obtain ⟨⟨c, hc⟩, hgrown, hkey⟩ := h.searches (Board.playable_of_winner_eq_none hopen) hsearch
  obtain ⟨search', hrun, hc', hgrown', hbest⟩ := MonteCarlo.Search.iterateTimes_legal hc hgrown hkey hroom
  obtain ⟨mv, hmv, hchosen⟩ := hs.chosen_legal hopen hbest
  have hcan := hs.canPlay hturn hnone hmv
  refine ⟨mv, { p with seat := some { s with board := b.place mv }, search := some search' }, ?_, hmv,
    ⟨_, rfl, hcan.follows⟩, ?_⟩
  · rw [searchMove_eq (hs.board_eq ▸ hsearch) hrun, hchosen]
    exact finish_of_canPlay hcan
  · rintro s' ⟨⟩
    exact ⟨⟨c, hc'⟩, hgrown'⟩

theorem Ready.nextMove (h : p.Ready used b color) (hopen : b.winner = none) (hturn : b.toMove = color)
    (hroom : used + effort.iterations ≤ Statistic.maxVisits) :
    ∃ mv p', Player.nextMove effort p = (.ok (some mv), p') ∧ mv ∈ b.legalMoves ∧
      p'.Ready (used + effort.iterations) (b.place mv) color := by
  obtain ⟨s, hseat, hs⟩ := h.seat
  have hover := hs.gameOver_eq hopen hturn
  rcases hs.endgameMove hopen hturn with ⟨mv, s', hmove, hplay⟩ | ⟨hmove, hnone⟩
  · exact ⟨mv, _, nextMove_of_endgame hseat hover hmove hplay, hplay.legal, ⟨_, rfl, hplay.follows⟩,
      by simp⟩
  · obtain ⟨mv, p', hsearch, hmv, hp'⟩ := h.searchMove hs hopen hturn hnone hroom
    exact ⟨mv, p', (nextMove_of_search hseat hover hmove).trans hsearch, hmv, hp'⟩

theorem Ready.mono (h : p.Ready used b color) (hle : used ≤ more) : p.Ready more b color :=
  ⟨h.seat, fun s hs => ⟨(h.search s hs).1, (h.search s hs).2.mono hle⟩⟩

end MonteCarloPlayer

namespace NegamaxPlayer

variable {p : NegamaxPlayer}

theorem Ready.opponentMoved (h : p.Ready b color) (hopen : b.winner = none)
    (hwaits : b.toMove = color.opponent) (hmv : mv ∈ b.legalMoves) :
    ∃ p', Player.opponentMoved mv p = (.ok (), p') ∧ p'.Ready (b.place mv) color := by
  obtain ⟨s, hseat, hs⟩ := h.seat
  obtain ⟨htold, hs'⟩ := hs.opponentMoved hwaits hmv
  refine ⟨{ p with seat := some _ }, ?_, ⟨_, rfl, hs'⟩,
    h.scores.place (Board.isDecided_of_winner_eq_none hopen) hmv⟩
  simp [Player.opponentMoved, hseat, tellSeat, htold]

theorem Ready.nextMove (h : p.Ready b color) (hopen : b.winner = none) (hturn : b.toMove = color) :
    ∃ mv p', Player.nextMove effort p = (.ok (some mv), p') ∧ mv ∈ b.legalMoves ∧
      p'.Ready (b.place mv) color := by
  obtain ⟨s, hseat, hs⟩ := h.seat
  have hover := hs.gameOver_eq hopen hturn
  have hundecided := Board.isDecided_of_winner_eq_none hopen
  rcases hs.endgameMove hopen hturn with ⟨mv, s', hmove, hplay⟩ | ⟨hmove, hnone⟩
  · exact ⟨mv, _, nextMove_of_endgame hseat hover hmove hplay, hplay.legal, ⟨_, rfl, hplay.follows⟩,
      h.scores.place hundecided hplay.legal⟩
  · obtain ⟨o, hsearch, hbest⟩ := Negamax.search_legal h.scores effort.deadline false
    obtain ⟨mv, hmv, hchosen⟩ := hs.chosen_legal hopen hbest
    have hcan := hs.canPlay hturn hnone hmv
    refine ⟨mv, { p with seat := some { s with board := b.place mv } },
      (nextMove_of_search hseat hover hmove (hs.board_eq ▸ hsearch)).trans ?_, hmv, ⟨_, rfl, hcan.follows⟩,
      h.scores.place hundecided hmv⟩
    rw [hchosen]
    exact finish_of_canPlay hcan

end NegamaxPlayer

/-- The player whose turn it is to play is ready. -/
structure HybridPlayer.Ready (used : Nat) (b : Board) (color : Color) (p : HybridPlayer G) : Prop where
  opening : ¬ p.switched = true → p.opening.Ready b color
  later : p.switched = true → p.later.Ready used b color

namespace HybridPlayer

variable {p : HybridPlayer G}

theorem Ready.handOver (h : p.Ready used b color) : p.handOver.Ready used b color := by
  unfold HybridPlayer.handOver
  split
  · rename_i s hswitched hseat
    have hopening := h.opening (by simp [hswitched])
    split
    · exact ⟨fun hnot => absurd rfl hnot, fun _ => ⟨hseat ▸ hopening.seat, by simp⟩⟩
    · exact h
  · exact h

theorem Ready.opponentMoved (h : p.Ready used b color) (hopen : b.winner = none)
    (hwaits : b.toMove = color.opponent) (hmv : mv ∈ b.legalMoves) :
    ∃ p', Player.opponentMoved mv p = (.ok (), p') ∧ p'.Ready used (b.place mv) color := by
  rw [opponentMoved_eq]
  by_cases hswitched : p.switched = true
  · obtain ⟨later, htell, hready⟩ := (h.later hswitched).opponentMoved hwaits hmv
    rw [if_pos hswitched, htell]
    exact ⟨{ p with later }, rfl, fun hnot => absurd hswitched hnot, fun _ => hready⟩
  · obtain ⟨opening, htell, hready⟩ := (h.opening hswitched).opponentMoved hopen hwaits hmv
    rw [if_neg hswitched, htell]
    exact ⟨{ p with opening }, rfl, fun _ => hready, fun hyes => absurd hyes hswitched⟩

theorem Ready.nextMove (h : p.Ready used b color) (hopen : b.winner = none) (hturn : b.toMove = color)
    (hroom : used + effort.iterations ≤ Statistic.maxVisits) :
    ∃ mv p', Player.nextMove effort p = (.ok (some mv), p') ∧ mv ∈ b.legalMoves ∧
      p'.Ready (used + effort.iterations) (b.place mv) color := by
  rw [nextMove_eq]
  by_cases hswitched : p.handOver.switched = true
  · obtain ⟨mv, later, hask, hmv, hready⟩ := (h.handOver.later hswitched).nextMove hopen hturn hroom
    rw [if_pos hswitched, hask]
    exact ⟨mv, { p.handOver with later }, rfl, hmv, fun hnot => absurd hswitched hnot, fun _ => hready⟩
  · obtain ⟨mv, opening, hask, hmv, hready⟩ := (h.handOver.opening hswitched).nextMove hopen hturn
    rw [if_neg hswitched, hask]
    exact ⟨mv, { p.handOver with opening }, rfl, hmv, fun _ => hready, fun hyes => absurd hyes hswitched⟩

theorem Ready.mono (h : p.Ready used b color) (hle : used ≤ more) : p.Ready more b color :=
  ⟨h.opening, fun hswitched => (h.later hswitched).mono hle⟩

end HybridPlayer

namespace Agent

def Ready (used : Nat) (b : Board) (color : Color) : Agent G → Prop
  | .monteCarlo p => p.Ready used b color
  | .negamax p => p.Ready b color
  | .hybrid p => p.Ready used b color

/-- What an agent needs of its evaluator on the way from a board: static scores that are numbers. -/
def ScoresNumbers (b : Board) : Agent G → Prop
  | .monteCarlo _ => True
  | .negamax p => Negamax.ScoresNumbers p.evaluator p.weights b
  | .hybrid p => Negamax.ScoresNumbers p.opening.evaluator p.opening.weights b

/-- The agent counts visits, in a tree of random games. -/
def growsTree : Agent G → Bool
  | .negamax _ => false
  | _ => true

variable {a : Agent G}

namespace Ready

theorem mono (h : a.Ready used b color) (hle : used ≤ more) : a.Ready more b color := by
  cases a with
  | monteCarlo p => exact MonteCarloPlayer.Ready.mono h hle
  | negamax p => exact h
  | hybrid p => exact HybridPlayer.Ready.mono h hle

theorem opponentMoved (h : a.Ready used b color) (hopen : b.winner = none)
    (hwaits : b.toMove = color.opponent) (hmv : mv ∈ b.legalMoves) :
    ∃ a', Player.opponentMoved mv a = (.ok (), a') ∧ a'.growsTree = a.growsTree ∧
      a'.Ready used (b.place mv) color := by
  cases a with
  | monteCarlo p =>
    obtain ⟨p', htell, hp'⟩ := MonteCarloPlayer.Ready.opponentMoved h hwaits hmv
    exact ⟨.monteCarlo p', congrArg (wrap .monteCarlo) htell, rfl, hp'⟩
  | negamax p =>
    obtain ⟨p', htell, hp'⟩ := NegamaxPlayer.Ready.opponentMoved h hopen hwaits hmv
    exact ⟨.negamax p', congrArg (wrap .negamax) htell, rfl, hp'⟩
  | hybrid p =>
    obtain ⟨p', htell, hp'⟩ := HybridPlayer.Ready.opponentMoved h hopen hwaits hmv
    exact ⟨.hybrid p', congrArg (wrap .hybrid) htell, rfl, hp'⟩

theorem nextMove (h : a.Ready used b color) (hopen : b.winner = none) (hturn : b.toMove = color)
    (hroom : a.growsTree = true → used + effort.iterations ≤ Statistic.maxVisits) :
    ∃ mv a', Player.nextMove effort a = (.ok (some mv), a') ∧ mv ∈ b.legalMoves ∧
      a'.growsTree = a.growsTree ∧ a'.Ready (used + effort.iterations) (b.place mv) color := by
  cases a with
  | monteCarlo p =>
    obtain ⟨mv, p', hask, hmv, hp'⟩ := MonteCarloPlayer.Ready.nextMove h hopen hturn (hroom rfl)
    exact ⟨mv, .monteCarlo p', congrArg (wrap .monteCarlo) hask, hmv, rfl, hp'⟩
  | negamax p =>
    obtain ⟨mv, p', hask, hmv, hp'⟩ := NegamaxPlayer.Ready.nextMove h hopen hturn
    exact ⟨mv, .negamax p', congrArg (wrap .negamax) hask, hmv, rfl, hp'⟩
  | hybrid p =>
    obtain ⟨mv, p', hask, hmv, hp'⟩ := HybridPlayer.Ready.nextMove h hopen hturn (hroom rfl)
    exact ⟨mv, .hybrid p', congrArg (wrap .hybrid) hask, hmv, rfl, hp'⟩

end Ready

theorem ready_seatedAt (hs : s.Follows b color) (hscores : a.ScoresNumbers b) :
    (a.seatedAt s).Ready 0 b color := by
  cases a with
  | monteCarlo p => exact ⟨⟨s, rfl, hs⟩, by simp⟩
  | negamax p => exact ⟨⟨s, rfl, hs⟩, hscores⟩
  | hybrid p => exact ⟨fun _ => ⟨⟨s, rfl, hs⟩, hscores⟩, by simp⟩

omit [ChoiceSource G] in
theorem growsTree_seatedAt (s : Seat) (a : Agent G) : (a.seatedAt s).growsTree = a.growsTree := by
  cases a <;> rfl

theorem Ready.seat (h : a.Ready used b color) : ∃ s, a.seat? = some s ∧ s.Follows b color := by
  cases a with
  | monteCarlo p => exact MonteCarloPlayer.Ready.seat h
  | negamax p => exact NegamaxPlayer.Ready.seat h
  | hybrid p =>
    by_cases hswitched : p.switched = true
    · obtain ⟨s, hseat, hs⟩ := (HybridPlayer.Ready.later h hswitched).seat
      exact ⟨s, (if_pos hswitched).trans hseat, hs⟩
    · obtain ⟨s, hseat, hs⟩ := (HybridPlayer.Ready.opening h hswitched).seat
      exact ⟨s, (if_neg hswitched).trans hseat, hs⟩

theorem Ready.board_eq (h : a.Ready used b color) : a.board? = some b := by
  obtain ⟨s, hseat, hs⟩ := h.seat
  simp [board?, hseat, hs.board_eq]

end Agent

end HexGame
