import HexGame.Play.Player
import HexGame.Proofs.Play.Run
import HexGame.Proofs.Play.Seat

/-!
# Agents

An agent is a player of one of the three kinds. Whatever kind it is, it plays from a seat: it passes on to
the seat what the opponent has played, takes the moves of the seat that need no search, and plays those that
it has searched for on the seat (`PlaysSeat`). So its seat follows the game (`PlaysSeat.preserves`), however
far the searches get and whatever they find.
-/
namespace HexGame

variable {P G : Type} [Player P] [ChoiceSource G] {s s' : Seat} {b : Board} {color : Color} {mv : Move}
variable {effort : Effort} {answer : Option Move}

/-- How a player uses the seat that it has. -/
structure PlaysSeat (seat? : P → Option Seat) : Prop where
  told : ∀ {p s s' mv}, seat? p = some s → s.opponentMoved mv = .ok s' →
    ∃ p', Player.opponentMoved mv p = (.ok (), p') ∧ seat? p' = some s'
  endgame : ∀ {p s s' b color mv}, seat? p = some s → s.gameOver = false →
    s.endgameMove = (some mv, s') → s'.CanPlay b color mv →
    ∃ p', (∀ effort, Player.nextMove effort p = (.ok (some mv), p')) ∧
      seat? p' = some { s' with board := b.place mv }
  searched : ∀ {p p' s mv effort}, seat? p = some s → s.gameOver = false → s.endgameMove = (none, s) →
    Player.nextMove effort p = (.ok (some mv), p') →
    mv ∈ s.board.legalMoves ∧ seat? p' = some { s with board := s.board.place mv }

theorem PlaysSeat.preserves {seat? : P → Option Seat} (h : PlaysSeat seat?) (efforts : Nat → Effort)
    (color : Color) :
    Game.Preserves efforts color fun _ b p => ∃ s, seat? p = some s ∧ s.Follows b color where
  moved := by
    rintro n b p p' mv ⟨s, hseat, hs⟩ hopen hturn - hask
    have hover := hs.gameOver_eq hopen hturn
    rcases hs.endgameMove hopen hturn with ⟨mv', s', hmove, hplay⟩ | ⟨hmove, hnone⟩
    · obtain ⟨p₁, hask', hseat'⟩ := h.endgame hseat hover hmove hplay
      obtain ⟨hmv, rfl⟩ := Prod.mk.inj (hask.symm.trans (hask' (efforts n)))
      obtain rfl := Option.some.inj (Except.ok.inj hmv)
      exact ⟨_, hseat', hplay.follows⟩
    · obtain ⟨hlegal, hseat'⟩ := h.searched hseat hover hmove hask
      rw [hs.board_eq] at hlegal hseat'
      exact ⟨_, hseat', (hs.canPlay hturn hnone hlegal).follows⟩
  told := by
    rintro n b p p' mv ⟨s, hseat, hs⟩ - hwaits hlegal htell
    obtain ⟨htold, hs'⟩ := hs.opponentMoved hwaits hlegal
    obtain ⟨p₁, htell', hseat'⟩ := h.told hseat htold
    obtain ⟨-, rfl⟩ := Prod.mk.inj (htell.symm.trans htell')
    exact ⟨_, hseat', hs'⟩

namespace MonteCarloPlayer

variable {p p' : MonteCarloPlayer G} {search : Option (MonteCarlo.Search G)}

omit [ChoiceSource G] in
theorem finish_of_canPlay (h : s.CanPlay b color mv) : p.finish s search (some mv) =
    (.ok (some mv), { p with seat := some { s with board := b.place mv }, search }) := by
  simp [finish, h.play_eq]

omit [ChoiceSource G] in
theorem finish_eq_ok (h : p.finish s search answer = (.ok (some mv), p')) :
    mv ∈ s.board.legalMoves ∧ p'.seat = some { s with board := s.board.place mv } := by
  unfold finish at h
  split at h
  · cases h
  · split at h
    · rename_i s' hplay
      cases h
      obtain ⟨hlegal, rfl⟩ := Seat.play_eq_ok hplay
      exact ⟨hlegal, rfl⟩
    · cases h

theorem nextMove_of_endgame (hseat : p.seat = some s) (hover : s.gameOver = false)
    (hmove : s.endgameMove = (some mv, s')) (hplay : s'.CanPlay b color mv) : p.nextMove effort =
      (.ok (some mv), { p with seat := some { s' with board := b.place mv }, search := none }) := by
  simp [nextMove, hseat, hover, hmove, finish_of_canPlay hplay]

theorem nextMove_of_search (hseat : p.seat = some s) (hover : s.gameOver = false)
    (hmove : s.endgameMove = (none, s)) : p.nextMove effort = p.searchMove effort s := by
  simp [nextMove, hseat, hover, hmove]

theorem playsSeat : PlaysSeat (MonteCarloPlayer.seat (G := G)) where
  told := by
    intro p s s' mv hseat htold
    exact ⟨{ p with seat := some s' }, by simp [Player.opponentMoved, hseat, tellSeat, htold], rfl⟩
  endgame hseat hover hmove hplay := ⟨_, fun _ => nextMove_of_endgame hseat hover hmove hplay, rfl⟩
  searched hseat hover hmove hask := by
    have hsearch := (nextMove_of_search hseat hover hmove).symm.trans hask
    unfold searchMove at hsearch
    simp only at hsearch
    split at hsearch
    · cases hsearch
    · exact finish_eq_ok hsearch

end MonteCarloPlayer

namespace NegamaxPlayer

variable {p p' : NegamaxPlayer}

theorem finish_of_canPlay (h : s.CanPlay b color mv) : p.finish s (some mv) =
    (.ok (some mv), { p with seat := some { s with board := b.place mv } }) := by
  simp [finish, h.play_eq]

theorem finish_eq_ok (h : p.finish s answer = (.ok (some mv), p')) :
    mv ∈ s.board.legalMoves ∧ p'.seat = some { s with board := s.board.place mv } := by
  unfold finish at h
  split at h
  · cases h
  · split at h
    · rename_i s' hplay
      cases h
      obtain ⟨hlegal, rfl⟩ := Seat.play_eq_ok hplay
      exact ⟨hlegal, rfl⟩
    · cases h

theorem nextMove_of_endgame (hseat : p.seat = some s) (hover : s.gameOver = false)
    (hmove : s.endgameMove = (some mv, s')) (hplay : s'.CanPlay b color mv) : p.nextMove effort =
      (.ok (some mv), { p with seat := some { s' with board := b.place mv } }) := by
  simp [nextMove, hseat, hover, hmove, finish_of_canPlay hplay]

theorem nextMove_of_search {o : Negamax.Outcome Float} (hseat : p.seat = some s) (hover : s.gameOver = false)
    (hmove : s.endgameMove = (none, s))
    (hsearch : Negamax.search (p.evaluator.staticScore p.weights) s.board effort.deadline false = .ok o) :
    p.nextMove effort = p.finish s (o.best <|> s.fallbackMove) := by
  simp [nextMove, hseat, hover, hmove, hsearch]

theorem nextMove_of_failure {cause : Interruption} (hseat : p.seat = some s) (hover : s.gameOver = false)
    (hmove : s.endgameMove = (none, s))
    (hsearch : Negamax.search (p.evaluator.staticScore p.weights) s.board effort.deadline false = .error cause) :
    p.nextMove effort = (.error cause, { p with seat := some s }) := by
  simp [nextMove, hseat, hover, hmove, hsearch]

theorem playsSeat : PlaysSeat NegamaxPlayer.seat where
  told := by
    intro p s s' mv hseat htold
    exact ⟨{ p with seat := some s' }, by simp [Player.opponentMoved, hseat, tellSeat, htold], rfl⟩
  endgame hseat hover hmove hplay := ⟨_, fun _ => nextMove_of_endgame hseat hover hmove hplay, rfl⟩
  searched := by
    intro p p' s mv effort hseat hover hmove hask
    cases hsearch : Negamax.search (p.evaluator.staticScore p.weights) s.board effort.deadline false with
    | ok o => exact finish_eq_ok ((nextMove_of_search hseat hover hmove hsearch).symm.trans hask)
    | error cause => cases (nextMove_of_failure hseat hover hmove hsearch).symm.trans hask

end NegamaxPlayer

namespace HybridPlayer

variable {p : HybridPlayer G}

/-- The seat of the player whose turn it is to play. -/
def seat? (p : HybridPlayer G) : Option Seat := if p.switched then p.later.seat else p.opening.seat

omit [ChoiceSource G] in
theorem seat?_handOver (p : HybridPlayer G) : p.handOver.seat? = p.seat? := by
  unfold handOver
  split
  · rename_i s hswitched hseat
    split
    · simp [seat?, hswitched, hseat]
    · rfl
  · rfl

omit [ChoiceSource G] in
theorem seat?_of_switched (h : p.switched = true) : p.seat? = p.later.seat := if_pos h

omit [ChoiceSource G] in
theorem seat?_of_not_switched (h : ¬ p.switched = true) : p.seat? = p.opening.seat := if_neg h

theorem opponentMoved_eq (mv : Move) (p : HybridPlayer G) : Player.opponentMoved mv p =
    if p.switched then
      ((Player.opponentMoved mv p.later).1, { p with later := (Player.opponentMoved mv p.later).2 })
    else
      ((Player.opponentMoved mv p.opening).1, { p with opening := (Player.opponentMoved mv p.opening).2 }) :=
  rfl

theorem nextMove_eq (effort : Effort) (p : HybridPlayer G) : Player.nextMove effort p =
    if p.handOver.switched then
      ((Player.nextMove effort p.handOver.later).1,
        { p.handOver with later := (Player.nextMove effort p.handOver.later).2 })
    else
      ((Player.nextMove effort p.handOver.opening).1,
        { p.handOver with opening := (Player.nextMove effort p.handOver.opening).2 }) :=
  rfl

/-- Both players use the seat as they should, so the one whose turn it is does. -/
theorem playsSeat : PlaysSeat (HybridPlayer.seat? (G := G)) where
  told := by
    intro p s s' mv hseat htold
    rw [opponentMoved_eq]
    by_cases hswitched : p.switched = true
    · rw [seat?_of_switched hswitched] at hseat
      obtain ⟨later, htell, hseat'⟩ := MonteCarloPlayer.playsSeat.told hseat htold
      rw [if_pos hswitched, htell]
      exact ⟨{ p with later }, rfl, (if_pos hswitched).trans hseat'⟩
    · rw [seat?_of_not_switched hswitched] at hseat
      obtain ⟨opening, htell, hseat'⟩ := NegamaxPlayer.playsSeat.told hseat htold
      rw [if_neg hswitched, htell]
      exact ⟨{ p with opening }, rfl, (if_neg hswitched).trans hseat'⟩
  endgame := by
    intro p s s' b color mv hseat hover hmove hplay
    rw [← seat?_handOver] at hseat
    by_cases hswitched : p.handOver.switched = true
    · rw [seat?_of_switched hswitched] at hseat
      obtain ⟨later, hask, hseat'⟩ := MonteCarloPlayer.playsSeat.endgame hseat hover hmove hplay
      refine ⟨{ p.handOver with later }, fun effort => ?_, (if_pos hswitched).trans hseat'⟩
      rw [nextMove_eq, if_pos hswitched, hask]
    · rw [seat?_of_not_switched hswitched] at hseat
      obtain ⟨opening, hask, hseat'⟩ := NegamaxPlayer.playsSeat.endgame hseat hover hmove hplay
      refine ⟨{ p.handOver with opening }, fun effort => ?_, (if_neg hswitched).trans hseat'⟩
      rw [nextMove_eq, if_neg hswitched, hask]
  searched := by
    intro p p' s mv effort hseat hover hmove hask
    rw [← seat?_handOver] at hseat
    rw [nextMove_eq] at hask
    by_cases hswitched : p.handOver.switched = true
    · rw [if_pos hswitched] at hask
      rw [seat?_of_switched hswitched] at hseat
      obtain ⟨hanswer, rfl⟩ := Prod.mk.inj hask
      obtain ⟨hlegal, hseat'⟩ := MonteCarloPlayer.playsSeat.searched hseat hover hmove (Prod.ext hanswer rfl)
      exact ⟨hlegal, (if_pos hswitched).trans hseat'⟩
    · rw [if_neg hswitched] at hask
      rw [seat?_of_not_switched hswitched] at hseat
      obtain ⟨hanswer, rfl⟩ := Prod.mk.inj hask
      obtain ⟨hlegal, hseat'⟩ := NegamaxPlayer.playsSeat.searched hseat hover hmove (Prod.ext hanswer rfl)
      exact ⟨hlegal, (if_neg hswitched).trans hseat'⟩

end HybridPlayer

/-- A player of one of the kinds that there are. -/
inductive Agent (G : Type) where
  | monteCarlo (p : MonteCarloPlayer G)
  | negamax (p : NegamaxPlayer)
  | hybrid (p : HybridPlayer G)

namespace Agent

/-- An answer of a player as one of the agent that it is. -/
def wrap {Q α : Type} (agent : Q → Agent G) (r : α × Q) : α × Agent G := (r.1, agent r.2)

instance : Player (Agent G) where
  name
    | .monteCarlo p => Player.name p
    | .negamax p => Player.name p
    | .hybrid p => Player.name p
  newGame size color
    | .monteCarlo p => wrap .monteCarlo (Player.newGame size color p)
    | .negamax p => wrap .negamax (Player.newGame size color p)
    | .hybrid p => wrap .hybrid (Player.newGame size color p)
  opponentMoved mv
    | .monteCarlo p => wrap .monteCarlo (Player.opponentMoved mv p)
    | .negamax p => wrap .negamax (Player.opponentMoved mv p)
    | .hybrid p => wrap .hybrid (Player.opponentMoved mv p)
  nextMove effort
    | .monteCarlo p => wrap .monteCarlo (Player.nextMove effort p)
    | .negamax p => wrap .negamax (Player.nextMove effort p)
    | .hybrid p => wrap .hybrid (Player.nextMove effort p)

def seat? : Agent G → Option Seat
  | .monteCarlo p => p.seat
  | .negamax p => p.seat
  | .hybrid p => p.seat?

/-- The board that an agent keeps for itself. -/
def board? (a : Agent G) : Option Board := a.seat?.map Seat.board

/-- An agent that has just taken a seat. -/
def seatedAt (s : Seat) : Agent G → Agent G
  | .monteCarlo p => .monteCarlo { p with seat := some s, search := none }
  | .negamax p => .negamax { p with seat := some s }
  | .hybrid p =>
    .hybrid ⟨{ p.opening with seat := some s }, { p.later with seat := none, search := none }, p.switchAt, false⟩

theorem newGame_eq {size : Nat} (h : Seat.take size color = .ok s) (a : Agent G) :
    Player.newGame size color a = (.ok (), a.seatedAt s) := by
  cases a <;> simp [Player.newGame, wrap, seatedAt, h]

omit [ChoiceSource G] in
theorem seat?_seatedAt (s : Seat) (a : Agent G) : (a.seatedAt s).seat? = some s := by
  cases a <;> rfl

theorem follows_newGame {size : Nat} (h : 0 < size ∧ size ≤ maxSize) {a a' : Agent G}
    (hnew : Player.newGame size color a = (.ok (), a')) :
    ∃ s, a'.seat? = some s ∧ s.Follows (Board.blank size .red h) color := by
  obtain ⟨s, htake, hs⟩ := Seat.follows_take h color
  obtain ⟨-, rfl⟩ := Prod.mk.inj (hnew.symm.trans (newGame_eq htake a))
  exact ⟨s, seat?_seatedAt s a, hs⟩

theorem playsSeat : PlaysSeat (Agent.seat? (G := G)) where
  told := by
    intro a s s' mv hseat htold
    cases a with
    | monteCarlo p =>
      obtain ⟨p', htell, hseat'⟩ := MonteCarloPlayer.playsSeat.told (p := p) hseat htold
      exact ⟨.monteCarlo p', congrArg (wrap .monteCarlo) htell, hseat'⟩
    | negamax p =>
      obtain ⟨p', htell, hseat'⟩ := NegamaxPlayer.playsSeat.told (p := p) hseat htold
      exact ⟨.negamax p', congrArg (wrap .negamax) htell, hseat'⟩
    | hybrid p =>
      obtain ⟨p', htell, hseat'⟩ := HybridPlayer.playsSeat.told (p := p) hseat htold
      exact ⟨.hybrid p', congrArg (wrap .hybrid) htell, hseat'⟩
  endgame := by
    intro a s s' b color mv hseat hover hmove hplay
    cases a with
    | monteCarlo p =>
      obtain ⟨p', hask, hseat'⟩ := MonteCarloPlayer.playsSeat.endgame (p := p) hseat hover hmove hplay
      exact ⟨.monteCarlo p', fun effort => congrArg (wrap .monteCarlo) (hask effort), hseat'⟩
    | negamax p =>
      obtain ⟨p', hask, hseat'⟩ := NegamaxPlayer.playsSeat.endgame (p := p) hseat hover hmove hplay
      exact ⟨.negamax p', fun effort => congrArg (wrap .negamax) (hask effort), hseat'⟩
    | hybrid p =>
      obtain ⟨p', hask, hseat'⟩ := HybridPlayer.playsSeat.endgame (p := p) hseat hover hmove hplay
      exact ⟨.hybrid p', fun effort => congrArg (wrap .hybrid) (hask effort), hseat'⟩
  searched := by
    intro a a' s mv effort hseat hover hmove hask
    cases a with
    | monteCarlo p =>
      obtain ⟨hanswer, rfl⟩ := Prod.mk.inj hask
      exact MonteCarloPlayer.playsSeat.searched (p := p) hseat hover hmove (Prod.ext hanswer rfl)
    | negamax p =>
      obtain ⟨hanswer, rfl⟩ := Prod.mk.inj hask
      exact NegamaxPlayer.playsSeat.searched (p := p) hseat hover hmove (Prod.ext hanswer rfl)
    | hybrid p =>
      obtain ⟨hanswer, rfl⟩ := Prod.mk.inj hask
      exact HybridPlayer.playsSeat.searched (p := p) hseat hover hmove (Prod.ext hanswer rfl)

end Agent

end HexGame
