import HexGame.Play.Seat
import HexGame.Proofs.Chain.Outcome

/-!
# Seats that follow a game

A seat follows a game as long as its board is that of the game and its defense keeps a chain
(`Seat.Follows`). It goes on to do so when it is told of a move and when it plays one. A seat with a virtual
chain always has a move of its defense, and after that move the defense is still there.
-/
namespace HexGame

variable {b : Board} {color : Color} {mv : Move} {s : Seat} {size : Nat}

theorem Board.isEmptyAt_desperateMove (h : mv ∈ b.desperateMove color) :
    b.isEmptyAt mv.cell = true ∧ mv.color = color := by
  obtain ⟨path, -, h⟩ := Option.bind_eq_some_iff.mp h
  obtain ⟨c, hc, h⟩ := Option.bind_eq_some_iff.mp h
  obtain rfl := Option.some.inj h
  exact ⟨List.find?_some hc, rfl⟩

theorem Keeps.before {ps : List Carriers} (h : Keeps (b.place mv) color ps) (he : b.isEmptyAt mv.cell = true)
    (hcolor : mv.color = color.opponent) : Keeps b color ps where
  isOpen p hp := Board.isOpen_iff.mpr fun c hc =>
    ((Board.isEmptyAt_place he).mp (Board.isOpen_iff.mp (h.isOpen p hp) c hc)).2
  distinct := h.distinct
  disjoint := h.disjoint
  spans own hown hfill := by
    rw [← Board.size_place b mv]
    refine h.spans own (fun c hc => hown c ?_) hfill
    exact ((Board.owns_place he).mp hc).resolve_left fun hstone =>
      Color.opponent_ne color (hcolor.symm.trans hstone.2)

namespace Seat

/-- The opponent's last move, until it is answered. -/
def unanswered (s : Seat) : Option Move := if s.board.toMove = s.color then s.lastOpponent else none

/-- The seat of `color` in a game that has come to the board `b`. -/
structure Follows (s : Seat) (b : Board) (color : Color) : Prop where
  board_eq : s.board = b
  color_eq : s.color = color
  last : ∀ mv ∈ s.unanswered, ∃ b₀ : Board, mv ∈ b₀.legalMoves ∧ b = b₀.place mv
  defense : ∀ d ∈ s.defense, ∃ ps, d = ⟨some color, ps⟩ ∧ KeepsUntil b color ps s.unanswered

/-- The seat can play a move in a game that has come to the board `b`. -/
structure CanPlay (s : Seat) (b : Board) (color : Color) (mv : Move) : Prop where
  board_eq : s.board = b
  legal : mv ∈ b.legalMoves
  follows : Follows { s with board := b.place mv } (b.place mv) color

theorem follows_take (h : 0 < size ∧ size ≤ maxSize) (color : Color) :
    ∃ s, take size color = .ok s ∧ s.Follows (Board.blank size .red h) color := by
  refine ⟨⟨Board.blank size .red h, color, none, none⟩, ?_, rfl, rfl, ?_, by simp⟩
  · simp [take, Board.tryNew, h, bind, Except.bind, pure, Except.pure]
  · simp [unanswered]

theorem unanswered_of_waiting (hboard : s.board = b) (hcolor : s.color = color)
    (hwaits : b.toMove = color.opponent) : s.unanswered = none := by
  unfold unanswered
  rw [hboard, hcolor, hwaits, if_neg (Color.opponent_ne color)]

theorem unanswered_of_turn (hboard : s.board = b) (hcolor : s.color = color) (hturn : b.toMove = color) :
    s.unanswered = s.lastOpponent := by
  unfold unanswered
  rw [hboard, hcolor, hturn, if_pos rfl]

theorem CanPlay.play_eq (h : s.CanPlay b color mv) : s.play mv = .ok { s with board := b.place mv } := by
  simp [play, h.board_eq, Board.play_of_mem_legalMoves h.legal, bind, Except.bind, pure, Except.pure]

theorem play_eq_ok {s' : Seat} (h : s.play mv = .ok s') :
    mv ∈ s.board.legalMoves ∧ s' = { s with board := s.board.place mv } := by
  obtain ⟨next, hplay, h⟩ := bind_eq_ok.mp h
  obtain rfl := Except.ok.inj h
  unfold Board.play at hplay
  split at hplay
  · rename_i next' hlegal
    obtain ⟨hmv, rfl⟩ := Board.tryPlay_eq_ok_iff.mp hlegal
    obtain rfl := Except.ok.inj hplay
    exact ⟨hmv, rfl⟩
  · cases hplay

theorem defend_of_respond {d d' : Defense}
    (hd : s.defense = some d ∨ s.defense = none ∧ Defense.find s.board s.color = some d)
    (hreply : d.respond s.lastOpponent = (some mv, d')) (he : s.board.isEmptyAt mv.cell.wrapped = true) :
    s.defend = (some mv, { s with defense := some d' }) := by
  unfold defend
  rcases hd with hd | ⟨hd, hfind⟩
  · simp only [hd, hreply, he, if_true]
  · simp only [hd, hfind, hreply, he, if_true]

namespace Follows

theorem gameOver_eq (h : s.Follows b color) (hopen : b.winner = none) (hturn : b.toMove = color) :
    s.gameOver = false := by
  simp [gameOver, h.board_eq, h.color_eq, hopen, hturn]

theorem opponentMoved (h : s.Follows b color) (hwaits : b.toMove = color.opponent)
    (hmv : mv ∈ b.legalMoves) :
    s.opponentMoved mv = .ok { s with board := b.place mv, lastOpponent := some mv } ∧
      Follows { s with board := b.place mv, lastOpponent := some mv } (b.place mv) color := by
  have hcolor : mv.color = color.opponent := (Board.mem_legalMoves.mp hmv).2.trans hwaits
  have hturn : (b.place mv).toMove = color := by
    rw [Board.toMove_place, hcolor, Color.opponent_opponent]
  have hlast := unanswered_of_turn (s := { s with board := b.place mv, lastOpponent := some mv }) rfl
    h.color_eq hturn
  refine ⟨?_, rfl, h.color_eq, fun mv' hmv' => ?_, fun d hd => ?_⟩
  · unfold Seat.opponentMoved
    rw [if_neg (by simp [hcolor, h.color_eq]), h.board_eq, Board.tryPlay_of_mem hmv]
  · rw [hlast] at hmv'
    obtain rfl := Option.some.inj hmv'
    exact ⟨b, hmv, rfl⟩
  · obtain ⟨ps, rfl, hkeeps⟩ := h.defense d hd
    rw [unanswered_of_waiting h.board_eq h.color_eq hwaits] at hkeeps
    exact ⟨ps, rfl, hlast ▸ ⟨b, hkeeps, (Board.mem_legalMoves.mp hmv).1, hcolor, rfl⟩⟩

theorem canPlay (h : s.Follows b color) (hturn : b.toMove = color) (hnone : s.defense = none)
    (hmv : mv ∈ b.legalMoves) : s.CanPlay b color mv := by
  have hcolor : mv.color = color := (Board.mem_legalMoves.mp hmv).2.trans hturn
  have hlast := unanswered_of_waiting (s := { s with board := b.place mv }) rfl h.color_eq
    (by rw [Board.toMove_place, hcolor])
  exact ⟨h.board_eq, hmv, rfl, h.color_eq, by simp [hlast], by simp [hnone]⟩

/-- A chain that is found after the opponent's move was kept before it as well. -/
theorem keepsUntil_safeCells {path : List Cell} (h : s.Follows b color) (hturn : b.toMove = color)
    (hpath : b.findChain color .virtual = some path) :
    KeepsUntil b color (safeCells path color) s.unanswered := by
  have hkeeps := Keeps.of_findChain hpath
  cases hlast : s.unanswered with
  | none => exact hkeeps
  | some mv =>
    obtain ⟨b₀, hmv, rfl⟩ := h.last mv hlast
    have hcolor : mv.color = color.opponent := by
      rw [← hturn, Board.toMove_place, Color.opponent_opponent]
    have he := (Board.mem_legalMoves.mp hmv).1
    exact ⟨b₀, hkeeps.before he hcolor, he, hcolor, rfl⟩

theorem defend_eq_some (h : s.Follows b color) (hopen : b.winner = none) (hturn : b.toMove = color)
    (hsecured : s.defense.isSome = true ∨ b.isConnected color .virtual = true) :
    ∃ mv d, s.defend = (some mv, { s with defense := some d }) ∧
      CanPlay { s with defense := some d } b color mv := by
  have hlast := unanswered_of_turn h.board_eq h.color_eq hturn
  obtain ⟨ps, hdefense, hkeeps⟩ : ∃ ps, (s.defense = some ⟨some color, ps⟩ ∨
      s.defense = none ∧ Defense.find s.board s.color = some ⟨some color, ps⟩) ∧
        KeepsUntil b color ps s.unanswered := by
    cases hd : s.defense with
    | some d =>
      obtain ⟨ps, rfl, hkeeps⟩ := h.defense d hd
      exact ⟨ps, .inl rfl, hkeeps⟩
    | none =>
      have hchain : b.isConnected color .virtual = true := hsecured.resolve_left (by simp [hd])
      obtain ⟨path, hpath⟩ := Option.isSome_iff_exists.mp hchain
      exact ⟨safeCells path color, .inr ⟨rfl, by simp [Defense.find, h.board_eq, h.color_eq, hpath]⟩,
        h.keepsUntil_safeCells hturn hpath⟩
  rcases hkeeps.respond with ⟨rfl, -⟩ | ⟨c, ps', hreply, he, -, hkeeps'⟩
  · -- with no bridge left the chain would be complete
    exact absurd hkeeps.keeps_nil.isConnected (by simp [Board.winner_eq_none_iff.mp hopen color])
  · rw [hlast] at hreply
    have hcell : s.board.isEmptyAt c.wrapped = true := by
      rw [Board.wrapped_of_contains (Board.isEmptyAt_iff.mp he).1, h.board_eq]
      exact he
    have hwaits := unanswered_of_waiting
      (s := { s with board := b.place ⟨c, color⟩, defense := some ⟨some color, ps'⟩ }) rfl h.color_eq
      (Board.toMove_place b ⟨c, color⟩)
    refine ⟨⟨c, color⟩, ⟨some color, ps'⟩, defend_of_respond hdefense hreply hcell, h.board_eq,
      Board.mem_legalMoves.mpr ⟨he, hturn.symm⟩, rfl, h.color_eq, by simp [hwaits], fun d hd => ?_⟩
    obtain rfl := Option.some.inj hd
    exact ⟨ps', rfl, hwaits ▸ hkeeps'⟩

theorem defend_eq_none (h : s.Follows b color) (hnone : s.defense = none)
    (hfree : b.isConnected color .virtual = false) : s.defend = (none, s) := by
  have hfind : Defense.find s.board s.color = none := by
    rw [h.board_eq, h.color_eq, Defense.find, Option.map_eq_none_iff]
    simpa [Board.isConnected] using hfree
  unfold defend
  simp only [hnone, hfind]
  rw [← hnone]

/-- The moves that need no search can be played, and where there is none the seat stays as it is. -/
theorem endgameMove (h : s.Follows b color) (hopen : b.winner = none) (hturn : b.toMove = color) :
    (∃ mv s', s.endgameMove = (some mv, s') ∧ s'.CanPlay b color mv) ∨
      (s.endgameMove = (none, s) ∧ s.defense = none) := by
  unfold Seat.endgameMove
  by_cases hsecured : s.defense.isSome = true ∨ b.isConnected color .virtual = true
  · obtain ⟨mv, d, hdefend, hplay⟩ := h.defend_eq_some hopen hturn hsecured
    exact .inl ⟨mv, _, by rw [hdefend], hplay⟩
  · simp only [not_or, Bool.not_eq_true, Option.isSome_eq_false_iff, Option.isNone_iff_eq_none] at hsecured
    rw [h.defend_eq_none hsecured.1 hsecured.2]
    simp only [h.board_eq, h.color_eq]
    cases hmove : b.desperateMove color with
    | none => exact .inr ⟨rfl, hsecured.1⟩
    | some mv =>
      obtain ⟨he, hcolor⟩ := Board.isEmptyAt_desperateMove hmove
      exact .inl ⟨mv, s, rfl, h.canPlay hturn hsecured.1
        (Board.mem_legalMoves.mpr ⟨he, hcolor.trans hturn.symm⟩)⟩

theorem fallbackMove (h : s.Follows b color) (hopen : b.winner = none) :
    ∃ mv ∈ b.legalMoves, s.fallbackMove = some mv := by
  unfold Seat.fallbackMove
  rw [h.board_eq]
  cases hmoves : b.legalMoves with
  | nil => exact absurd hmoves (Board.legalMoves_ne_nil_of_winner_eq_none hopen)
  | cons mv moves => exact ⟨mv, List.mem_cons_self, rfl⟩

theorem chosen_legal (h : s.Follows b color) (hopen : b.winner = none) {found : Option Move}
    (hfound : ∀ mv, found = some mv → mv ∈ b.legalMoves) :
    ∃ mv ∈ b.legalMoves, (found <|> s.fallbackMove) = some mv := by
  cases found with
  | some mv => exact ⟨mv, hfound mv rfl, rfl⟩
  | none => exact h.fallbackMove hopen

end Follows

end Seat
end HexGame
