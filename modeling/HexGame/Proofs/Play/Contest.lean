import HexGame.Proofs.Negamax.Calls
import HexGame.Proofs.Play.Ready

/-!
# Games between agents

Two agents whose searches cannot fail play a legal game to its end. One of them wins, since a full board has
a winner, and at every moment the boards that they keep for themselves are that of the referee. A search
fails when its visits run out of room, and the game ends with it.
-/
namespace HexGame

variable {G G' : Type} [ChoiceSource G] [ChoiceSource G'] {efforts : Nat → Effort} {size n m : Nat}
variable {b b' : Board} {moves : List Move} {color : Color}

/-- Whose move the one after `n` moves is. -/
def moverAfter (n : Nat) : Color := if n % 2 = 0 then .red else .blue

theorem moverAfter_succ (n : Nat) : moverAfter (n + 1) = (moverAfter n).opponent := by
  rcases Nat.mod_two_eq_zero_or_one n with heven | hodd
  · have hnext : (n + 1) % 2 = 1 := by omega
    simp [moverAfter, heven, hnext, Color.opponent]
  · have hnext : (n + 1) % 2 = 0 := by omega
    simp [moverAfter, hodd, hnext, Color.opponent]

/-- The iterations of the searches of one player for the first `n` moves of a game. -/
def iterationsBefore (efforts : Nat → Effort) (color : Color) : Nat → Nat
  | 0 => 0
  | n + 1 => iterationsBefore efforts color n + if moverAfter n = color then (efforts n).iterations else 0

theorem iterationsBefore_mono (h : n ≤ m) :
    iterationsBefore efforts color n ≤ iterationsBefore efforts color m := by
  induction h with
  | refl => exact Nat.le_refl _
  | step _ ih => exact Nat.le_trans ih (Nat.le_add_right _ _)

namespace Agent

/-- The agent is ready after `n` moves of a game on so many cells, and has room for the visits of a game. -/
structure ReadyAt (efforts : Nat → Effort) (cells : Nat) (color : Color) (n : Nat) (b : Board) (a : Agent G) :
    Prop where
  count : n + b.emptyCells = cells
  turn : b.toMove = moverAfter n
  room : a.growsTree = true → iterationsBefore efforts color cells ≤ Statistic.maxVisits
  ready : a.Ready (iterationsBefore efforts color n) b color

theorem toMove_place {mv : Move} (hturn : b.toMove = moverAfter n) (hmv : mv ∈ b.legalMoves) :
    (b.place mv).toMove = moverAfter (n + 1) := by
  rw [Board.toMove_place_of_mem hmv, moverAfter_succ, ← hturn, Board.toMove, Color.opponent_opponent]

theorem reliable (efforts : Nat → Effort) (cells : Nat) (color : Color) :
    Game.Reliable efforts color (ReadyAt (G := G) efforts cells color) where
  moves := by
    rintro n b a ⟨hcells, hmover, hroom, ha⟩ hopen hturn
    have hempty := Board.legalMoves_ne_nil_iff.mp (Board.legalMoves_ne_nil_of_winner_eq_none hopen)
    have hmono : iterationsBefore efforts color (n + 1) ≤ iterationsBefore efforts color cells :=
      iterationsBefore_mono (by omega)
    have hspent : iterationsBefore efforts color (n + 1) =
        iterationsBefore efforts color n + (efforts n).iterations := by
      rw [iterationsBefore, if_pos (hmover.symm.trans hturn)]
    rw [hspent] at hmono
    obtain ⟨mv, a', hask, hmv, hkind, ha'⟩ :=
      ha.nextMove hopen hturn fun hgrows => Nat.le_trans hmono (hroom hgrows)
    have hless := Board.emptyCells_place (Board.mem_legalMoves.mp hmv).1
    exact ⟨mv, a', hask, hmv, by omega, toMove_place hmover hmv, hkind ▸ hroom, hspent ▸ ha'⟩
  accepts := by
    rintro n b a mv ⟨hcells, hmover, hroom, ha⟩ hopen hwaits hmv
    obtain ⟨a', htell, hkind, ha'⟩ := ha.opponentMoved hopen hwaits hmv
    have hless := Board.emptyCells_place (Board.mem_legalMoves.mp hmv).1
    exact ⟨a', htell, by omega, toMove_place hmover hmv, hkind ▸ hroom,
      ha'.mono (iterationsBefore_mono (Nat.le_succ n))⟩

end Agent

/-- If no static score is NaN and the visits of each agent's tree have room for all iterations of its searches, a
game between two agents is legal and has a winner, and at all times both agents keep the board of the referee. -/
theorem Game.play_has_winner (red : Agent G) (blue : Agent G') (efforts : Nat → Effort)
    (h : 0 < size ∧ size ≤ maxSize) (hred : red.ScoresNumbers (Board.blank size .red h))
    (hblue : blue.ScoresNumbers (Board.blank size .red h))
    (hroom : red.growsTree = true → iterationsBefore efforts .red (size * size) ≤ Statistic.maxVisits)
    (hroom' : blue.growsTree = true → iterationsBefore efforts .blue (size * size) ≤ Statistic.maxVisits) :
    ∃ g₀ g w, Game.start red blue size = .ok g₀ ∧ Game.play red blue size efforts = .ok g ∧
      g.record.winner = some w ∧ g.board.winner = some w ∧
      (Board.blank size .red h).playAll g.record.moves = .ok g.board ∧
      (∀ (i : Nat) (hi : i < g.record.moves.length),
        g.record.moves[i].color = if i % 2 = 0 then .red else .blue) ∧
      (∃ mv, g.record.moves.getLast? = some mv ∧ mv.color = w) ∧
      (∀ earlier b, earlier <+: g.record.moves → earlier ≠ g.record.moves →
        (Board.blank size .red h).playAll earlier = .ok b → b.winner = none) ∧
      g.record.moves.length ≤ size * size ∧
      Game.Reached efforts g₀ g false ∧ ∀ g' goesOn, Game.Reached efforts g₀ g' goesOn →
        g'.red.board? = some g'.board ∧ g'.blue.board? = some g'.board := by
  obtain ⟨s, htake, hs⟩ := Seat.follows_take h .red
  obtain ⟨s', htake', hs'⟩ := Seat.follows_take h .blue
  let b₀ := Board.blank size .red h
  let g₀ : Game (Agent G) (Agent G') := ⟨b₀, red.seatedAt s, blue.seatedAt s', [], none⟩
  have hstart : Game.start red blue size = .ok g₀ :=
    Game.start_eq_ok.mpr ⟨h, _, _, Agent.newGame_eq htake red, Agent.newGame_eq htake' blue, rfl⟩
  have hopen : b₀.winner = none := Board.winner_blank size .red h
  have hcells : b₀.emptyCells = size * size := Board.emptyCells_blank size .red h
  have hred₀ : Agent.ReadyAt efforts (size * size) .red 0 b₀ g₀.red :=
    ⟨by omega, rfl, fun hgrows => hroom (Agent.growsTree_seatedAt s red ▸ hgrows), Agent.ready_seatedAt hs hred⟩
  have hblue₀ : Agent.ReadyAt efforts (size * size) .blue 0 b₀ g₀.blue :=
    ⟨by omega, rfl, fun hgrows => hroom' (Agent.growsTree_seatedAt s' blue ▸ hgrows),
      Agent.ready_seatedAt hs' hblue⟩
  have hreliable := Agent.reliable (G := G) efforts (size * size) .red
  have hreliable' := Agent.reliable (G := G') efforts (size * size) .blue
  obtain ⟨g, mv, before, hplay, hend, hmoves, hwon⟩ :=
    Game.Reached.start.exists_won hstart hreliable hreliable' rfl hopen hred₀ hblue₀
  obtain ⟨hline, hearlier⟩ := hend.line rfl rfl hopen
  have hcount := hend.emptyCells_add
  refine ⟨g₀, g, mv.color, hstart, hplay, hwon, ?_, hline, fun i hi => ?_, ⟨mv, ?_, rfl⟩, hearlier, ?_, hend,
    fun g' goesOn hg' => ?_⟩
  · rw [← (hend.winner_eq rfl hopen).1, hwon]
  · exact Board.color_of_playAll hline i hi
  · simp [Game.record, hmoves]
  · simp only [Game.record, List.length_reverse]
    have hnil : g₀.moves.length = 0 := rfl
    have hboard : g₀.board.emptyCells = size * size := hcells
    omega
  · have hon : goesOn = true ∨ g'.winner ≠ none := by
      cases goesOn with
      | true => exact .inl rfl
      | false =>
        obtain ⟨mv', -, -, hwon'⟩ := hg'.last hreliable hreliable' rfl hopen hred₀ hblue₀
        exact .inr (by simp [hwon'])
    have hred' := hg'.preserves Game.redView hreliable.preserves rfl hopen hred₀ hon
    have hblue' := hg'.preserves Game.blueView hreliable'.preserves rfl hopen hblue₀ hon
    exact ⟨hred'.ready.board_eq, hblue'.ready.board_eq⟩

/-- Agents for a short game: one looks ahead all the time, the other one up to the second stone. -/
def lookingAhead : NegamaxPlayer := ⟨Negamax.patternless, .forPatterns 0, none⟩

def steadyAgent : Agent Generator := .negamax lookingAhead

def switchingAgent : Agent Generator := .hybrid (.make lookingAhead (.make .default (.ofSeed 1)) 2)

theorem Game.play_has_winner_fourCells :
    ∃ g w, Game.play steadyAgent switchingAgent 2 (fun _ => ⟨5, .never⟩) = .ok g ∧
      g.record.winner = some w ∧ g.board.winner = some w := by
  have hscores : Negamax.ScoresNumbers Negamax.patternless (.forPatterns 0) Negamax.fourCells :=
    fun j b hb hopen => Negamax.staticScore_fourCells hb hopen
  obtain ⟨-, g, w, -, hplay, hrecord, hwinner, -⟩ :=
    Game.play_has_winner steadyAgent switchingAgent (fun _ => ⟨5, .never⟩) two_le_maxSize hscores hscores
      (fun _ => by decide) fun _ => by decide
  exact ⟨g, w, hplay, hrecord, hwinner⟩

/-! ## Searches without room -/

theorem Game.play_eq_error {R B : Type} [Player R] [Player B] {red red' : R} {blue : B} {g₀ : Game R B}
    {cause : Interruption} (hstart : Game.start red blue size = .ok g₀)
    (hask : Player.nextMove (efforts 0) g₀.red = (.error cause, red')) :
    Game.play red blue size efforts = .error cause := by
  obtain ⟨h, _, _, -, -, rfl⟩ := Game.start_eq_ok.mp hstart
  have hturn : (Board.blank size .red h).toMove = .red := rfl
  simp only [Game.play, hstart, Game.playOn, Game.step, hturn, Game.turn, List.length_nil]
  rw [hask]
  rfl

/-- On the smallest board red has to search for its move. -/
def firstSeat : Seat := ⟨Board.blank 1 .red (by decide), .red, none, none⟩

theorem firstSeat_searches : firstSeat.gameOver = false ∧ firstSeat.endgameMove = (none, firstSeat) := by
  obtain ⟨s, htake, hs⟩ := Seat.follows_take (show 0 < 1 ∧ 1 ≤ maxSize by decide) .red
  obtain rfl : firstSeat = s := Except.ok.inj htake
  have hopen := Board.winner_blank 1 .red (by decide)
  refine ⟨hs.gameOver_eq hopen rfl, ?_⟩
  have hnone : firstSeat.endgameMove.1 = none := by decide +kernel
  rcases hs.endgameMove hopen rfl with ⟨mv, s', hmove, -⟩ | ⟨hmove, -⟩
  · rw [hmove] at hnone
    cases hnone
  · exact hmove

/-- A new player of random games. -/
def randomAgent (config : MonteCarlo.Config Float) (source : G) : Agent G := .monteCarlo (.make config source)

/-- No move comes from a search that goes on when its visits have no more room. -/
theorem Game.play_without_room (config : MonteCarlo.Config Float) (source : G) (blue : Agent G')
    (hn : Statistic.maxVisits < n) : ∃ fault, Game.play (randomAgent config source) blue 1 (fun _ => ⟨n, .never⟩) =
      .error (.fault fault) := by
  obtain ⟨s', htake, -⟩ := Seat.follows_take (show 0 < 1 ∧ 1 ≤ maxSize by decide) .blue
  let p : MonteCarloPlayer G := { MonteCarloPlayer.make config source with seat := some firstSeat }
  have hvisits : (MonteCarlo.Search.start firstSeat.board config source).root.value.visits = 0 := rfl
  obtain ⟨fault, hrun⟩ := MonteCarlo.Search.iterateTimes_eq_error (n := n)
    (s := .start firstSeat.board config source) (by omega) (by omega)
  have hask : Player.nextMove ⟨n, .never⟩ p = (.error (.fault fault), _) :=
    (MonteCarloPlayer.nextMove_of_search rfl firstSeat_searches.1 firstSeat_searches.2).trans
      (MonteCarloPlayer.searchMove_eq_error (.afresh rfl) hrun)
  have hstart : Game.start (randomAgent config source) blue 1 =
      .ok ⟨_, .monteCarlo p, blue.seatedAt s', [], none⟩ :=
    Game.start_eq_ok.mpr ⟨by decide, _, _, rfl, Agent.newGame_eq htake blue, rfl⟩
  exact ⟨fault, Game.play_eq_error hstart (congrArg (Agent.wrap .monteCarlo) hask)⟩

/-- A search that counts to `2 ^ 32` fails, though both agents are fit for the game. -/
theorem Game.play_counts_too_far :
    let a := randomAgent .default (Generator.ofSeed 1)
    (∃ h, a.ScoresNumbers (Board.blank 1 .red h)) ∧
      ∃ fault, Game.play a a 1 (fun _ => ⟨2 ^ 32, .never⟩) = .error (.fault fault) :=
  ⟨⟨by decide, trivial⟩, Game.play_without_room .default (Generator.ofSeed 1) _ (by decide)⟩

end HexGame
