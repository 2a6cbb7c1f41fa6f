import Mathlib.Control.Monad.Basic
import HexGame.Proofs.Play.Agent

/-!
# Refused calls

An agent is called again and again, whatever it answered before. A call that it refuses is to leave it as it
was. A seat is replaced only where the call succeeds, and a search that fails follows on nothing but a seat
without a move of its own, so this holds for a single player (`Player.Steady`). It holds for two players who
share a game as well, but for one call: a new game takes the seat from the later player before it is known
whether there can be such a game, and where there cannot the opening player goes on with the seat that it
handed over (`refused_call`).
-/
namespace HexGame

/-- What can be asked of a player. -/
inductive Call where
  | newGame (size : Nat) (color : Color)
  | opponentMoved (mv : Move)
  | nextMove (effort : Effort)

inductive Answer where
  | newGame (result : Except Error Unit)
  | opponentMoved (result : Except MoveError Unit)
  | nextMove (result : Except Interruption (Option Move))
  deriving DecidableEq

/-- The answer is an error. A fault is none: it ends the program. -/
inductive Answer.Refused : Answer → Prop where
  | newGame (cause : Error) : Refused (.newGame (.error cause))
  | opponentMoved (cause : MoveError) : Refused (.opponentMoved (.error cause))
  | nextMove (cause : Error) : Refused (.nextMove (.error (.error cause)))

namespace Call

variable {P : Type} [Player P]

def run : Call → P → Answer × P
  | newGame size color, p => (.newGame (Player.newGame size color p).1, (Player.newGame size color p).2)
  | opponentMoved mv, p => (.opponentMoved (Player.opponentMoved mv p).1, (Player.opponentMoved mv p).2)
  | nextMove effort, p => (.nextMove (Player.nextMove effort p).1, (Player.nextMove effort p).2)

/-- The player after some calls. -/
def after (calls : List Call) (p : P) : P := calls.foldl (fun p c => (c.run p).2) p

end Call

namespace Answer

theorem refused_newGame {result : Except Error Unit} (h : (newGame result).Refused) :
    ∃ cause, result = .error cause := by
  cases h with
  | newGame cause => exact ⟨cause, rfl⟩

theorem refused_opponentMoved {result : Except MoveError Unit} (h : (opponentMoved result).Refused) :
    ∃ cause, result = .error cause := by
  cases h with
  | opponentMoved cause => exact ⟨cause, rfl⟩

theorem refused_nextMove {result : Except Interruption (Option Move)} (h : (nextMove result).Refused) :
    ∃ cause, result = .error (.error cause) := by
  cases h with
  | nextMove cause => exact ⟨cause, rfl⟩

end Answer

theorem Call.run_spec {P : Type} [Player P] {p : P} (sound : P → Prop) (left : Call → P → Prop)
    (hnew : ∀ size color, sound (Player.newGame size color p).2 ∧ ∀ cause,
      (Player.newGame size color p).1 = .error cause → left (.newGame size color) (Player.newGame size color p).2)
    (htold : ∀ mv, sound (Player.opponentMoved mv p).2 ∧ ∀ cause,
      (Player.opponentMoved mv p).1 = .error cause → left (.opponentMoved mv) (Player.opponentMoved mv p).2)
    (hasked : ∀ effort, sound (Player.nextMove effort p).2 ∧ ∀ cause,
      (Player.nextMove effort p).1 = .error (.error cause) → left (.nextMove effort) (Player.nextMove effort p).2)
    (c : Call) : sound (c.run p).2 ∧ ((c.run p).1.Refused → left c (c.run p).2) := by
  cases c with
  | newGame size color =>
    obtain ⟨hsound, hleft⟩ := hnew size color
    refine ⟨hsound, fun hrefused => ?_⟩
    obtain ⟨cause, hcause⟩ := Answer.refused_newGame hrefused
    exact hleft cause hcause
  | opponentMoved mv =>
    obtain ⟨hsound, hleft⟩ := htold mv
    refine ⟨hsound, fun hrefused => ?_⟩
    obtain ⟨cause, hcause⟩ := Answer.refused_opponentMoved hrefused
    exact hleft cause hcause
  | nextMove effort =>
    obtain ⟨hsound, hleft⟩ := hasked effort
    refine ⟨hsound, fun hrefused => ?_⟩
    obtain ⟨cause, hcause⟩ := Answer.refused_nextMove hrefused
    exact hleft cause hcause

/-- A player that keeps to a condition, whatever it is asked, and is left as it was by a call that it
refuses. -/
structure Player.Steady (P : Type) [Player P] (sound : P → Prop) : Prop where
  newGame : ∀ {p}, sound p → ∀ size color, sound (Player.newGame size color p).2 ∧
    ∀ cause, (Player.newGame size color p).1 = .error cause → (Player.newGame size color p).2 = p
  opponentMoved : ∀ {p}, sound p → ∀ mv, sound (Player.opponentMoved mv p).2 ∧
    ∀ cause, (Player.opponentMoved mv p).1 = .error cause → (Player.opponentMoved mv p).2 = p
  nextMove : ∀ {p}, sound p → ∀ effort, sound (Player.nextMove effort p).2 ∧
    ∀ cause, (Player.nextMove effort p).1 = .error (.error cause) → (Player.nextMove effort p).2 = p

theorem Player.Steady.run {P : Type} [Player P] {sound : P → Prop} (h : Player.Steady P sound) {p : P}
    (hp : sound p) (c : Call) : sound (c.run p).2 ∧ ((c.run p).1.Refused → (c.run p).2 = p) :=
  Call.run_spec sound (fun _ p' => p' = p) (h.newGame hp) (h.opponentMoved hp) (h.nextMove hp) c

/-! ## Seats -/

namespace Seat

variable {s s' : Seat} {mv : Move} {b : Board} {color : Color} {size : Nat}

/-- The seat is one of a game on its own board. -/
def Sound (s : Seat) : Prop := s.Follows s.board s.color

theorem Follows.sound (h : s.Follows b color) : s.Sound := by
  obtain rfl := h.board_eq
  obtain rfl := h.color_eq
  exact h

theorem sound_take (h : take size color = .ok s) : s.Sound := by
  unfold take Board.tryNew at h
  by_cases hsize : 0 < size ∧ size ≤ maxSize
  · obtain ⟨s', htake, hs⟩ := follows_take hsize color
    unfold take Board.tryNew at htake
    obtain rfl := Except.ok.inj (htake.symm.trans h)
    exact hs.sound
  · simp [hsize, bind, Except.bind] at h

theorem Sound.opponentMoved (h : s.Sound) (htold : s.opponentMoved mv = .ok s') : s'.Sound := by
  have htold' := htold
  unfold Seat.opponentMoved at htold
  split at htold
  · cases htold
  rename_i hcolor
  split at htold
  · rename_i board hplay
    obtain ⟨hmv, -⟩ := Board.tryPlay_eq_ok_iff.mp hplay
    have hwaits : s.board.toMove = s.color.opponent :=
      (Board.mem_legalMoves.mp hmv).2.symm.trans (Color.eq_opponent_of_ne hcolor)
    obtain ⟨heq, hfollows⟩ := Follows.opponentMoved h hwaits hmv
    obtain rfl := Except.ok.inj (heq.symm.trans htold')
    exact hfollows.sound
  · cases htold

theorem Sound.endgameMove (h : s.Sound) (hover : s.gameOver = false) :
    (∃ mv s', s.endgameMove = (some mv, s') ∧ s'.CanPlay s.board s.color mv) ∨
      (s.endgameMove = (none, s) ∧ ∀ mv s', s.play mv = .ok s' → s'.Sound) := by
  obtain ⟨hopen, hturn⟩ : s.board.winner = none ∧ s.board.toMove = s.color := by simpa [gameOver] using hover
  rcases Follows.endgameMove h hopen hturn with hown | ⟨hmove, hnone⟩
  · exact .inl hown
  · refine .inr ⟨hmove, fun mv s' hplay => ?_⟩
    obtain ⟨hlegal, rfl⟩ := play_eq_ok hplay
    exact (Follows.canPlay h hturn hnone hlegal).follows.sound

end Seat

/-! ## Single players -/

variable {G : Type} [ChoiceSource G] {s : Seat}

theorem sound_of_tellSeat {seat : Option Seat} {mv : Move} (h : ∀ s ∈ seat, s.Sound)
    (htold : tellSeat mv seat = .ok s) : s.Sound := by
  cases seat with
  | none => cases htold
  | some s' => exact (h s' rfl).opponentMoved htold

namespace MonteCarloPlayer

variable {p : MonteCarloPlayer G} {search : Option (MonteCarlo.Search G)}

def Sound (p : MonteCarloPlayer G) : Prop := ∀ s ∈ p.seat, s.Sound

omit [ChoiceSource G] in
theorem sound_of_seat_eq_none (h : p.seat = none) : p.Sound := by simp [Sound, h]

omit [ChoiceSource G] in
theorem finish_spec (answer : Option Move) (hs : s.Sound) (hplay : ∀ mv s', s.play mv = .ok s' → s'.Sound) :
    (p.finish s search answer).2.Sound ∧ ∀ cause, (p.finish s search answer).1 ≠ .error (.error cause) := by
  cases answer with
  | none => simpa [finish, Sound] using hs
  | some mv =>
    cases hmv : s.play mv with
    | ok s' => simpa [finish, hmv, Sound] using hplay mv s' hmv
    | error fault => simpa [finish, hmv, Sound] using hs

theorem nextMove_spec (h : p.Sound) (effort : Effort) :
    (p.nextMove effort).2.Sound ∧ ∀ cause, (p.nextMove effort).1 ≠ .error (.error cause) := by
  cases hseat : p.seat with
  | none => simpa [nextMove, hseat] using h
  | some s =>
    have hs : s.Sound := h s hseat
    cases hover : s.gameOver with
    | true => simpa [nextMove, hseat, hover] using h
    | false =>
      rcases hs.endgameMove hover with ⟨mv, s', hmove, hcan⟩ | ⟨hmove, hplay⟩
      · rw [nextMove_of_endgame hseat hover hmove hcan]
        simpa [Sound] using hcan.follows.sound
      · rw [nextMove_of_search hseat hover hmove]
        unfold searchMove
        simp only
        split
        · simpa [Sound] using hs
        · exact finish_spec _ hs hplay

theorem steady : Player.Steady (MonteCarloPlayer G) Sound where
  newGame {p} h size color := by
    cases htake : Seat.take size color with
    | ok s => simpa [Player.newGame, htake, Sound] using Seat.sound_take htake
    | error cause => simpa [Player.newGame, htake] using h
  opponentMoved {p} h mv := by
    cases htold : tellSeat mv p.seat with
    | ok s => simpa [Player.opponentMoved, htold, Sound] using sound_of_tellSeat h htold
    | error cause => simpa [Player.opponentMoved, htold] using h
  nextMove h effort :=
    ⟨(nextMove_spec h effort).1, fun cause hcause => absurd hcause ((nextMove_spec h effort).2 cause)⟩

end MonteCarloPlayer

namespace NegamaxPlayer

variable {p : NegamaxPlayer}

def Sound (p : NegamaxPlayer) : Prop := ∀ s ∈ p.seat, s.Sound

theorem sound_of_seat_eq_none (h : p.seat = none) : p.Sound := by simp [Sound, h]

theorem finish_spec (answer : Option Move) (hs : s.Sound) (hplay : ∀ mv s', s.play mv = .ok s' → s'.Sound) :
    (p.finish s answer).2.Sound ∧ ∀ cause, (p.finish s answer).1 ≠ .error (.error cause) := by
  cases answer with
  | none => simpa [finish, Sound] using hs
  | some mv =>
    cases hmv : s.play mv with
    | ok s' => simpa [finish, hmv, Sound] using hplay mv s' hmv
    | error fault => simpa [finish, hmv, Sound] using hs

theorem nextMove_spec (h : p.Sound) (effort : Effort) :
    (p.nextMove effort).2.Sound ∧
      ∀ cause, (p.nextMove effort).1 = .error (.error cause) → (p.nextMove effort).2 = p := by
  cases hseat : p.seat with
  | none => simpa [nextMove, hseat] using h
  | some s =>
    have hs : s.Sound := h s hseat
    cases hover : s.gameOver with
    | true => simpa [nextMove, hseat, hover] using h
    | false =>
      rcases hs.endgameMove hover with ⟨mv, s', hmove, hcan⟩ | ⟨hmove, hplay⟩
      · rw [nextMove_of_endgame hseat hover hmove hcan]
        simpa [Sound] using hcan.follows.sound
      · cases hsearch : Negamax.search (p.evaluator.staticScore p.weights) s.board effort.deadline false with
        | ok o =>
          rw [nextMove_of_search hseat hover hmove hsearch]
          obtain ⟨hsound, hnone⟩ := finish_spec (p := p) (o.best <|> s.fallbackMove) hs hplay
          exact ⟨hsound, fun cause hcause => absurd hcause (hnone cause)⟩
        | error cause =>
          rw [nextMove_of_failure hseat hover hmove hsearch, ← hseat]
          exact ⟨h, fun _ _ => rfl⟩

theorem steady : Player.Steady NegamaxPlayer Sound where
  newGame {p} h size color := by
    cases htake : Seat.take size color with
    | ok s => simpa [Player.newGame, htake, Sound] using Seat.sound_take htake
    | error cause => simpa [Player.newGame, htake] using h
  opponentMoved {p} h mv := by
    cases htold : tellSeat mv p.seat with
    | ok s => simpa [Player.opponentMoved, htold, Sound] using sound_of_tellSeat h htold
    | error cause => simpa [Player.opponentMoved, htold] using h
  nextMove := nextMove_spec

end NegamaxPlayer

/-! ## Two players who share a game -/

namespace HybridPlayer

variable {p : HybridPlayer G}

/-- Both seats are sound, and the later player has none before its time. -/
structure Sound (p : HybridPlayer G) : Prop where
  opening : p.opening.Sound
  later : p.later.Sound
  waiting : p.switched = false → p.later.seat = none ∧ p.later.search = none

/-- The opening player is back on the seat that it handed over. -/
def takenBack (p : HybridPlayer G) : HybridPlayer G :=
  { p with later := { p.later with seat := none, search := none }, switched := false }

omit [ChoiceSource G] in
theorem Sound.takenBack (h : p.Sound) : p.takenBack.Sound :=
  ⟨h.opening, MonteCarloPlayer.sound_of_seat_eq_none rfl, fun _ => ⟨rfl, rfl⟩⟩

omit [ChoiceSource G] in
theorem Sound.takenBack_eq (h : p.Sound) (hswitched : p.switched = false) : p.takenBack = p := by
  obtain ⟨hseat, hsearch⟩ := h.waiting hswitched
  obtain ⟨opening, ⟨config, source, seat, search⟩, switchAt, switched⟩ := p
  simp only at hseat hsearch hswitched
  rw [HybridPlayer.takenBack, hseat, hsearch, hswitched]

omit [ChoiceSource G] in
theorem Sound.handOver (h : p.Sound) : p.handOver.Sound := by
  unfold HybridPlayer.handOver
  split
  · rename_i s hswitched hseat
    split
    · exact ⟨h.opening, by simpa [MonteCarloPlayer.Sound] using h.opening s hseat, by simp⟩
    · exact h
  · exact h

omit [ChoiceSource G] in
theorem handOver_eq (h : p.handOver.switched = false) : p.handOver = p := by
  unfold HybridPlayer.handOver at h ⊢
  split at h
  · split at h
    · cases h
    · rename_i hstones
      simp [hstones]
  · rfl

theorem Sound.opponentMoved (h : p.Sound) (mv : Move) : (Player.opponentMoved mv p).2.Sound ∧
    ∀ cause, (Player.opponentMoved mv p).1 = .error cause → (Player.opponentMoved mv p).2 = p := by
  rw [opponentMoved_eq]
  by_cases hswitched : p.switched = true
  · obtain ⟨hlater, hrefused⟩ := MonteCarloPlayer.steady.opponentMoved h.later mv
    rw [if_pos hswitched]
    exact ⟨⟨h.opening, hlater, by simp [hswitched]⟩, fun cause hcause => by simp only [hrefused cause hcause]⟩
  · obtain ⟨hopening, hrefused⟩ := NegamaxPlayer.steady.opponentMoved h.opening mv
    rw [if_neg hswitched]
    exact ⟨⟨hopening, h.later, h.waiting⟩, fun cause hcause => by simp only [hrefused cause hcause]⟩

theorem Sound.nextMove (h : p.Sound) (effort : Effort) : (Player.nextMove effort p).2.Sound ∧
    ∀ cause, (Player.nextMove effort p).1 = .error (.error cause) → (Player.nextMove effort p).2 = p := by
  have hp := h.handOver
  rw [nextMove_eq]
  by_cases hswitched : p.handOver.switched = true
  · obtain ⟨hlater, hnever⟩ := MonteCarloPlayer.nextMove_spec hp.later effort
    rw [if_pos hswitched]
    exact ⟨⟨hp.opening, hlater, by simp [hswitched]⟩, fun cause hcause => absurd hcause (hnever cause)⟩
  · obtain ⟨hopening, hrefused⟩ := NegamaxPlayer.steady.nextMove hp.opening effort
    rw [if_neg hswitched]
    refine ⟨⟨hopening, hp.later, hp.waiting⟩, fun cause hcause => ?_⟩
    simp only [hrefused cause hcause]
    exact handOver_eq (Bool.eq_false_iff.mpr hswitched)

theorem Sound.newGame (h : p.Sound) (size : Nat) (color : Color) : (Player.newGame size color p).2.Sound ∧
    ∀ cause, (Player.newGame size color p).1 = .error cause → (Player.newGame size color p).2 = p.takenBack := by
  obtain ⟨hopening, hrefused⟩ := NegamaxPlayer.steady.newGame h.opening size color
  refine ⟨⟨hopening, h.takenBack.later, fun _ => ⟨rfl, rfl⟩⟩, fun cause hcause => ?_⟩
  exact congrArg (fun opening => { p.takenBack with opening }) (hrefused cause hcause)

/-- Of the calls that are refused only a new game changes anything, once the later player has taken over. -/
theorem Sound.run (h : p.Sound) (c : Call) : (c.run p).2.Sound ∧ ((c.run p).1.Refused → (c.run p).2 = p ∨
    ∃ size color, c = .newGame size color ∧ p.switched = true ∧ (c.run p).2 = p.takenBack) := by
  refine Call.run_spec Sound
    (fun c p' => p' = p ∨ ∃ size color, c = .newGame size color ∧ p.switched = true ∧ p' = p.takenBack)
    (fun size color => (h.newGame size color).imp_right fun hback cause hcause => ?_)
    (fun mv => (h.opponentMoved mv).imp_right fun hsame cause hcause => .inl (hsame cause hcause))
    (fun effort => (h.nextMove effort).imp_right fun hsame cause hcause => .inl (hsame cause hcause)) c
  cases hswitched : p.switched with
  | true => exact .inr ⟨size, color, rfl, rfl, hback cause hcause⟩
  | false => exact .inl ((hback cause hcause).trans (h.takenBack_eq hswitched))

end HybridPlayer

/-! ## Agents -/

namespace Agent

variable {a : Agent G}

/-- An agent that nothing has been asked yet. -/
inductive Fresh : Agent G → Prop where
  | monteCarlo (config : MonteCarlo.Config Float) (source : G) : Fresh (.monteCarlo (.make config source))
  | negamax (catalogue : Catalogue) (weights : ScoreWeights) : Fresh (.negamax (.make catalogue weights))
  | hybrid (catalogue : Catalogue) (weights : ScoreWeights) (config : MonteCarlo.Config Float) (source : G)
      (switchAt : Nat) : Fresh (.hybrid (.make (.make catalogue weights) (.make config source) switchAt))

def Sound : Agent G → Prop
  | .monteCarlo p => p.Sound
  | .negamax p => p.Sound
  | .hybrid p => p.Sound

omit [ChoiceSource G] in
theorem Fresh.sound (h : a.Fresh) : a.Sound := by
  cases h with
  | monteCarlo config source => exact MonteCarloPlayer.sound_of_seat_eq_none rfl
  | negamax catalogue weights => exact NegamaxPlayer.sound_of_seat_eq_none rfl
  | hybrid catalogue weights config source switchAt =>
    exact ⟨NegamaxPlayer.sound_of_seat_eq_none rfl, MonteCarloPlayer.sound_of_seat_eq_none rfl,
      fun _ => ⟨rfl, rfl⟩⟩

theorem run_eq (c : Call) (a : Agent G) : c.run a = match a with
    | .monteCarlo p => wrap .monteCarlo (c.run p)
    | .negamax p => wrap .negamax (c.run p)
    | .hybrid p => wrap .hybrid (c.run p) := by
  cases c <;> cases a <;> rfl

theorem Sound.run (h : a.Sound) (c : Call) : (c.run a).2.Sound ∧ ((c.run a).1.Refused → (c.run a).2 = a ∨
    ∃ p size color, a = .hybrid p ∧ p.switched = true ∧ c = .newGame size color ∧
      (c.run a).2 = .hybrid p.takenBack) := by
  rw [run_eq]
  cases a with
  | monteCarlo p =>
    obtain ⟨hsound, hrefused⟩ := MonteCarloPlayer.steady.run (p := p) h c
    exact ⟨hsound, fun hr => .inl (congrArg monteCarlo (hrefused hr))⟩
  | negamax p =>
    obtain ⟨hsound, hrefused⟩ := NegamaxPlayer.steady.run (p := p) h c
    exact ⟨hsound, fun hr => .inl (congrArg negamax (hrefused hr))⟩
  | hybrid p =>
    obtain ⟨hsound, hrefused⟩ := HybridPlayer.Sound.run (p := p) h c
    refine ⟨hsound, fun hr => (hrefused hr).imp (congrArg hybrid) ?_⟩
    rintro ⟨size, color, rfl, hswitched, hback⟩
    exact ⟨p, size, color, rfl, hswitched, rfl, congrArg hybrid hback⟩

theorem Sound.after (h : a.Sound) (calls : List Call) : (Call.after calls a).Sound := by
  induction calls generalizing a with
  | nil => exact h
  | cons c calls ih => exact ih (h.run c).1

/-- Whatever was asked before, a call that is refused leaves an agent as it was, but for a new game that is
asked of two players after the later one has taken over. -/
theorem refused_call (ha : a.Fresh) (calls : List Call) (c : Call)
    (hrefused : (c.run (Call.after calls a)).1.Refused) :
    (c.run (Call.after calls a)).2 = Call.after calls a ∨
      ∃ p size color, Call.after calls a = .hybrid p ∧ p.switched = true ∧ c = .newGame size color ∧
        (c.run (Call.after calls a)).2 = .hybrid p.takenBack :=
  ((ha.sound.after calls).run c).2 hrefused

/-- Two players, the later of which takes over at once. -/
def takingOver : Agent Generator :=
  .hybrid (.make (.make ⟨[]⟩ (.forPatterns 0)) (.make .default (.ofSeed 1)) 0)

theorem fresh_takingOver : takingOver.Fresh := .hybrid _ _ _ _ _

/-- The later player has moved, and refuses a stone on its own. -/
theorem refused_call_takingOver :
    let a := Call.after [.newGame 2 .red, .nextMove .zero] takingOver
    let c := Call.opponentMoved ⟨⟨0, 0⟩, .blue⟩
    (c.run a).1 = .opponentMoved (.error (.occupied ⟨0, 0⟩)) ∧ (c.run a).2 = a := by
  intro a c
  have hanswer : (c.run a).1 = .opponentMoved (.error (.occupied ⟨0, 0⟩)) := by decide +kernel
  refine ⟨hanswer, (refused_call fresh_takingOver _ c (hanswer ▸ .opponentMoved _)).resolve_right ?_⟩
  rintro ⟨p, size, color, -, -, hc, -⟩
  simp [c] at hc

/-- The later player has won. A new game that is refused takes its seat, and the agent, back on the seat of
the opening player, makes its move once more. -/
theorem refused_new_game_is_noticed :
    let a := Call.after [.newGame 1 .red, .nextMove .zero] takingOver
    let c := Call.newGame 0 .red
    (c.run a).1 = .newGame (.error (.boardSize 0)) ∧ (c.run a).2.board? ≠ a.board? ∧
      (Call.run (.nextMove .zero) a).1 = .nextMove (.ok none) ∧
      (Call.run (.nextMove .zero) (c.run a).2).1 = .nextMove (.ok (some ⟨⟨0, 0⟩, .red⟩)) := by
  decide +kernel

end Agent
end HexGame
