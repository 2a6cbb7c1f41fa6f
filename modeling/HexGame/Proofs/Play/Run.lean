import HexGame.Play.Game
import HexGame.Proofs.Chain.Outcome

/-!
# Runs of a game

A turn either adds a legal move to the game, which is told to the player who waits, or ends the game because
the mover has none (`Played`). A run goes on from turn to turn as long as nobody has won (`Reached`). What
either player sees of a turn does not depend on who the other one is (`View`).
-/
namespace HexGame
namespace Game

variable {R B P : Type} [Player R] [Player B] [Player P]
variable {g g' g₀ gEnd : Game R B} {effort : Effort} {efforts : Nat → Effort} {goesOn : Bool}
variable {mv : Move} {answer : Option Move} {red : R} {blue : B} {size n : Nat}

/-- One turn and the move that is played in it, if there is one. -/
inductive Played (effort : Effort) (g : Game R B) : Option Move → Game R B → Prop where
  | red {mv : Move} {red : R} {blue : B} (hturn : g.board.toMove = .red)
      (hask : Player.nextMove effort g.red = (.ok (some mv), red)) (hlegal : mv ∈ g.board.legalMoves)
      (htell : Player.opponentMoved mv g.blue = (.ok (), blue)) :
      Played effort g (some mv) ⟨g.board.place mv, red, blue, mv :: g.moves, (g.board.place mv).winner⟩
  | blue {mv : Move} {red : R} {blue : B} (hturn : g.board.toMove = .blue)
      (hask : Player.nextMove effort g.blue = (.ok (some mv), blue)) (hlegal : mv ∈ g.board.legalMoves)
      (htell : Player.opponentMoved mv g.red = (.ok (), red)) :
      Played effort g (some mv) ⟨g.board.place mv, red, blue, mv :: g.moves, (g.board.place mv).winner⟩
  | redDeclines {red : R} (hturn : g.board.toMove = .red)
      (hask : Player.nextMove effort g.red = (.ok none, red)) : Played effort g none { g with red }
  | blueDeclines {blue : B} (hturn : g.board.toMove = .blue)
      (hask : Player.nextMove effort g.blue = (.ok none, blue)) : Played effort g none { g with blue }

theorem lift_eq_ok {α : Type} {x : Except MoveError α} {a : α} : lift x = .ok a ↔ x = .ok a := by
  cases x <;> simp [lift]

theorem turn_eq_ok {Q : Type} [Player Q] {b : Board} {mover mover' : P} {waiting waiting' : Q}
    {next : Option (Move × Board)} : turn effort b mover waiting = .ok (next, mover', waiting') ↔
      (Player.nextMove effort mover = (.ok none, mover') ∧ waiting' = waiting ∧ next = none) ∨
      ∃ mv, Player.nextMove effort mover = (.ok (some mv), mover') ∧ mv ∈ b.legalMoves ∧
        Player.opponentMoved mv waiting = (.ok (), waiting') ∧ next = some (mv, b.place mv) := by
  constructor
  · intro h
    unfold turn at h
    split at h
    · cases h
    · rename_i hask
      cases h
      exact .inl ⟨hask, rfl, rfl⟩
    · rename_i mv p hask
      obtain ⟨b', hplay, h⟩ := bind_eq_ok.mp h
      obtain ⟨hlegal, rfl⟩ := Board.tryPlay_eq_ok_iff.mp (lift_eq_ok.mp hplay)
      obtain ⟨⟨⟩, htell, h⟩ := bind_eq_ok.mp h
      cases h
      exact .inr ⟨mv, hask, hlegal, Prod.ext (lift_eq_ok.mp htell) rfl, rfl⟩
  · rintro (⟨hask, rfl, rfl⟩ | ⟨mv, hask, hlegal, htell, rfl⟩)
    · simp [turn, hask, pure, Except.pure]
    · simp [turn, hask, htell, Board.tryPlay_of_mem hlegal, lift, bind, Except.bind, pure, Except.pure]

/-- A turn goes well exactly when a move is played in it or its player declines. -/
theorem step_eq_ok : g.step effort = .ok (g', goesOn) ↔
    ∃ answer, Played effort g answer g' ∧ goesOn = (answer.isSome && g'.winner.isNone) := by
  unfold step
  constructor
  · intro h
    split at h
    · rename_i hturn
      obtain ⟨⟨next, red, blue⟩, hrun, h⟩ := bind_eq_ok.mp h
      rcases turn_eq_ok.mp hrun with ⟨hask, rfl, rfl⟩ | ⟨mv, hask, hlegal, htell, rfl⟩
      · cases h
        exact ⟨none, .redDeclines hturn hask, rfl⟩
      · cases h
        exact ⟨some mv, .red hturn hask hlegal htell, rfl⟩
    · rename_i hturn
      obtain ⟨⟨next, blue, red⟩, hrun, h⟩ := bind_eq_ok.mp h
      rcases turn_eq_ok.mp hrun with ⟨hask, rfl, rfl⟩ | ⟨mv, hask, hlegal, htell, rfl⟩
      · cases h
        exact ⟨none, .blueDeclines hturn hask, rfl⟩
      · cases h
        exact ⟨some mv, .blue hturn hask hlegal htell, rfl⟩
  · rintro ⟨answer, h, rfl⟩
    cases h with
    | red hturn hask hlegal htell =>
      simp only [hturn]
      exact bind_eq_ok.mpr ⟨_, turn_eq_ok.mpr (.inr ⟨_, hask, hlegal, htell, rfl⟩), rfl⟩
    | blue hturn hask hlegal htell =>
      simp only [hturn]
      exact bind_eq_ok.mpr ⟨_, turn_eq_ok.mpr (.inr ⟨_, hask, hlegal, htell, rfl⟩), rfl⟩
    | redDeclines hturn hask =>
      simp only [hturn]
      exact bind_eq_ok.mpr ⟨_, turn_eq_ok.mpr (.inl ⟨hask, rfl, rfl⟩), rfl⟩
    | blueDeclines hturn hask =>
      simp only [hturn]
      exact bind_eq_ok.mpr ⟨_, turn_eq_ok.mpr (.inl ⟨hask, rfl, rfl⟩), rfl⟩

namespace Played

theorem legal (h : Played effort g (some mv) g') : mv ∈ g.board.legalMoves := by
  cases h <;> assumption

theorem game_eq (h : Played effort g (some mv) g') :
    g'.board = g.board.place mv ∧ g'.moves = mv :: g.moves ∧ g'.winner = (g.board.place mv).winner := by
  cases h <;> exact ⟨rfl, rfl, rfl⟩

theorem declined_eq (h : Played effort g none g') :
    g'.board = g.board ∧ g'.moves = g.moves ∧ g'.winner = g.winner := by
  cases h <;> exact ⟨rfl, rfl, rfl⟩

end Played

/-! ## What a player sees -/

structure View (color : Color) (player : Game R B → P) : Prop where
  moved : ∀ {effort g g' mv}, Played effort g (some mv) g' → g.board.toMove = color →
    Player.nextMove effort (player g) = (.ok (some mv), player g')
  told : ∀ {effort g g' mv}, Played effort g (some mv) g' → g.board.toMove = color.opponent →
    Player.opponentMoved mv (player g) = (.ok (), player g')
  declined : ∀ {effort g g'}, Played effort g none g' → g.board.toMove = color →
    Player.nextMove effort (player g) = (.ok none, player g')

theorem redView : View .red (Game.red : Game R B → R) where
  moved h hturn := by
    cases h with
    | red _ hask => exact hask
    | blue hturn' => exact Color.noConfusion (hturn'.symm.trans hturn)
  told h hturn := by
    cases h with
    | red hturn' => exact Color.noConfusion (hturn'.symm.trans hturn)
    | blue _ _ _ htell => exact htell
  declined h hturn := by
    cases h with
    | redDeclines _ hask => exact hask
    | blueDeclines hturn' => exact Color.noConfusion (hturn'.symm.trans hturn)

theorem blueView : View .blue (Game.blue : Game R B → B) where
  moved h hturn := by
    cases h with
    | red hturn' => exact Color.noConfusion (hturn'.symm.trans hturn)
    | blue _ hask => exact hask
  told h hturn := by
    cases h with
    | red _ _ _ htell => exact htell
    | blue hturn' => exact Color.noConfusion (hturn'.symm.trans hturn)
  declined h hturn := by
    cases h with
    | redDeclines hturn' => exact Color.noConfusion (hturn'.symm.trans hturn)
    | blueDeclines _ hask => exact hask

/-- A relation between a player and the board after `n` moves that holds on from turn to turn. -/
structure Preserves (efforts : Nat → Effort) (color : Color) (I : Nat → Board → P → Prop) : Prop where
  moved : ∀ {n b p p' mv}, I n b p → b.winner = none → b.toMove = color → mv ∈ b.legalMoves →
    Player.nextMove (efforts n) p = (.ok (some mv), p') → I (n + 1) (b.place mv) p'
  told : ∀ {n b p p' mv}, I n b p → b.winner = none → b.toMove = color.opponent → mv ∈ b.legalMoves →
    Player.opponentMoved mv p = (.ok (), p') → I (n + 1) (b.place mv) p'

/-- A relation under which a player always has a legal move and accepts those of the opponent, and which
holds again afterwards. -/
structure Reliable (efforts : Nat → Effort) (color : Color) (I : Nat → Board → P → Prop) : Prop where
  moves : ∀ {n b p}, I n b p → b.winner = none → b.toMove = color → ∃ mv p',
    Player.nextMove (efforts n) p = (.ok (some mv), p') ∧ mv ∈ b.legalMoves ∧ I (n + 1) (b.place mv) p'
  accepts : ∀ {n b p mv}, I n b p → b.winner = none → b.toMove = color.opponent → mv ∈ b.legalMoves →
    ∃ p', Player.opponentMoved mv p = (.ok (), p') ∧ I (n + 1) (b.place mv) p'

variable {color : Color} {player : Game R B → P} {I : Nat → Board → P → Prop}

theorem Reliable.preserves (h : Reliable efforts color I) : Preserves efforts color I where
  moved := by
    intro n b p p' mv hp hopen hturn _ hask
    obtain ⟨mv', p₁, hask', -, hp₁⟩ := h.moves hp hopen hturn
    obtain ⟨hmv, rfl⟩ := Prod.mk.inj (hask.symm.trans hask')
    exact Option.some.inj (Except.ok.inj hmv) ▸ hp₁
  told := by
    intro n b p p' mv hp hopen hwaits hlegal htell
    obtain ⟨p₁, htell', hp₁⟩ := h.accepts hp hopen hwaits hlegal
    obtain ⟨-, rfl⟩ := Prod.mk.inj (htell.symm.trans htell')
    exact hp₁

theorem Played.preserves (hview : View color player) (hI : Preserves efforts color I)
    (h : Played (efforts g.moves.length) g (some mv) g') (hopen : g.board.winner = none)
    (hg : I g.moves.length g.board (player g)) : I g'.moves.length g'.board (player g') := by
  obtain ⟨hboard, hmoves, -⟩ := h.game_eq
  rw [hboard, hmoves]
  by_cases hturn : g.board.toMove = color
  · exact hI.moved hg hopen hturn h.legal (hview.moved h hturn)
  · have hwaits := Color.eq_opponent_of_ne hturn
    exact hI.told hg hopen hwaits h.legal (hview.told h hwaits)

/-! ## Runs -/

/-- The games that a run comes to, and whether it goes on from there. -/
inductive Reached (efforts : Nat → Effort) (g₀ : Game R B) : Game R B → Bool → Prop where
  | start : Reached efforts g₀ g₀ true
  | step {g g' : Game R B} {goesOn : Bool} (h : Reached efforts g₀ g true)
      (hrun : g.step (efforts g.moves.length) = .ok (g', goesOn)) : Reached efforts g₀ g' goesOn

namespace Reached

theorem trans (h : Reached efforts g₀ g true) (h' : Reached efforts g g' goesOn) :
    Reached efforts g₀ g' goesOn := by
  induction h' with
  | start => exact h
  | step _ hrun ih => exact ih.step hrun

theorem winner_eq (h : Reached efforts g₀ g goesOn) (h₀ : g₀.winner = none)
    (hopen : g₀.board.winner = none) :
    g.winner = g.board.winner ∧ (goesOn = true → g.board.winner = none) := by
  induction h with
  | start => exact ⟨h₀.trans hopen.symm, fun _ => hopen⟩
  | step _ hrun ih =>
    obtain ⟨answer, hplayed, rfl⟩ := step_eq_ok.mp hrun
    cases answer with
    | none =>
      obtain ⟨hboard, -, hwinner⟩ := hplayed.declined_eq
      exact ⟨by rw [hwinner, hboard]; exact ih.1, by simp⟩
    | some mv =>
      obtain ⟨hboard, -, hwinner⟩ := hplayed.game_eq
      rw [hboard, hwinner]
      exact ⟨rfl, by simp⟩

/-- The moves of a run are a line of play, and no board on it but the last one has a winner. -/
theorem line (h : Reached efforts g₀ g goesOn) (h₀ : g₀.moves = []) (hwinner : g₀.winner = none)
    (hopen : g₀.board.winner = none) :
    g₀.board.playAll g.moves.reverse = .ok g.board ∧
      ∀ earlier b, earlier <+: g.moves.reverse → earlier ≠ g.moves.reverse →
        g₀.board.playAll earlier = .ok b → b.winner = none := by
  induction h with
  | start =>
    rw [h₀]
    exact ⟨rfl, fun earlier b hprefix hne => absurd (List.prefix_nil.mp hprefix) hne⟩
  | @step g g' goesOn h hrun ih =>
    obtain ⟨answer, hplayed, rfl⟩ := step_eq_ok.mp hrun
    cases answer with
    | none =>
      obtain ⟨hboard, hmoves, -⟩ := hplayed.declined_eq
      rw [hboard, hmoves]
      exact ih
    | some mv =>
      obtain ⟨hboard, hmoves, -⟩ := hplayed.game_eq
      rw [hboard, hmoves, List.reverse_cons]
      refine ⟨Board.playAll_concat.mpr ⟨_, ih.1, hplayed.legal, rfl⟩, fun earlier b hprefix hne hline => ?_⟩
      rcases List.prefix_concat_iff.mp hprefix with heq | hprefix
      · exact absurd heq hne
      · by_cases heq : earlier = g.moves.reverse
        · rw [heq, ih.1] at hline
          exact Except.ok.inj hline ▸ (h.winner_eq hwinner hopen).2 rfl
        · exact ih.2 earlier b hprefix heq hline

theorem emptyCells_add (h : Reached efforts g₀ g goesOn) :
    g.board.emptyCells + g.moves.length = g₀.board.emptyCells + g₀.moves.length := by
  induction h with
  | start => rfl
  | step _ hrun ih =>
    obtain ⟨answer, hplayed, -⟩ := step_eq_ok.mp hrun
    cases answer with
    | none =>
      obtain ⟨hboard, hmoves, -⟩ := hplayed.declined_eq
      rwa [hboard, hmoves]
    | some mv =>
      obtain ⟨hboard, hmoves, -⟩ := hplayed.game_eq
      have hcells := Board.emptyCells_place (Board.mem_legalMoves.mp hplayed.legal).1
      rw [hboard, hmoves, List.length_cons]
      omega

/-- What is preserved by every turn holds in every game that a run comes to, up to one that its player
declined to go on with. -/
theorem preserves (h : Reached efforts g₀ g goesOn) (hview : View color player)
    (hI : Preserves efforts color I) (hwinner : g₀.winner = none) (hopen : g₀.board.winner = none)
    (hg₀ : I g₀.moves.length g₀.board (player g₀)) (hon : goesOn = true ∨ g.winner ≠ none) :
    I g.moves.length g.board (player g) := by
  induction h with
  | start => exact hg₀
  | @step g g' goesOn h hrun ih =>
    have hg := ih (.inl rfl)
    obtain ⟨answer, hplayed, rfl⟩ := step_eq_ok.mp hrun
    have hbefore := (h.winner_eq hwinner hopen)
    cases answer with
    | none =>
      rw [hplayed.declined_eq.2.2, hbefore.1, hbefore.2 rfl] at hon
      simp at hon
    | some mv => exact hplayed.preserves hview hI (hbefore.2 rfl) hg

theorem head (h : Reached efforts g g' goesOn) : (g' = g ∧ goesOn = true) ∨
    ∃ g₁ on, g.step (efforts g.moves.length) = .ok (g₁, on) ∧
      (on = true ∧ Reached efforts g₁ g' goesOn ∨ on = goesOn ∧ g₁ = g') := by
  induction h with
  | start => exact .inl ⟨rfl, rfl⟩
  | @step g₁ g₂ on h hrun ih =>
    rcases ih with ⟨rfl, -⟩ | ⟨g₃, on', hstep, ⟨rfl, h'⟩ | ⟨rfl, rfl⟩⟩
    · exact .inr ⟨g₂, on, hrun, .inr ⟨rfl, rfl⟩⟩
    · exact .inr ⟨g₃, true, hstep, .inl ⟨rfl, h'.step hrun⟩⟩
    · exact .inr ⟨g₃, true, hstep, .inl ⟨rfl, .step .start hrun⟩⟩

theorem linear (h : Reached efforts g₀ g true) (h' : Reached efforts g₀ g' goesOn) :
    Reached efforts g g' goesOn ∨ goesOn = true ∧ Reached efforts g' g true := by
  induction h' with
  | start => exact .inr ⟨rfl, h⟩
  | @step g₁ g₂ on h₁ hrun ih =>
    rcases ih with hafter | ⟨-, hbefore⟩
    · exact .inl (hafter.step hrun)
    · rcases hbefore.head with ⟨rfl, -⟩ | ⟨g₃, on', hstep, hcase⟩
      · exact .inl (.step .start hrun)
      · obtain ⟨rfl, rfl⟩ := Prod.mk.inj (Except.ok.inj (hstep.symm.trans hrun))
        rcases hcase with ⟨rfl, hrest⟩ | ⟨rfl, rfl⟩
        · exact .inr ⟨rfl, hrest⟩
        · exact .inl .start

end Reached

theorem playOn_eq_ok (h : g.playOn efforts n = .ok gEnd) : Reached efforts g gEnd false ∨
    Reached efforts g gEnd true ∧ gEnd.moves.length = g.moves.length + n := by
  induction n generalizing g with
  | zero =>
    obtain rfl := Except.ok.inj h
    exact .inr ⟨.start, rfl⟩
  | succ n ih =>
    obtain ⟨⟨g', goesOn⟩, hrun, h⟩ := bind_eq_ok.mp h
    cases goesOn with
    | false =>
      obtain rfl := Except.ok.inj h
      exact .inl (.step .start hrun)
    | true =>
      obtain ⟨answer, hplayed, hon⟩ := step_eq_ok.mp hrun
      have hstep : Reached efforts g g' true := .step .start hrun
      rcases ih h with hend | ⟨hend, hcount⟩
      · exact .inl (hstep.trans hend)
      · refine .inr ⟨hstep.trans hend, ?_⟩
        cases answer with
        | none => simp at hon
        | some mv =>
          rw [hcount, hplayed.game_eq.2.1, List.length_cons]
          omega

/-- A run goes on from a game without a winner in which a move was made in every turn. -/
theorem reached_of_playOn (h : g.playOn efforts n = .ok gEnd) (hcount : gEnd.moves.length = g.moves.length + n)
    (hnone : gEnd.winner = none) : Reached efforts g gEnd true := by
  induction n generalizing g with
  | zero => exact Except.ok.inj h ▸ .start
  | succ n ih =>
    obtain ⟨⟨g', goesOn⟩, hrun, h⟩ := bind_eq_ok.mp h
    obtain ⟨answer, hplayed, hon⟩ := step_eq_ok.mp hrun
    cases goesOn with
    | false =>
      obtain rfl := Except.ok.inj h
      cases answer with
      | none =>
        rw [hplayed.declined_eq.2.1] at hcount
        omega
      | some mv => simp [hnone] at hon
    | true =>
      cases answer with
      | none => simp at hon
      | some mv =>
        have hmoves := hplayed.game_eq.2.1
        refine (Reached.step .start hrun).trans (ih h ?_)
        rw [hmoves, List.length_cons]
        omega

theorem exists_playOn (hstep : ∀ g', Reached efforts g g' true →
      ∃ r, g'.step (efforts g'.moves.length) = .ok r) (n : Nat) : ∃ gEnd, g.playOn efforts n = .ok gEnd := by
  induction n generalizing g with
  | zero => exact ⟨g, rfl⟩
  | succ n ih =>
    obtain ⟨⟨g', goesOn⟩, hrun⟩ := hstep g .start
    cases goesOn with
    | false => exact ⟨g', bind_eq_ok.mpr ⟨_, hrun, rfl⟩⟩
    | true =>
      have hreached : Reached efforts g g' true := .step .start hrun
      obtain ⟨gEnd, hend⟩ := ih fun g'' hg'' => hstep g'' (hreached.trans hg'')
      exact ⟨gEnd, bind_eq_ok.mpr ⟨_, hrun, hend⟩⟩

/-! ## Reliable players -/

section

variable {J : Nat → Board → R → Prop} {K : Nat → Board → B → Prop}

/-- Two reliable players make no turn that fails or is declined. -/
theorem Reached.exists_played (h : Reached efforts g₀ g true) (hJ : Reliable efforts .red J)
    (hK : Reliable efforts .blue K) (hwinner : g₀.winner = none) (hopen : g₀.board.winner = none)
    (hred : J g₀.moves.length g₀.board g₀.red) (hblue : K g₀.moves.length g₀.board g₀.blue) :
    ∃ mv g', Played (efforts g.moves.length) g (some mv) g' := by
  have hred' := h.preserves redView hJ.preserves hwinner hopen hred (.inl rfl)
  have hblue' := h.preserves blueView hK.preserves hwinner hopen hblue (.inl rfl)
  have hopen' := (h.winner_eq hwinner hopen).2 rfl
  cases hturn : g.board.toMove with
  | red =>
    obtain ⟨mv, red, hask, hlegal, -⟩ := hJ.moves hred' hopen' hturn
    obtain ⟨blue, htell, -⟩ := hK.accepts hblue' hopen' hturn hlegal
    exact ⟨mv, _, .red hturn hask hlegal htell⟩
  | blue =>
    obtain ⟨mv, blue, hask, hlegal, -⟩ := hK.moves hblue' hopen' hturn
    obtain ⟨red, htell, -⟩ := hJ.accepts hred' hopen' hturn hlegal
    exact ⟨mv, _, .blue hturn hask hlegal htell⟩

theorem Reached.last (h : Reached efforts g₀ g false) (hJ : Reliable efforts .red J)
    (hK : Reliable efforts .blue K) (hwinner : g₀.winner = none) (hopen : g₀.board.winner = none)
    (hred : J g₀.moves.length g₀.board g₀.red) (hblue : K g₀.moves.length g₀.board g₀.blue) :
    ∃ mv before, g.moves = mv :: before ∧ g.winner = some mv.color := by
  cases h with
  | step h hrun =>
    obtain ⟨mv, g', hplayed⟩ := h.exists_played hJ hK hwinner hopen hred hblue
    have hrun' := step_eq_ok.mpr ⟨some mv, hplayed, rfl⟩
    obtain ⟨rfl, hon⟩ := Prod.mk.inj (Except.ok.inj (hrun.symm.trans hrun'))
    obtain ⟨-, hmoves, hwon⟩ := hplayed.game_eq
    have hcell := (Board.mem_legalMoves.mp hplayed.legal).1
    refine ⟨mv, _, hmoves, ?_⟩
    rcases Board.winner_place ((h.winner_eq hwinner hopen).2 rfl) hcell with hnone | hsome
    · simp [hwon, hnone] at hon
    · exact hwon.trans hsome

end

/-! ## Whole games -/

theorem start_eq_ok : start red blue size = .ok g ↔
    ∃ (h : 0 < size ∧ size ≤ maxSize) (red' : R) (blue' : B), Player.newGame size .red red = (.ok (), red') ∧
      Player.newGame size .blue blue = (.ok (), blue') ∧
      g = ⟨Board.blank size .red h, red', blue', [], none⟩ := by
  unfold start Board.tryNew
  by_cases hsize : 0 < size ∧ size ≤ maxSize
  · rw [dif_pos hsize]
    rcases hred : Player.newGame size .red red with ⟨_ | ⟨⟩, red'⟩ <;>
      rcases hblue : Player.newGame size .blue blue with ⟨_ | ⟨⟩, blue'⟩ <;>
      simp [bind, Except.bind, pure, Except.pure, hsize, eq_comm]
  · simp [hsize, bind, Except.bind]

theorem play_eq_ok : play red blue size efforts = .ok gEnd ↔
    ∃ g₀, start red blue size = .ok g₀ ∧ g₀.playOn efforts (size * size + 1) = .ok gEnd := by
  unfold play
  cases start red blue size <;> simp

/-- A whole game is a run to its end: no player has a move left once the board is full. -/
theorem reached_of_play (h : play red blue size efforts = .ok gEnd) :
    ∃ g₀, start red blue size = .ok g₀ ∧ Reached efforts g₀ gEnd false := by
  obtain ⟨g₀, hstart, hrun⟩ := play_eq_ok.mp h
  obtain ⟨hsize, red', blue', -, -, rfl⟩ := start_eq_ok.mp hstart
  refine ⟨_, hstart, (playOn_eq_ok hrun).resolve_right fun ⟨hend, hcount⟩ => ?_⟩
  have hcells := hend.emptyCells_add
  simp only [Board.emptyCells_blank, List.length_nil] at hcells hcount
  omega

namespace Reached

/-- Every game in the course of a whole game is on the way to its end. -/
theorem rest (h : Reached efforts g₀ g true) (hstart : Game.start red blue size = .ok g₀)
    (hplay : play red blue size efforts = .ok gEnd) : Reached efforts g gEnd false := by
  obtain ⟨g₁, hstart₁, hend⟩ := reached_of_play hplay
  obtain rfl := Except.ok.inj (hstart.symm.trans hstart₁)
  exact (h.linear hend).resolve_right (by simp)

/-- A whole game comes to its end if no turn fails from some moment of it on. -/
theorem exists_play (h : Reached efforts g₀ g true) (hstart : Game.start red blue size = .ok g₀)
    (hstep : ∀ g', Reached efforts g g' true → ∃ r, g'.step (efforts g'.moves.length) = .ok r) :
    ∃ gEnd, play red blue size efforts = .ok gEnd ∧ Reached efforts g gEnd false := by
  -- the turns up to that moment went well, since the run has come to it
  have hall (g' : Game R B) (hg' : Reached efforts g₀ g' true) :
      ∃ r, g'.step (efforts g'.moves.length) = .ok r := by
    rcases h.linear hg' with hafter | ⟨-, hbefore⟩
    · exact hstep g' hafter
    · rcases hbefore.head with ⟨rfl, -⟩ | ⟨g₁, on, hrun, -⟩
      · exact hstep g .start
      · exact ⟨_, hrun⟩
  obtain ⟨gEnd, hrun⟩ := exists_playOn hall (size * size + 1)
  have hplay : play red blue size efforts = .ok gEnd := play_eq_ok.mpr ⟨g₀, hstart, hrun⟩
  exact ⟨gEnd, hplay, h.rest hstart hplay⟩

/-- Players that are reliable from some moment of a whole game on play it until one of them wins. -/
theorem exists_won {J : Nat → Board → R → Prop} {K : Nat → Board → B → Prop} (h : Reached efforts g₀ g true)
    (hstart : Game.start red blue size = .ok g₀) (hJ : Reliable efforts .red J) (hK : Reliable efforts .blue K)
    (hwinner : g.winner = none) (hopen : g.board.winner = none)
    (hred : J g.moves.length g.board g.red) (hblue : K g.moves.length g.board g.blue) :
    ∃ gEnd mv before, play red blue size efforts = .ok gEnd ∧ Reached efforts g gEnd false ∧
      gEnd.moves = mv :: before ∧ gEnd.winner = some mv.color := by
  obtain ⟨gEnd, hplay, hend⟩ := h.exists_play hstart fun g' hg' => by
    obtain ⟨mv, g'', hplayed⟩ := hg'.exists_played hJ hK hwinner hopen hred hblue
    exact ⟨_, step_eq_ok.mpr ⟨some mv, hplayed, rfl⟩⟩
  obtain ⟨mv, before, hmoves, hwon⟩ := hend.last hJ hK hwinner hopen hred hblue
  exact ⟨gEnd, mv, before, hplay, hend, hmoves, hwon⟩

end Reached

end Game
end HexGame
