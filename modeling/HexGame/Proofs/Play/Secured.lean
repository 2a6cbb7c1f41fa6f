import HexGame.Proofs.Play.Contest

/-!
# Secured agents win

Once an agent sees a virtual chain of its own on its turn, it plays by its defense to the end of the game
(`Agent.Secured`). The opponent never connects against the defense, so the agent is the only one who can
win, whoever the opponent is and whatever it plays.
-/
namespace HexGame

variable {G R B : Type} [ChoiceSource G] [Player R] [Player B] {efforts : Nat → Effort} {effort : Effort}
variable {s : Seat} {b : Board} {color : Color} {a : Agent G}

/-- The seat keeps a chain, or it is about to. -/
structure Seat.Secured (s : Seat) (b : Board) (color : Color) : Prop where
  follows : s.Follows b color
  chain : s.defense.isSome = true ∨ b.toMove = color ∧ b.isConnected color .virtual = true

namespace Seat.Secured

theorem winner_ne (h : s.Secured b color) : b.winner ≠ some color.opponent := by
  have hnot : b.isConnected color.opponent .strict = false := by
    rcases h.chain with hdefense | ⟨-, hchain⟩
    · obtain ⟨d, hd⟩ := Option.isSome_iff_exists.mp hdefense
      obtain ⟨ps, -, hkeeps⟩ := h.follows.defense d hd
      exact hkeeps.isConnected_opponent
    · obtain ⟨path, hpath⟩ := Option.isSome_iff_exists.mp hchain
      have hkeeps : KeepsUntil b color (safeCells path color) none := Keeps.of_findChain hpath
      exact hkeeps.isConnected_opponent
  intro hwon
  exact absurd (Board.isConnected_of_winner hwon) (by simp [hnot])

theorem defend (h : s.Secured b color) (hopen : b.winner = none) (hturn : b.toMove = color) :
    ∃ mv d, s.defend = (some mv, { s with defense := some d }) ∧
      s.endgameMove = (some mv, { s with defense := some d }) ∧
      CanPlay { s with defense := some d } b color mv := by
  obtain ⟨mv, d, hdefend, hcan⟩ := h.follows.defend_eq_some hopen hturn (h.chain.imp_right And.right)
  exact ⟨mv, d, hdefend, by simp [endgameMove, hdefend], hcan⟩

end Seat.Secured

namespace Agent

/-- The seat of the agent is secured. -/
def Secured (b : Board) (color : Color) (a : Agent G) : Prop := ∃ s, a.seat? = some s ∧ s.Secured b color

/-- What a secured agent does on its turn: its move is that of the defense, and the effort for a search makes
no difference. -/
theorem Secured.nextMove (h : a.Secured b color) (hopen : b.winner = none) (hturn : b.toMove = color) :
    ∃ s mv d, a.seat? = some s ∧ s.board = b ∧ s.defend = (some mv, { s with defense := some d }) ∧
      mv ∈ b.legalMoves ∧ ∃ a', (∀ effort, Player.nextMove effort a = (.ok (some mv), a')) ∧
        a'.seat? = some { s with board := b.place mv, defense := some d } ∧ a'.Secured (b.place mv) color := by
  obtain ⟨s, hseat, hs⟩ := h
  obtain ⟨mv, d, hdefend, hmove, hcan⟩ := hs.defend hopen hturn
  obtain ⟨a', hask, hseat'⟩ := Agent.playsSeat.endgame hseat (hs.follows.gameOver_eq hopen hturn) hmove hcan
  exact ⟨s, mv, d, hseat, hs.follows.board_eq, hdefend, hcan.legal, a', hask, hseat', _, hseat', hcan.follows,
    .inl rfl⟩

theorem Secured.opponentMoved {mv : Move} (h : a.Secured b color) (hwaits : b.toMove = color.opponent)
    (hmv : mv ∈ b.legalMoves) :
    ∃ a', Player.opponentMoved mv a = (.ok (), a') ∧ a'.Secured (b.place mv) color := by
  obtain ⟨s, hseat, hs⟩ := h
  have hdefense : s.defense.isSome = true := hs.chain.resolve_right fun ⟨hturn, _⟩ =>
    Color.opponent_ne color (hwaits.symm.trans hturn)
  obtain ⟨htold, hs'⟩ := hs.follows.opponentMoved hwaits hmv
  obtain ⟨a', htell, hseat'⟩ := Agent.playsSeat.told hseat htold
  exact ⟨a', htell, _, hseat', hs', .inl hdefense⟩

/-- A secured agent does not fail, whatever its searches would do, and it stays secured. -/
theorem Secured.reliable (efforts : Nat → Effort) (color : Color) :
    Game.Reliable efforts color fun _ b (a : Agent G) => a.Secured b color where
  moves := by
    intro n b a ha hopen hturn
    obtain ⟨s, mv, d, -, -, -, hlegal, a', hask, -, ha'⟩ := ha.nextMove hopen hturn
    exact ⟨mv, a', hask (efforts n), hlegal, ha'⟩
  accepts ha _ hwaits hmv := ha.opponentMoved hwaits hmv

end Agent

namespace Game

variable {g g₀ gEnd : Game R B} {agent : Game R B → Agent G} {goesOn : Bool}

/-- The rest of a game that an agent has secured: only the agent wins, and it does so unless the opponent
makes no move any more. Each of its moves is that of the defense, which is kept, and the effort for a search
makes no difference. -/
structure WonFrom (efforts : Nat → Effort) (color : Color) (agent : Game R B → Agent G) (g : Game R B) :
    Prop where
  winner : ∀ g' goesOn, Reached efforts g g' goesOn → g'.winner = none ∨ g'.winner = some color
  moves : ∀ g', Reached efforts g g' true → g'.board.toMove = color →
    ∃ s mv d, (agent g').seat? = some s ∧ s.board = g'.board ∧
      s.defend = (some mv, { s with defense := some d }) ∧ mv ∈ g'.board.legalMoves ∧
      ∃ a', (∀ effort, Player.nextMove effort (agent g') = (.ok (some mv), a')) ∧
        a'.seat? = some { s with board := g'.board.place mv, defense := some d }
  accepts : ∀ g', Reached efforts g g' true → g'.board.toMove = color.opponent → ∀ mv ∈ g'.board.legalMoves,
    ∃ a', Player.opponentMoved mv (agent g') = (.ok (), a')
  ending : ∀ gEnd, Reached efforts g gEnd false → gEnd.winner = some color ∨
    ∃ g', Reached efforts g g' true ∧ g'.board.toMove = color.opponent ∧
      Played (efforts g'.moves.length) g' none gEnd

theorem wonFrom_of_secured (hview : View color agent) (hwinner : g.winner = none) (hopen : g.board.winner = none)
    (hg : (agent g).Secured g.board color) : WonFrom efforts color agent g := by
  have hpreserves := (Agent.Secured.reliable (G := G) efforts color).preserves
  have hmoves (g' : Game R B) (h : Reached efforts g g' true) (hturn : g'.board.toMove = color) :=
    (h.preserves hview hpreserves hwinner hopen hg (.inl rfl)).nextMove ((h.winner_eq hwinner hopen).2 rfl) hturn
  have hnolosses (g' : Game R B) (goesOn : Bool) (h : Reached efforts g g' goesOn) :
      g'.winner = none ∨ g'.winner = some color := by
    cases hw : g'.winner with
    | none => exact .inl rfl
    | some w =>
      obtain ⟨s, -, hs⟩ := h.preserves hview hpreserves hwinner hopen hg (.inr (by simp [hw]))
      have hne := hs.winner_ne
      rw [← (h.winner_eq hwinner hopen).1, hw] at hne
      refine .inr (congrArg some (Decidable.byContradiction fun hother => hne ?_))
      rw [Color.eq_opponent_of_ne hother]
  refine ⟨hnolosses, fun g' h hturn => ?_, fun g' h hwaits mv hmv => ?_, fun gEnd h => ?_⟩
  · obtain ⟨s, mv, d, hseat, hboard, hdefend, hlegal, a', hask, hseat', -⟩ := hmoves g' h hturn
    exact ⟨s, mv, d, hseat, hboard, hdefend, hlegal, a', hask, hseat'⟩
  · obtain ⟨a', htell, -⟩ :=
      (h.preserves hview hpreserves hwinner hopen hg (.inl rfl)).opponentMoved hwaits hmv
    exact ⟨a', htell⟩
  · cases h with
    | @step g' _ _ h hrun =>
      obtain ⟨answer, hplayed, hon⟩ := step_eq_ok.mp hrun
      cases answer with
      | some mv =>
        refine .inl ((hnolosses gEnd false (h.step hrun)).resolve_left fun hnone => ?_)
        simp [hnone] at hon
      | none =>
        refine .inr ⟨g', h, Color.eq_opponent_of_ne fun hturn => ?_, hplayed⟩
        obtain ⟨s, mv, d, -, -, -, -, a', hask, -⟩ := hmoves g' h hturn
        cases (hask _).symm.trans (hview.declined hplayed hturn)

theorem Reached.secured (h : Reached efforts g₀ g true) (hview : View color agent)
    (hwinner : g₀.winner = none) (hopen : g₀.board.winner = none)
    (hseat : ∃ s, (agent g₀).seat? = some s ∧ s.Follows g₀.board color) (hturn : g.board.toMove = color)
    (hboard : (agent g).board? = some b) (hchain : b.isConnected color .virtual = true) :
    g.winner = none ∧ g.board.winner = none ∧ (agent g).Secured g.board color := by
  obtain ⟨s, hs, hfollows⟩ := h.preserves hview (Agent.playsSeat.preserves efforts color) hwinner hopen hseat
    (.inl rfl)
  have hb : s.board = b := by
    rw [Agent.board?, hs, Option.map_some] at hboard
    exact Option.some.inj hboard
  rw [← hb, hfollows.board_eq] at hchain
  obtain ⟨heq, hgoes⟩ := h.winner_eq hwinner hopen
  exact ⟨heq.trans (hgoes rfl), hgoes rfl, s, hs, hfollows, .inr ⟨hturn, hchain⟩⟩

/-- An agent that sees a virtual chain of its own on its turn wins against every opponent, whatever it
plays, by its defense alone. -/
theorem secured_agent_wins {Q : Type} [Player Q] (a : Agent G) (q : Q) (size : Nat) (efforts : Nat → Effort) :
    (∀ (g₀ g : Game (Agent G) Q) (b : Board), start a q size = .ok g₀ → Reached efforts g₀ g true →
      g.board.toMove = .red → g.red.board? = some b → b.isConnected .red .virtual = true →
      WonFrom efforts .red Game.red g ∧
      (∀ gEnd, play a q size efforts = .ok gEnd → Reached efforts g gEnd false) ∧
      ∀ K, Reliable efforts .blue K → K g.moves.length g.board g.blue →
        ∃ gEnd, play a q size efforts = .ok gEnd ∧ gEnd.winner = some .red) ∧
    (∀ (g₀ g : Game Q (Agent G)) (b : Board), start q a size = .ok g₀ → Reached efforts g₀ g true →
      g.board.toMove = .blue → g.blue.board? = some b → b.isConnected .blue .virtual = true →
      WonFrom efforts .blue Game.blue g ∧
      (∀ gEnd, play q a size efforts = .ok gEnd → Reached efforts g gEnd false) ∧
      ∀ J, Reliable efforts .red J → J g.moves.length g.board g.red →
        ∃ gEnd, play q a size efforts = .ok gEnd ∧ gEnd.winner = some .blue) := by
  constructor
  · intro g₀ g b hstart h hturn hboard hchain
    obtain ⟨hsize, a', q', hnew, -, rfl⟩ := start_eq_ok.mp hstart
    obtain ⟨hwinner, hopen, hsecured⟩ := h.secured redView rfl (Board.winner_blank size .red hsize)
      (Agent.follows_newGame hsize hnew) hturn hboard hchain
    have hwon : WonFrom efforts .red Game.red g := wonFrom_of_secured redView hwinner hopen hsecured
    refine ⟨hwon, fun gEnd => h.rest hstart, fun K hK hq => ?_⟩
    obtain ⟨gEnd, mv, -, hplay, hend, -, hlast⟩ :=
      h.exists_won hstart (Agent.Secured.reliable efforts .red) hK hwinner hopen hsecured hq
    exact ⟨gEnd, hplay, (hwon.winner gEnd false hend).resolve_left (by simp [hlast])⟩
  · intro g₀ g b hstart h hturn hboard hchain
    obtain ⟨hsize, q', a', -, hnew, rfl⟩ := start_eq_ok.mp hstart
    obtain ⟨hwinner, hopen, hsecured⟩ := h.secured blueView rfl (Board.winner_blank size .red hsize)
      (Agent.follows_newGame hsize hnew) hturn hboard hchain
    have hwon : WonFrom efforts .blue Game.blue g := wonFrom_of_secured blueView hwinner hopen hsecured
    refine ⟨hwon, fun gEnd => h.rest hstart, fun J hJ hq => ?_⟩
    obtain ⟨gEnd, mv, -, hplay, hend, -, hlast⟩ :=
      h.exists_won hstart hJ (Agent.Secured.reliable efforts .blue) hwinner hopen hq hsecured
    exact ⟨gEnd, hplay, (hwon.winner gEnd false hend).resolve_left (by simp [hlast])⟩

/-- A player that always takes the first free cell. -/
structure FirstFree where
  board : Option Board

namespace FirstFree

def choice (p : FirstFree) : Option Move := p.board.bind (·.legalMoves.head?)

def see (mv : Move) (p : FirstFree) : FirstFree := ⟨p.board.map (·.place mv)⟩

instance : Player FirstFree where
  name _ := "first free cell"
  newGame size _ _ := (.ok (), ⟨if h : 0 < size ∧ size ≤ maxSize then some (.blank size .red h) else none⟩)
  opponentMoved mv p := (.ok (), p.see mv)
  nextMove _ p := (.ok p.choice, p.choice.elim p (p.see ·))

theorem reliable (efforts : Nat → Effort) (color : Color) :
    Reliable efforts color fun _ b (p : FirstFree) => p.board = some b where
  moves := by
    intro n b p hp hopen _
    obtain ⟨mv, moves, hmoves⟩ := List.exists_cons_of_ne_nil (Board.legalMoves_ne_nil_of_winner_eq_none hopen)
    have hchoice : p.choice = some mv := by simp [choice, hp, hmoves]
    exact ⟨mv, p.see mv, by simp [Player.nextMove, hchoice], by simp [hmoves], by simp [see, hp]⟩
  accepts := by
    intro n b p mv hp _ _ _
    exact ⟨p.see mv, rfl, by simp [see, hp]⟩

end FirstFree

def lateAgent : Agent Generator := .hybrid (.make lookingAhead (.make .default (.ofSeed 1)) 8)

/-- On nine cells red comes from the middle to two free cells of the last row. -/
theorem secured_agent_wins_lateAgent :
    ∃ g₀ g b, start lateAgent (FirstFree.mk none) 3 = .ok g₀ ∧ Reached (fun _ => .zero) g₀ g true ∧
      g.board.toMove = .red ∧ g.red.board? = some b ∧ b.isConnected .red .virtual = true ∧
      WonFrom (fun _ => .zero) .red Game.red g ∧
      ∃ gEnd, play lateAgent (FirstFree.mk none) 3 (fun _ => .zero) = .ok gEnd ∧ gEnd.winner = some .red := by
  have hcheck : (match start lateAgent (FirstFree.mk none) 3 with
      | .ok g₀ =>
        match g₀.playOn (fun _ => .zero) 6 with
        | .ok g => g.moves.length = g₀.moves.length + 6 && g.winner.isNone && g.board.toMove = .red &&
          g.red.board?.any (·.isConnected .red .virtual)
        | .error _ => false
      | .error _ => false) = true := by decide +kernel
  split at hcheck
  · rename_i g₀ hstart
    split at hcheck
    · rename_i g hrun
      simp only [Bool.and_eq_true, decide_eq_true_eq, Option.isNone_iff_eq_none, Option.any_eq_true] at hcheck
      obtain ⟨⟨⟨hcount, hnone⟩, hturn⟩, b, hboard, hchain⟩ := hcheck
      have hreached := reached_of_playOn hrun hcount hnone
      obtain ⟨hwon, -, hwins⟩ := (secured_agent_wins lateAgent (FirstFree.mk none) 3 fun _ => .zero).1 g₀ g b
        hstart hreached hturn hboard hchain
      have hreliable := FirstFree.reliable (fun _ => .zero) .blue
      obtain ⟨hsize, a', q', -, hnew, rfl⟩ := start_eq_ok.mp hstart
      obtain ⟨-, rfl⟩ := Prod.mk.inj hnew
      have hsees := hreached.preserves blueView hreliable.preserves rfl (Board.winner_blank 3 .red hsize)
        rfl (.inl rfl)
      exact ⟨_, g, b, hstart, hreached, hturn, hboard, hchain, hwon, hwins _ hreliable hsees⟩
    · cases hcheck
  · cases hcheck

end Game

end HexGame
