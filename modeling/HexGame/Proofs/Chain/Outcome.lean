import HexGame.Proofs.Board.Line
import HexGame.Proofs.Chain.Ending

/-!
# The outcome of a game

As long as no chain is complete there is a move, and a legal move completes no chain but one of its own
colour. A chain that its player keeps stands in the way of every chain of the opponent: if the player filled
all the empty cells, it would be complete.
-/
namespace HexGame

variable {b b₀ : Board} {color w : Color} {mv : Move} {moves : List Move} {mode : Mode}

namespace Board

theorem winner_eq_none_iff : b.winner = none ↔ ∀ color, b.isConnected color .strict = false := by
  simp only [winner, List.find?_eq_none, List.mem_cons, List.not_mem_nil, or_false, Bool.not_eq_true]
  refine ⟨fun h color => h color ?_, fun h color _ => h color⟩
  cases color <;> simp

theorem isConnected_of_winner (h : b.winner = some w) : b.isConnected w .strict = true :=
  List.find?_some (p := (b.isConnected · .strict)) h

theorem isDecided_of_winner_eq_none (h : b.winner = none) : b.isDecided .strict = false :=
  winner_eq_none_iff.mp h b.lastMover

theorem playable_of_winner_eq_none (h : b.winner = none) : b.Playable := by
  intro hfull
  obtain ⟨color, hwon⟩ := exists_isConnected_of_full hfull
  exact absurd hwon (by simp [winner_eq_none_iff.mp h color])

theorem legalMoves_ne_nil_of_winner_eq_none (h : b.winner = none) : b.legalMoves ≠ [] :=
  (playable_of_winner_eq_none h).legalMoves_ne_nil (isDecided_of_winner_eq_none h)

theorem winner_place (h : b.winner = none) (he : b.isEmptyAt mv.cell = true) :
    (b.place mv).winner = none ∨ (b.place mv).winner = some mv.color := by
  cases hw : (b.place mv).winner with
  | none => exact .inl rfl
  | some w =>
    refine .inr (congrArg some (Decidable.byContradiction fun hne => ?_))
    have hbefore : b.isConnected w .strict = true :=
      isConnected_of_place he (fun heq => hne heq.symm) (isConnected_of_winner hw)
    exact absurd hbefore (by simp [winner_eq_none_iff.mp h w])

theorem winner_blank (size : Nat) (first : Color) (h : 0 < size ∧ size ≤ maxSize) :
    (blank size first h).winner = none := by
  refine winner_eq_none_iff.mpr fun color => ?_
  rw [Bool.eq_false_iff, Ne, isConnected_strict_iff]
  rintro ⟨c, hc, -⟩
  simpa [owns, colorAt_blank] using hc.stone

/-! ## Two tests for the end of a game -/

/-- After a move in an open game it is enough to ask for a chain of the player who has moved. -/
theorem winner_place_eq (h : b.winner = none) (hmv : mv ∈ b.legalMoves) :
    (b.place mv).winner =
      if (b.place mv).isDecided .strict then some (b.place mv).lastMover else none := by
  have he := (mem_legalMoves.mp hmv).1
  have hlast : (b.place mv).lastMover = mv.color := rfl
  cases hdecided : (b.place mv).isDecided .strict with
  | true =>
    have hnone : (b.place mv).winner ≠ none := fun hnone => by
      simp [isDecided_of_winner_eq_none hnone] at hdecided
    simpa [hlast] using (winner_place h he).resolve_left hnone
  | false =>
    refine (winner_place h he).resolve_right fun hwon => ?_
    have hwon' : (b.place mv).isDecided .strict = true := isConnected_of_winner hwon
    simp [hdecided] at hwon'

/-- Along a line of play that goes on only while the game is undecided, nobody has a chain before its last
position. The induction follows the moves: each position before the last is open for the rest of the line. -/
theorem winner_eq_of_line (hopen : b₀.winner = none) (hline : b₀.playAll moves = .ok b)
    (hbefore : ∀ earlier b', earlier <+: moves → earlier ≠ moves → b₀.playAll earlier = .ok b' →
      b'.isDecided .strict = false) :
    b.winner = if b.isDecided .strict then some b.lastMover else none := by
  induction moves generalizing b₀ with
  | nil =>
    obtain rfl := Except.ok.inj hline
    simp [hopen, isDecided_of_winner_eq_none hopen]
  | cons mv moves ih =>
    obtain ⟨hmv, hrest⟩ := playAll_cons.mp hline
    have hnext := winner_place_eq hopen hmv
    cases moves with
    | nil =>
      obtain rfl := Except.ok.inj hrest
      exact hnext
    | cons mv' moves =>
      have hundecided : (b₀.place mv).isDecided .strict = false :=
        hbefore [mv] _ (by simp) (by simp) (playAll_cons.mpr ⟨hmv, rfl⟩)
      rw [hundecided, if_neg Bool.false_ne_true] at hnext
      refine ih hnext hrest fun earlier b' hprefix hne hplay => ?_
      exact hbefore (mv :: earlier) b' (List.cons_prefix_cons.mpr ⟨rfl, hprefix⟩)
        (fun heq => hne (List.cons.inj heq).2) (playAll_cons.mpr ⟨hmv, hplay⟩)

/-- In the course of a game that nobody has won at its start, the test that asks for a chain of the player
who moved last and the one that asks for a chain of either colour agree, and the winner is that player. -/
theorem isDecided_iff_isSome_winner (hopen : ∀ color, b₀.isConnected color .strict = false)
    (hline : b₀.playAll moves = .ok b)
    (hbefore : ∀ earlier b', earlier <+: moves → earlier ≠ moves → b₀.playAll earlier = .ok b' →
      b'.isDecided .strict = false) :
    (b.isDecided .strict = true ↔ b.winner.isSome = true) ∧
      (b.winner.isSome = true → b.winner = some b.lastMover) := by
  have hwinner := winner_eq_of_line (winner_eq_none_iff.mpr hopen) hline hbefore
  cases hdecided : b.isDecided .strict <;> simp [hwinner, hdecided]

/-- Red takes the first column of four cells in two moves. -/
theorem isDecided_iff_isSome_winner_fourCells :
    let b₀ := blank 2 .red two_le_maxSize
    let moves : List Move := [⟨⟨0, 0⟩, .red⟩, ⟨⟨1, 0⟩, .blue⟩, ⟨⟨0, 1⟩, .red⟩]
    (∀ color, b₀.isConnected color .strict = false) ∧
      (∀ earlier b', earlier <+: moves → earlier ≠ moves → b₀.playAll earlier = .ok b' →
        b'.isDecided .strict = false) ∧
      ∃ b, b₀.playAll moves = .ok b ∧ b.isDecided .strict = true ∧ b.winner = some .red := by
  intro b₀ moves
  have hopen := winner_eq_none_iff.mp (winner_blank 2 .red two_le_maxSize)
  have hbefore : ∀ earlier b', earlier <+: moves → earlier ≠ moves → b₀.playAll earlier = .ok b' →
      b'.isDecided .strict = false := by
    intro earlier b' hprefix hne hplay
    simp only [moves, List.prefix_cons_iff, List.prefix_nil] at hprefix
    rcases hprefix with rfl | ⟨_, rfl, rfl | ⟨_, rfl, rfl | ⟨_, rfl, rfl⟩⟩⟩
    · obtain rfl := Except.ok.inj hplay
      decide +kernel
    · obtain ⟨-, hplay⟩ := playAll_cons.mp hplay
      obtain rfl := Except.ok.inj hplay
      decide +kernel
    · obtain ⟨-, hplay⟩ := playAll_cons.mp hplay
      obtain ⟨-, hplay⟩ := playAll_cons.mp hplay
      obtain rfl := Except.ok.inj hplay
      decide +kernel
    · exact absurd rfl hne
  have hline : b₀.playAll moves =
      .ok (((b₀.place ⟨⟨0, 0⟩, .red⟩).place ⟨⟨1, 0⟩, .blue⟩).place ⟨⟨0, 1⟩, .red⟩) :=
    playAll_cons.mpr ⟨by decide +kernel, playAll_cons.mpr ⟨by decide +kernel,
      playAll_cons.mpr ⟨by decide +kernel, rfl⟩⟩⟩
  obtain ⟨hiff, hlast⟩ := isDecided_iff_isSome_winner hopen hline hbefore
  have hdecided := hiff.mpr (by decide +kernel)
  exact ⟨hopen, hbefore, _, hline, hdecided, hlast (hiff.mp hdecided)⟩

end Board

theorem KeepsUntil.isConnected_opponent {ps : List Carriers} {last : Option Move}
    (h : KeepsUntil b color ps last) : b.isConnected color.opponent .strict = false := by
  obtain ⟨b₀, hk, hsize, hown, hempty, -⟩ := h.exists_keeps
  let own : Cell → Prop := fun c => b.Contains c ∧ ¬ b.owns color.opponent c = true
  have hstone (c : Cell) (hc : b₀.owns color c = true) : own c :=
    ⟨Board.contains_of_owns (hown c hc), by simp [Board.not_owns_opponent (hown c hc)]⟩
  have hfree (c : Cell) (hc : b.isEmptyAt c = true) : own c :=
    ⟨(Board.isEmptyAt_iff.mp hc).1, fun ho => by simp [Board.isEmptyAt_of_owns ho] at hc⟩
  have hfill (p : Carriers) (hp : p ∈ ps) : own p.first ∨ own p.second := by
    have hopen := Board.isOpen_iff.mp (hk.isOpen p hp)
    by_cases hhit : ∀ mv, last = some mv → p.first ≠ mv.cell
    · exact .inl (hfree _ (hempty _ (hopen _ (Carriers.mem_cells.mpr (.inl rfl))) hhit))
    · simp only [Classical.not_forall, Classical.not_not] at hhit
      obtain ⟨mv, hmv, hfirst⟩ := hhit
      refine .inr (hfree _ (hempty _ (hopen _ (Carriers.mem_cells.mpr (.inr rfl))) fun mv' hmv' heq => ?_))
      obtain rfl := Option.some.inj (hmv.symm.trans hmv')
      exact hk.distinct p hp (hfirst.trans heq.symm)
  have hspans : Spans color b.size own := hsize ▸ hk.spans own hstone hfill
  rw [Bool.eq_false_iff, Ne, Board.isConnected_strict_iff]
  cases color with
  | red =>
    refine not_spans_of_spans (fun c hc => ?_) Board.onBoard_of_owns (fun c hc => hc.2) hspans
    exact ⟨hc.1.1, hc.1.2.1⟩
  | blue =>
    refine fun hred => not_spans_of_spans (fun c hc => ?_) (fun c hc => hc.1) (fun c hc hc' => hc'.2 hc)
      hred hspans
    have := Board.onBoard_of_owns c hc
    exact ⟨this.1, this.2.1⟩

end HexGame
