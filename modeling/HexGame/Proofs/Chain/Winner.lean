import HexGame.Proofs.Chain.Crossing
import HexGame.Proofs.Chain.Filling
import HexGame.Proofs.Chain.Keeping

/-!
# One winner

A strict chain is found exactly where stones join the edges (`isConnected_strict_iff`), so a full board
has one winner. Virtual chains of both colours exclude each other as well: both defenses, played against
each other, would end on a board where the stones of either colour join its edges.
-/
namespace HexGame

variable {b : Board} {color : Color} {ps qs : List Carriers} {last : Option Move}

namespace Board

theorem isConnected_strict_iff :
    b.isConnected color .strict = true ↔ Spans color b.size (b.owns color · = true) := by
  constructor
  · intro h
    obtain ⟨path, hpath⟩ := Option.isSome_iff_exists.mp h
    obtain ⟨t, c, rest, ht, rfl, -, -⟩ := direct_of_findChain hpath
    have hkeeps := Keeps.of_findChain hpath
    rw [ht.safeCells_strict] at hkeeps
    exact hkeeps.spans _ (fun _ hc => hc) (by simp)
  · exact isConnected_of_spans

theorem onBoard_of_owns (c : Cell) (h : b.owns color c = true) :
    0 ≤ c.x ∧ c.x < b.size ∧ 0 ≤ c.y ∧ c.y < b.size :=
  contains_of_owns h

theorem not_owns_blue_of_red (c : Cell) (h : b.owns .red c = true) : ¬ b.owns .blue c = true := by
  simpa using not_owns_opponent h

theorem not_spans_opponent (h : Spans color b.size (b.owns color · = true)) :
    ¬ Spans color.opponent b.size (b.owns color.opponent · = true) := by
  have hcross : Spans .red b.size (b.owns .red · = true) →
      ¬ Spans .blue b.size (b.owns .blue · = true) := by
    refine not_spans_of_spans (fun c hc => ?_) onBoard_of_owns not_owns_blue_of_red
    have := onBoard_of_owns c hc
    omega
  cases color with
  | red => exact hcross h
  | blue => exact fun h' => hcross h' h

/-- A full board has exactly one winner. -/
theorem exists_winner_of_full (hfull : ∀ c, b.Contains c → b.isEmptyAt c = false) :
    ∃ color, b.isConnected color .strict = true ∧ b.isConnected color.opponent .strict = false ∧
      b.winner = some color := by
  have hstone (c : Cell) (hc : b.Contains c) : b.owns .red c = true ∨ b.owns .blue c = true := by
    have he := hfull c hc
    cases hcolor : b.colorAt c with
    | none => simp [isEmptyAt, hc, hcolor] at he
    | some color => cases color <;> simp [owns, hcolor]
  have hspans : Spans .red b.size (b.owns .red · = true) ∨
      Spans .blue b.size (b.owns .blue · = true) :=
    spans_of_full b.size_pos onBoard_of_owns onBoard_of_owns not_owns_blue_of_red
      fun c h₁ h₂ h₃ h₄ => hstone c ⟨h₁, h₂, h₃, h₄⟩
  have hother (color : Color) (h : Spans color b.size (b.owns color · = true)) :
      b.isConnected color.opponent .strict = false := by
    rw [Bool.eq_false_iff, Ne, isConnected_strict_iff]
    exact not_spans_opponent h
  rcases hspans with h | h
  · have hred := isConnected_strict_iff.mpr h
    exact ⟨.red, hred, hother _ h, by simp [winner, hred]⟩
  · have hblue := isConnected_strict_iff.mpr h
    have hred : b.isConnected .red .strict = false := hother .blue h
    exact ⟨.blue, hblue, hred, by simp [winner, hred, hblue]⟩

/-- Three red stones and a blue one on four cells. -/
def fullBoard : Board :=
  (((blank 2 .red (by decide)).place ⟨⟨1, 0⟩, .red⟩).place ⟨⟨0, 0⟩, .blue⟩).place ⟨⟨1, 1⟩, .red⟩
    |>.place ⟨⟨0, 1⟩, .red⟩

theorem exists_winner_of_fullBoard : (∀ c, fullBoard.Contains c → fullBoard.isEmptyAt c = false) ∧
    ∃ color, fullBoard.isConnected color .strict = true ∧
      fullBoard.isConnected color.opponent .strict = false ∧ fullBoard.winner = some color := by
  have hfull : ∀ c ∈ fullBoard.cells, fullBoard.isEmptyAt c = false := by
    decide +kernel
  exact ⟨fun c hc => hfull c (mem_cells.mpr hc),
    exists_winner_of_full fun c hc => hfull c (mem_cells.mpr hc)⟩

end Board

/-- Both defenses, played against each other, end on a board with complete chains of both colours. -/
theorem KeepsUntil.exists_spans (h : KeepsUntil b color ps last) (h' : Keeps b color.opponent qs) :
    ∃ b' : Board, Spans color b'.size (b'.owns color · = true) ∧
      Spans color.opponent b'.size (b'.owns color.opponent · = true) := by
  induction hn : ps.length + qs.length using Nat.strongRecOn generalizing b color ps qs last with
  | ind n ih =>
    rcases h.respond with ⟨rfl, -⟩ | ⟨c, ps', -, he, hlen, hkeeps⟩
    · have hnil := h.keeps_nil
      have hopponent : KeepsUntil b color.opponent qs none := h'
      rcases hopponent.respond with ⟨rfl, -⟩ | ⟨c, qs', -, he, hlen, hkeeps⟩
      · exact ⟨b, hnil.spans _ (fun _ hc => hc) (by simp), h'.spans _ (fun _ hc => hc) (by simp)⟩
      · have hnext : KeepsUntil (b.place ⟨c, color.opponent⟩) color [] (some ⟨c, color.opponent⟩) :=
          ⟨b, hnil, he, rfl, rfl⟩
        simp only [List.length_nil] at hn
        exact ih qs'.length (by omega) hnext hkeeps (Nat.zero_add _)
    · have hnext : KeepsUntil (b.place ⟨c, color⟩) color.opponent qs (some ⟨c, color⟩) :=
        ⟨b, h', he, (Color.opponent_opponent color).symm, rfl⟩
      obtain ⟨b', hs, hs'⟩ := ih (qs.length + ps'.length) (by omega) hnext
        (by rwa [Color.opponent_opponent]) rfl
      rw [Color.opponent_opponent] at hs'
      exact ⟨b', hs', hs⟩

/-- Chains of both colours exclude each other, be they complete or only secured. -/
theorem Board.not_both_connected (b : Board) (m m' : Mode) :
    (b.isConnected .red m && b.isConnected .blue m') = false := by
  cases hred : b.isConnected .red m with
  | false => rfl
  | true =>
    cases hblue : b.isConnected .blue m' with
    | false => rfl
    | true =>
      obtain ⟨path, hpath⟩ := Option.isSome_iff_exists.mp hred
      obtain ⟨path', hpath'⟩ := Option.isSome_iff_exists.mp hblue
      have hkeeps : KeepsUntil b .red (safeCells path .red) none := Keeps.of_findChain hpath
      obtain ⟨b', hs, hs'⟩ := hkeeps.exists_spans (Keeps.of_findChain hpath')
      exact absurd hs' (not_spans_opponent hs)

end HexGame
