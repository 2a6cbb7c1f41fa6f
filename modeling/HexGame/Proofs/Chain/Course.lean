import HexGame.Proofs.Chain.VirtualChain

/-!
# The course of the search for a chain

A search from its start on, with a record of the cells that it has extended (`Course`). They are the marked
cells, so none of them is extended twice, and every step leaves less of what the bound allows (`Recorded`). A
cell that is taken before the far edge holds a stone, so its mark lies within the set. Hence every search ends,
and the steps that `Board.findChain` allows are enough.
-/
namespace HexGame
namespace ChainSearch

variable {b : Board} {color : Color} {mode : Mode} {s s' : ChainSearch} {n : Nat} {cells : List Cell}
variable {e : Option Cell} {c : Cell}

/-- The newest cell of the first trail. The trail in front of the near edge has none. -/
def taken? (s : ChainSearch) : Option Cell := s.frontier.popMin?.bind fun p => p.1.2.path.head?

/-- The cell that the next step extends: the one that it takes, unless this lies at the far edge or has been
extended. -/
def extended? (b : Board) (color : Color) (s : ChainSearch) : Option Cell :=
  s.taken?.filter fun c => 0 < color.remaining b.size c && !s.visited.contains c

/-- The states of a search, with the number of trails that it has taken and the cells that it has extended,
newest first. -/
inductive Course (b : Board) (color : Color) (mode : Mode) : Nat → List Cell → ChainSearch → Prop where
  | start : Course b color mode 0 [] (start b.size)
  | step {n : Nat} {cells : List Cell} {s s' : ChainSearch} {e : Option Cell}
      (h : Course b color mode n cells s) (he : s.extended? b color = e)
      (hs : step b color mode s = .searching s') : Course b color mode (n + 1) (e.toList ++ cells) s'

/-- What holds from the first step on: the extended cells are the marked ones, each once, and the steps that
are made stay within the bound together with those that are left. -/
structure Recorded (b : Board) (color : Color) (mode : Mode) (n : Nat) (cells : List Cell)
    (s : ChainSearch) : Prop where
  invariant : ∃ len, Invariant b color mode len s
  marked : ∀ c, c ∈ cells ↔ s.visited.contains c = true
  nodup : cells.Nodup
  within : n + pending b s < bound b.size

theorem taken?_of_pop {r : Rank} {t : Trail} {rest : Frontier Trail}
    (hpop : s.frontier.popMin? = some ((r, t), rest)) : s.taken? = t.path.head? := by
  simp [taken?, hpop]

theorem step_start : step b color mode (start b.size) = .searching (entered b color mode) := rfl

theorem recorded_entered : Recorded b color mode 1 [] (entered b color mode) where
  invariant := ⟨_, invariant_entered⟩
  marked := by simp [entered, extend, start]
  nodup := List.nodup_nil
  within := by
    have := pending_entered_lt b color mode
    omega

theorem Recorded.step (h : Recorded b color mode n cells s) (he : s.extended? b color = e)
    (hs : step b color mode s = .searching s') : Recorded b color mode (n + 1) (e.toList ++ cells) s' := by
  obtain ⟨len, hinv⟩ := h.invariant
  obtain ⟨hless, hinv'⟩ := hinv.searching hs
  have hwithin : n + 1 + pending b s' < bound b.size := by
    have := h.within
    omega
  obtain ⟨r, t, c, path, rest, hpop, ht, hr, ⟨hv, rfl⟩ | ⟨hv, rfl⟩⟩ := hinv.step_eq_searching hs
  · have hnone : s.extended? b color = none := by simp [extended?, taken?_of_pop hpop, ht, hv]
    obtain rfl : none = e := hnone.symm.trans he
    exact ⟨hinv', h.marked, h.nodup, hwithin⟩
  · have hsome : s.extended? b color = some c := by simp [extended?, taken?_of_pop hpop, ht, hr, hv]
    obtain rfl : some c = e := hsome.symm.trans he
    have hnew : c ∉ cells := by simp [h.marked, hv]
    refine ⟨hinv', fun a => ?_, List.nodup_cons.mpr ⟨hnew, h.nodup⟩, hwithin⟩
    rw [hinv.contains_extend hpop ht hr, ← h.marked]
    exact List.mem_cons

theorem Course.recorded (h : Course b color mode n cells s) :
    (n = 0 ∧ cells = [] ∧ s = ChainSearch.start b.size) ∨ Recorded b color mode n cells s := by
  induction h with
  | start => exact .inl ⟨rfl, rfl, rfl⟩
  | step _ he hs ih =>
    rcases ih with ⟨rfl, rfl, rfl⟩ | ih
    · obtain rfl := Progress.searching.inj (step_start.symm.trans hs)
      obtain rfl : none = _ := he
      exact .inr recorded_entered
    · exact .inr (ih.step he hs)

theorem Passes.exists_course (h : Passes b color mode s) : ∃ n cells, Course b color mode n cells s := by
  induction h with
  | entered => exact ⟨1, [], .step .start rfl step_start⟩
  | step _ hs ih =>
    obtain ⟨n, cells, h⟩ := ih
    exact ⟨n + 1, _, h.step rfl hs⟩

/-- A cell that is taken before the far edge lies on the board, and its mark within the set. -/
theorem Recorded.contains_of_taken (h : Recorded b color mode n cells s) (hc : s.taken? = some c)
    (hr : 0 < color.remaining b.size c) :
    b.Contains c ∧ s.visited.marks.size = b.size * b.size ∧ s.visited.slot c < b.size * b.size := by
  obtain ⟨len, hinv⟩ := h.invariant
  obtain ⟨⟨⟨r, t⟩, rest⟩, hpop, hhead⟩ := Option.bind_eq_some_iff.mp hc
  obtain ⟨path, ht⟩ := List.head?_eq_some_iff.mp hhead
  have hb := Board.contains_of_owns (hinv.owns_of_pop hpop ht hr)
  have hslot := CellSet.slot_lt (hinv.onGrid hb)
  have hmarks := s.visited.size_marks
  rw [hinv.size_visited] at hslot hmarks
  exact ⟨hb, hmarks, hslot⟩

/-- However far a search has come, it has extended no cell twice, and a cell that it takes before the far edge
lies on the board, with its mark in range. Within the bound it comes to an end: it has no trail left and no
result, or it takes a cell at the far edge and has found a path. -/
theorem halts_on_board (b : Board) (color : Color) (mode : Mode) :
    (∀ n cells s, Course b color mode n cells s →
      n < bound b.size ∧ cells.Nodup ∧ (∀ c, c ∈ cells ↔ s.visited.contains c = true) ∧
        ∀ c ∈ s.taken?, 0 < color.remaining b.size c →
          b.Contains c ∧ s.visited.marks.size = b.size * b.size ∧ s.visited.slot c < b.size * b.size) ∧
    ∃ n cells s, Course b color mode n cells s ∧
      ((s.frontier = .empty ∧ step b color mode s = .exhausted ∧ b.findChain color mode = none) ∨
        ∃ path, ∃ c ∈ s.taken?, color.remaining b.size c ≤ 0 ∧ step b color mode s = .found path ∧
          b.findChain color mode = some path) := by
  refine ⟨fun n cells s h => ?_, ?_⟩
  · rcases h.recorded with ⟨rfl, rfl, rfl⟩ | hrec
    · have htaken : (start b.size).taken? = none := rfl
      exact ⟨by simp [bound], List.nodup_nil, by simp [start], by simp [htaken]⟩
    · have := hrec.within
      exact ⟨by omega, hrec.nodup, hrec.marked, fun c hc hr => hrec.contains_of_taken hc hr⟩
  · cases hrun : b.findChain color mode with
    | none =>
      obtain ⟨s, hs, hempty⟩ := Board.passes_of_findChain_eq_none hrun
      obtain ⟨n, cells, h⟩ := hs.exists_course
      have hstop : step b color mode s = .exhausted := by simp [step, hempty, Frontier.popMin?]
      exact ⟨n, cells, s, h, .inl ⟨hempty, hstop, rfl⟩⟩
    | some path =>
      obtain ⟨s, hs, hfound⟩ := Board.passes_of_findChain hrun
      obtain ⟨n, cells, h⟩ := hs.exists_course
      obtain ⟨len, hinv⟩ := hs.invariant
      obtain ⟨r, t, c, tail, rest, hpop, rfl, ht, hr⟩ := hinv.step_eq_found hfound
      have hc : s.taken? = some c := by rw [taken?_of_pop hpop, ht, List.head?_cons]
      exact ⟨n, cells, s, h, .inr ⟨t.path, c, hc, hr, hfound, rfl⟩⟩

/-- Blue holds the last row. Two of red's stones lead to the third. -/
def queuedTwice : Board :=
  Board.afterCells 3 Board.three_le_maxSize [⟨1, 0⟩, ⟨2, 2⟩, ⟨0, 1⟩, ⟨0, 2⟩, ⟨1, 1⟩, ⟨1, 2⟩]

/-- The last trail leads to a cell that has been extended, and nothing is left after it. -/
theorem halts_on_board_queuedTwice : ∃ s s', Course queuedTwice .red .virtual 4 [⟨0, 1⟩, ⟨1, 1⟩, ⟨1, 0⟩] s ∧
    4 < bound queuedTwice.size ∧ s.taken? = some ⟨0, 1⟩ ∧ s.extended? queuedTwice .red = none ∧
      s.visited.slot ⟨0, 1⟩ < queuedTwice.size * queuedTwice.size ∧
      step queuedTwice .red .virtual s = .searching s' ∧ s'.frontier = .empty := by
  have h₁ : Course queuedTwice .red .virtual 1 [] _ := .step .start rfl rfl
  have h₂ : Course queuedTwice .red .virtual 2 [⟨1, 0⟩] _ := h₁.step (e := some _) (by decide +kernel) rfl
  have h₃ : Course queuedTwice .red .virtual 3 [⟨1, 1⟩, ⟨1, 0⟩] _ :=
    h₂.step (e := some _) (by decide +kernel) rfl
  have h₄ : Course queuedTwice .red .virtual 4 [⟨0, 1⟩, ⟨1, 1⟩, ⟨1, 0⟩] _ :=
    h₃.step (e := some _) (by decide +kernel) rfl
  obtain ⟨hbound, -, -, htaken⟩ := (halts_on_board queuedTwice .red .virtual).1 _ _ _ h₄
  obtain ⟨-, -, hslot⟩ := htaken ⟨0, 1⟩ rfl (by decide +kernel)
  exact ⟨_, _, h₄, hbound, rfl, by decide +kernel, hslot, rfl, rfl⟩

end ChainSearch
end HexGame
