import HexGame.Proofs.Board.Cells
import HexGame.Proofs.Chain.SearchInvariant

/-!
# Runs of the search for a chain

A chain that is found is a direct trail to the far edge. The trails that wait and the cells that can still
be extended bound the steps of a run, so a search without result has extended all that stones join to the
near edge.
-/
namespace HexGame
namespace ChainSearch

variable {b : Board} {color : Color} {mode : Mode} {len : Cell → Nat} {s s' : ChainSearch}
variable {t : Trail} {path : List Cell} {n : Nat}

/-- The state after the first step, when every way onto the board has been queued. -/
def entered (b : Board) (color : Color) (mode : Mode) : ChainSearch :=
  extend b color mode { start b.size with frontier := .empty } ⟨[], none⟩

theorem invariant_entered : Invariant b color mode (fun _ => 0) (entered b color mode) where
  size_visited := by simp [entered, extend, start, CellSet.empty]
  ordered := ordered_foldl_push trivial
  queued := by
    intro q hq
    rcases mem_frontier_foldl_push hq with hq | ⟨l, hl, n, rfl⟩
    · simp [Frontier.toList] at hq
    · exact .link n .start hl (by simp) (by simp)
  inner := by simp [entered, extend, start]
  entered := by
    intro c ho hd
    have hl : ⟨c, none⟩ ∈ links b color mode ⟨[], none⟩ :=
      Board.mem_entryLinks.mpr (.inl ⟨ho, hd, rfl⟩)
    obtain ⟨n, hn⟩ := exists_mem_frontier_foldl_push color b.size 1 ⟨[], none⟩ hl
      (s := { start b.size with frontier := .empty })
      (by simp [start])
    exact .inr ⟨_, hn, [], rfl, by simp⟩
  covered := by simp [entered, extend, start]

/-! ## Steps that are left -/

/-- The cells of the board that have not been extended. -/
def unvisited (b : Board) (visited : CellSet) : Nat := b.cells.countP fun c => !visited.contains c

/-- The trails that wait, and twelve for each cell that can still be extended. -/
def pending (b : Board) (s : ChainSearch) : Nat :=
  s.frontier.toList.length + 12 * unvisited b s.visited

theorem length_onwardLinks_le (c : Cell) (entry : Option Carriers) :
    (b.onwardLinks color mode c entry).length ≤ 12 := by
  have h (f : Direction → Option Link) : (Direction.all.filterMap f).length ≤ 6 :=
    List.length_filterMap_le f _
  cases mode with
  | strict =>
    simp only [Board.onwardLinks]
    exact Nat.le_trans (h _) (by omega)
  | virtual =>
    simp only [Board.onwardLinks, List.length_append]
    exact Nat.add_le_add (h _) (h _)

theorem length_entryLinks_le : (b.entryLinks color mode).length ≤ 2 * b.size := by
  have h (k : Nat) (f : Nat → Option Link) : ((List.range k).filterMap f).length ≤ k := by
    simpa using List.length_filterMap_le f (List.range k)
  cases mode with
  | strict =>
    simp only [Board.entryLinks]
    exact Nat.le_trans (h _ _) (by omega)
  | virtual =>
    simp only [Board.entryLinks, List.length_append]
    exact Nat.le_trans (Nat.add_le_add (h _ _) (h _ _)) (by omega)

theorem unvisited_insert_lt {visited : CellSet} {c : Cell} (hb : b.Contains c)
    (hg : visited.OnGrid c) (hc : visited.contains c = false) :
    unvisited b (visited.insert c) < unvisited b visited := by
  obtain ⟨before, after, hsplit⟩ := List.append_of_mem (Board.mem_cells.mpr hb)
  have hmono (l : List Cell) : l.countP (fun a => !(visited.insert c).contains a) ≤
      l.countP fun a => !visited.contains a := by
    apply List.countP_mono_left
    simp +contextual [CellSet.contains_insert]
  have hcc : (visited.insert c).contains c = true := by simp [CellSet.contains_insert, hg]
  have h₁ := hmono before
  have h₂ := hmono after
  simp only [unvisited, hsplit, List.countP_append, List.countP_cons, hc, hcc, Bool.not_true,
    Bool.not_false, if_true, Bool.false_eq_true, if_false]
  omega

theorem pending_entered_lt (b : Board) (color : Color) (mode : Mode) :
    pending b (entered b color mode) + 1 < bound b.size := by
  have h₁ : (entered b color mode).frontier.toList.length ≤ 2 * b.size :=
    Nat.le_trans (length_frontier_foldl_push ..) (by simpa [Frontier.toList, links] using length_entryLinks_le)
  have h₂ : unvisited b (entered b color mode).visited ≤ b.size * b.size := by
    rw [← b.length_cells]
    exact List.countP_le_length
  simp only [pending, bound]
  omega

theorem Invariant.searching (h : Invariant b color mode len s)
    (hs : step b color mode s = .searching s') :
    pending b s' < pending b s ∧ ∃ len', Invariant b color mode len' s' := by
  obtain ⟨r, t, c, path, rest, hpop, ht, hr, ⟨hv, rfl⟩ | ⟨hv, rfl⟩⟩ := h.step_eq_searching hs
  · refine ⟨?_, len, h.skip hpop ht hv⟩
    simp only [pending, Frontier.length_of_popMin? hpop]
    omega
  · have hinv := h.extend hpop ht hr hv
    refine ⟨?_, _, hinv⟩
    have hb := Board.contains_of_owns (h.owns_of_pop hpop ht hr)
    have h₁ := unvisited_insert_lt hb (h.onGrid hb) hv
    have h₂ : (links b color mode t).length ≤ 12 := by
      simp only [links, ht]
      exact length_onwardLinks_le c t.entry
    have h₃ := length_frontier_foldl_push color b.size (t.path.length + 1) t (links b color mode t)
      { s with frontier := rest, visited := s.visited.insert c }
    simp only [pending, ChainSearch.extend, visited_foldl_push, Frontier.length_of_popMin? hpop]
    simp only at h₃
    omega

/-! ## Runs -/

/-- The states that a search passes through once every way onto the board has been queued. -/
inductive Passes (b : Board) (color : Color) (mode : Mode) : ChainSearch → Prop where
  | entered : Passes b color mode (entered b color mode)
  | step {s s' : ChainSearch} (h : Passes b color mode s) (hs : step b color mode s = .searching s') :
      Passes b color mode s'

theorem Passes.invariant (h : Passes b color mode s) : ∃ len, Invariant b color mode len s := by
  induction h with
  | entered => exact ⟨_, invariant_entered⟩
  | step _ hs ih =>
    obtain ⟨len, h⟩ := ih
    exact (h.searching hs).2

theorem Invariant.direct_of_found (h : Invariant b color mode len s)
    (hs : step b color mode s = .found path) :
    ∃ t c rest, Direct b color mode t ∧ t.path = path ∧ path = c :: rest ∧
      color.remaining b.size c ≤ 0 := by
  obtain ⟨r, t, c, tail, rest, hpop, ht, hc, hr⟩ := h.step_eq_found hs
  exact ⟨t, c, tail, h.direct hpop (ht.trans hc) (fun _ => hr), ht, hc, hr⟩

/-- A run with a result comes to a step that finds it, and whatever its steps keep holds there. -/
theorem found_of_run {P : ChainSearch → Prop}
    (hstep : ∀ s s', P s → step b color mode s = .searching s' → P s') (h : P s)
    (hrun : run b color mode n s = some path) : ∃ s', P s' ∧ step b color mode s' = .found path := by
  induction n generalizing s with
  | zero => simp [run] at hrun
  | succ n ih =>
    simp only [run] at hrun
    cases hs : step b color mode s with
    | exhausted => simp [hs] at hrun
    | found p =>
      simp only [hs, Option.some.injEq] at hrun
      exact ⟨s, h, hrun ▸ hs⟩
    | searching s' =>
      simp only [hs] at hrun
      exact ih (hstep s s' h hs) hrun

/-- With a step for all that is pending, a run without result has emptied the frontier, and whatever its
steps keep along with the invariant holds at its end. -/
theorem exhausted_of_run {P : ChainSearch → Prop}
    (hP : ∀ s, P s → ∃ len, Invariant b color mode len s)
    (hstep : ∀ s s', P s → step b color mode s = .searching s' → P s') (h : P s)
    (hn : pending b s < n) (hrun : run b color mode n s = none) : ∃ s', P s' ∧ s'.frontier = .empty := by
  induction n generalizing s with
  | zero => omega
  | succ n ih =>
    obtain ⟨len, hinv⟩ := hP s h
    simp only [run] at hrun
    cases hs : step b color mode s with
    | exhausted => exact ⟨s, h, hinv.step_eq_exhausted hs⟩
    | found p => simp [hs] at hrun
    | searching s' =>
      obtain ⟨hlt, -⟩ := hinv.searching hs
      simp only [hs] at hrun
      exact ih (hstep s s' h hs) (by omega) hrun

/-- When nothing waits any more, all that stones join to the near edge has been extended, and none of
it lies on the far edge. -/
theorem Invariant.not_spans (h : Invariant b color mode len s) (he : s.frontier = .empty) :
    ¬ Spans color b.size (b.owns color · = true) := by
  have hvisited {c : Cell} {k : Nat} (ha : s.Awaited c k) : s.visited.contains c = true := by
    rcases ha with hv | ⟨q, hq, -⟩
    · exact hv
    · simp [he, Frontier.toList] at hq
  have hjoined {c : Cell} (hj : Joined color (b.owns color · = true) c) :
      s.visited.contains c = true := by
    induction hj with
    | edge ho hd => exact hvisited (h.entered _ ho hd)
    | beside d _ ho ih => exact hvisited (h.covered _ ih d ho)
  rintro ⟨c, hj, hr⟩
  have := (h.inner c (hjoined hj)).2
  omega

end ChainSearch

namespace Board

variable {b : Board} {color : Color} {mode : Mode}

theorem findChain_eq : b.findChain color mode =
    ChainSearch.run b color mode (ChainSearch.bound b.size - 1)
      (ChainSearch.entered b color mode) := rfl

theorem passes_of_findChain {path : List Cell} (h : b.findChain color mode = some path) :
    ∃ s, ChainSearch.Passes b color mode s ∧ ChainSearch.step b color mode s = .found path :=
  ChainSearch.found_of_run (fun _ _ => .step) .entered (findChain_eq ▸ h)

theorem passes_of_findChain_eq_none (h : b.findChain color mode = none) :
    ∃ s, ChainSearch.Passes b color mode s ∧ s.frontier = .empty := by
  have hbound := ChainSearch.pending_entered_lt b color mode
  exact ChainSearch.exhausted_of_run (fun _ h => h.invariant) (fun _ _ => .step) .entered (by omega)
    (findChain_eq ▸ h)

theorem direct_of_findChain {path : List Cell} (h : b.findChain color mode = some path) :
    ∃ t c rest, ChainSearch.Direct b color mode t ∧ t.path = path ∧ path = c :: rest ∧
      color.remaining b.size c ≤ 0 := by
  obtain ⟨s, hs, hfound⟩ := passes_of_findChain h
  obtain ⟨len, hinv⟩ := hs.invariant
  exact hinv.direct_of_found hfound

theorem isConnected_of_spans (h : Spans color b.size (b.owns color · = true)) :
    b.isConnected color mode = true := by
  rw [isConnected, Option.isSome_iff_ne_none]
  intro hn
  obtain ⟨s, hs, hempty⟩ := passes_of_findChain_eq_none hn
  obtain ⟨len, hinv⟩ := hs.invariant
  exact hinv.not_spans hempty h

end Board
end HexGame
