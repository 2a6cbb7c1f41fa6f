import HexGame.Proofs.Chain.SearchRun

/-!
# What the search for a chain covers

A cell is extended once, over the links that the trail by which it came allows. So the search covers the
links of every extended cell for the one bridge over which this cell was entered (`Coverage.onward`), and
that bridge comes from a cell that was extended before it (`Coverage.source`).
-/
namespace HexGame
namespace ChainSearch

variable {b : Board} {color : Color} {mode : Mode} {len : Cell → Nat} {s s' : ChainSearch}
variable {entry : Cell → Option Carriers} {r : Rank} {t : Trail} {c : Cell} {path : List Cell}
variable {rest : Frontier Trail} {n : Nat}

/-- Where the bridge over which a trail entered its newest cell comes from: from the near edge, or from a
cell that was extended by a shorter trail. -/
inductive EnteredFrom (b : Board) (color : Color) (len : Cell → Nat) (visited : CellSet) (k : Nat) :
    Cell → Carriers → Prop where
  | edge {c : Cell} (hd : color.depth c = 1) (hopen : b.isOpen (color.edgeCarriers c) = true) :
      EnteredFrom b color len visited k c (color.edgeCarriers c)
  | leap {a : Cell} (d : Direction) (ha : visited.contains a = true) (hlt : len a < k)
      (hopen : b.isOpen (a.carriers d) = true) :
      EnteredFrom b color len visited k (a.leap d) (a.carriers d)

/-- What has been queued in the course of a search; `entry` keeps the bridge over which a cell was entered
by the trail that extended it. -/
structure Coverage (b : Board) (color : Color) (mode : Mode) (len : Cell → Nat)
    (entry : Cell → Option Carriers) (s : ChainSearch) : Prop where
  entered : ∀ l ∈ b.entryLinks color mode, ∃ k, s.Awaited l.target k
  onward : ∀ c, s.visited.contains c = true → ∀ l ∈ b.onwardLinks color mode c (entry c),
    ∃ k, s.Awaited l.target k
  source : ∀ c p, s.visited.contains c = true → entry c = some p →
    EnteredFrom b color len s.visited (len c) c p

/-- The search has kept its invariant and what it has covered. -/
def Covered (b : Board) (color : Color) (mode : Mode) (s : ChainSearch) : Prop :=
  ∃ len entry, Invariant b color mode len s ∧ Coverage b color mode len entry s

theorem EnteredFrom.mono {p : Carriers} {k : Nat} {visited visited' : CellSet} {len' : Cell → Nat}
    (hv : ∀ a, visited.contains a = true → visited'.contains a = true ∧ len' a = len a)
    (h : EnteredFrom b color len visited k c p) : EnteredFrom b color len' visited' k c p := by
  cases h with
  | edge hd hopen => exact .edge hd hopen
  | leap d ha hlt hopen =>
    obtain ⟨ha', hlen⟩ := hv _ ha
    exact .leap d ha' (hlen ▸ hlt) hopen

/-- The bridge that an entry of the frontier has crossed last. -/
theorem Queued.enteredFrom {q : Rank × Trail} {visited : CellSet} {p : Carriers}
    (h : Queued b color mode len visited q) (hq : q.2.path = c :: path) (hp : q.2.entry = some p) :
    EnteredFrom b color len visited (path.length + 1) c p := by
  obtain ⟨⟨u, l, -, hl, rfl, he, rfl⟩, hvisited, hlen, -⟩ := h.cons_inv hq
  rw [he] at hp
  cases leads_of_mem_links hl with
  | edge => simp at hp
  | edgeBridge _ _ _ hd hopen =>
    obtain rfl := Option.some.inj hp
    exact .edge hd hopen
  | beside => simp at hp
  | @bridge a us d ht _ hopen =>
    obtain rfl := Option.some.inj hp
    refine .leap d (hvisited a (by simp [ht])) ?_ hopen
    rw [hlen a us (ht ▸ List.suffix_refl _), ht, List.length_cons]
    omega

theorem coverage_entered :
    Coverage b color mode (fun _ => 0) (fun _ => none) (entered b color mode) where
  entered := by
    intro l hl
    obtain ⟨n, hn⟩ := exists_mem_frontier_foldl_push color b.size 1 ⟨[], none⟩ hl
      (s := { start b.size with frontier := .empty }) (by simp [start])
    exact ⟨0, .inr ⟨_, hn, [], rfl, by simp⟩⟩
  onward := by simp [HexGame.ChainSearch.entered, extend, start]
  source := by simp

namespace Coverage

theorem skip (h : Coverage b color mode len entry s) (hinv : Invariant b color mode len s)
    (hpop : s.frontier.popMin? = some ((r, t), rest)) (ht : t.path = c :: path)
    (hc : s.visited.contains c = true) : Coverage b color mode len entry { s with frontier := rest } where
  entered l hl := by
    obtain ⟨k, hk⟩ := h.entered l hl
    exact ⟨k, hinv.awaited_skip hpop ht hc hk⟩
  onward a ha l hl := by
    obtain ⟨k, hk⟩ := h.onward a ha l hl
    exact ⟨k, hinv.awaited_skip hpop ht hc hk⟩
  source := h.source

theorem extend (h : Coverage b color mode len entry s) (hinv : Invariant b color mode len s)
    (hpop : s.frontier.popMin? = some ((r, t), rest)) (ht : t.path = c :: path)
    (hr : 0 < color.remaining b.size c) (hc : s.visited.contains c = false) :
    Coverage b color mode (fun a => if a = c then path.length + 1 else len a)
      (fun a => if a = c then t.entry else entry a)
      (ChainSearch.extend b color mode
        { s with frontier := rest, visited := s.visited.insert c } t) := by
  obtain ⟨-, -, hmem⟩ := Frontier.le_of_popMin? hinv.ordered hpop
  have hinsert (a : Cell) := hinv.contains_extend (a := a) hpop ht hr
  have hne {a : Cell} (ha : s.visited.contains a = true) : a ≠ c := fun e => by simp [e, hc] at ha
  have hmono {a : Cell} {p : Carriers} {k : Nat} (hp : EnteredFrom b color len s.visited k a p) :
      EnteredFrom b color (fun a => if a = c then path.length + 1 else len a)
        (ChainSearch.extend b color mode
          { s with frontier := rest, visited := s.visited.insert c } t).visited k a p :=
    hp.mono fun a ha => ⟨(hinsert a).mpr (.inr ha), if_neg (hne ha)⟩
  refine ⟨fun l hl => ?_, fun a ha l hl => ?_, fun a p ha hp => ?_⟩
  · obtain ⟨k, hk⟩ := h.entered l hl
    exact ⟨k, hinv.awaited_extend hpop ht hr hk⟩
  · rcases (hinsert a).mp ha with rfl | ha
    · refine ⟨_, hinv.awaited_extend_of_mem_links hpop ht hr ?_⟩
      simpa [links, ht] using hl
    · rw [if_neg (hne ha)] at hl
      obtain ⟨k, hk⟩ := h.onward a ha l hl
      exact ⟨k, hinv.awaited_extend hpop ht hr hk⟩
  · rcases (hinsert a).mp ha with rfl | ha
    · simp only [if_true] at hp ⊢
      exact hmono ((hinv.queued (r, t) ((hmem _).mpr (.inl rfl))).enteredFrom ht hp)
    · simp only [if_neg (hne ha)] at hp ⊢
      exact hmono (h.source a p ha hp)

theorem searching (h : Coverage b color mode len entry s) (hinv : Invariant b color mode len s)
    (hs : step b color mode s = .searching s') : Covered b color mode s' := by
  obtain ⟨r, t, c, path, rest, hpop, ht, hr, ⟨hv, rfl⟩ | ⟨hv, rfl⟩⟩ := hinv.step_eq_searching hs
  · exact ⟨len, entry, hinv.skip hpop ht hv, h.skip hinv hpop ht hv⟩
  · exact ⟨_, _, hinv.extend hpop ht hr hv, h.extend hinv hpop ht hr hv⟩

end Coverage

theorem Passes.covered (h : Passes b color mode s) : Covered b color mode s := by
  induction h with
  | entered => exact ⟨_, _, invariant_entered, coverage_entered⟩
  | step _ hs ih =>
    obtain ⟨_, _, hinv, hcoverage⟩ := ih
    exact hcoverage.searching hinv hs

/-- What a search without result has covered in the end: cells before the far edge, with all links onto the
board and all links on from each of them. -/
structure Exhausted (b : Board) (color : Color) (mode : Mode) (len : Cell → Nat)
    (entry : Cell → Option Carriers) (visited : CellSet) : Prop where
  inner : ∀ c, visited.contains c = true → b.owns color c = true ∧ 0 < color.remaining b.size c
  entered : ∀ l ∈ b.entryLinks color mode, visited.contains l.target = true
  onward : ∀ c, visited.contains c = true → ∀ l ∈ b.onwardLinks color mode c (entry c),
    visited.contains l.target = true
  source : ∀ c p, visited.contains c = true → entry c = some p →
    EnteredFrom b color len visited (len c) c p

theorem exists_exhausted (h : b.isConnected color mode = false) :
    ∃ len entry visited, Exhausted b color mode len entry visited := by
  rw [Board.isConnected, Option.isSome_eq_false_iff, Option.isNone_iff_eq_none] at h
  obtain ⟨s, hpasses, he⟩ := Board.passes_of_findChain_eq_none h
  obtain ⟨len, entry, hinv, hs⟩ := hpasses.covered
  have hvisited {c : Cell} (ha : ∃ k, s.Awaited c k) : s.visited.contains c = true := by
    obtain ⟨k, hv | ⟨q, hq, -⟩⟩ := ha
    · exact hv
    · simp [he, Frontier.toList] at hq
  exact ⟨len, entry, s.visited, hinv.inner, fun l hl => hvisited (hs.entered l hl),
    fun c hc l hl => hvisited (hs.onward c hc l hl), hs.source⟩

end ChainSearch
end HexGame
