import HexGame.Proofs.Chain.Joined

/-!
# The invariant of the search for a chain

A trail of the frontier leads along links over cells that have been extended before. Because the frontier
hands out a least entry, a cell is extended by the shortest of the trails that wait for it, and from this
the trails run without detours (`Direct`): a cell beside an earlier one of its trail comes right after it.
-/
namespace HexGame
namespace ChainSearch

variable {b : Board} {color : Color} {mode : Mode} {len : Cell → Nat} {s s' : ChainSearch}
variable {t : Trail} {l : Link} {c : Cell}

/-- The trails along links that pass no cell twice, stay before the far edge until their last cell, and
take the step from a cell to a neighbour at once if they take it at all. -/
inductive Direct (b : Board) (color : Color) (mode : Mode) : Trail → Prop where
  | start : Direct b color mode ⟨[], none⟩
  | go {t : Trail} {l : Link} (ht : Direct b color mode t) (hl : l ∈ links b color mode t)
      (hnew : l.target ∉ t.path) (hinner : ∀ a ∈ t.path, 0 < color.remaining b.size a)
      (hbeside : ∀ a path, a :: path <:+ t.path → a.isAdjacent l.target = true → a :: path = t.path) :
      Direct b color mode ⟨l.target :: t.path, l.via⟩

/-- The entries of the frontier: a direct trail over extended cells and one link more. The length of the
trail by which a cell was extended is kept in `len`. -/
inductive Queued (b : Board) (color : Color) (mode : Mode) (len : Cell → Nat) (visited : CellSet) :
    Rank × Trail → Prop where
  | link {t : Trail} {l : Link} (serial : Nat) (ht : Direct b color mode t)
      (hl : l ∈ links b color mode t) (hvisited : ∀ a ∈ t.path, visited.contains a = true)
      (hlen : ∀ a path, a :: path <:+ t.path → len a = path.length + 1) :
      Queued b color mode len visited
        (⟨(t.path.length + 1 : Nat) + color.remaining b.size l.target, serial⟩,
          ⟨l.target :: t.path, l.via⟩)

/-- The cell has been extended, or a trail with at most `k` cells before it waits for it. -/
def Awaited (s : ChainSearch) (c : Cell) (k : Nat) : Prop :=
  s.visited.contains c = true ∨
    ∃ q ∈ s.frontier.toList, ∃ path, q.2.path = c :: path ∧ path.length ≤ k

structure Invariant (b : Board) (color : Color) (mode : Mode) (len : Cell → Nat) (s : ChainSearch) :
    Prop where
  size_visited : s.visited.size = b.size
  ordered : s.frontier.Ordered
  queued : ∀ q ∈ s.frontier.toList, Queued b color mode len s.visited q
  inner : ∀ c, s.visited.contains c = true → b.owns color c = true ∧ 0 < color.remaining b.size c
  entered : ∀ c, b.owns color c = true → color.depth c = 0 → s.Awaited c 0
  covered : ∀ c, s.visited.contains c = true → ∀ d, b.owns color (c.step d) = true →
    s.Awaited (c.step d) (len c)

/-! ## Links -/

/-- The kinds of links of a trail: onto the board to a stone on the near edge or over the bridge to it, and
on from the newest cell to a stone beside it or over an open bridge. -/
inductive Leads (b : Board) (color : Color) (mode : Mode) (t : Trail) : Link → Prop where
  | edge {c : Cell} (ht : t.path = []) (ho : b.owns color c = true) (hd : color.depth c = 0) :
      Leads b color mode t ⟨c, none⟩
  | edgeBridge {c : Cell} (ht : t.path = []) (hmode : mode = .virtual) (ho : b.owns color c = true)
      (hd : color.depth c = 1) (hopen : b.isOpen (color.edgeCarriers c) = true) :
      Leads b color mode t ⟨c, some (color.edgeCarriers c)⟩
  | beside {c : Cell} {rest : List Cell} (d : Direction) (ht : t.path = c :: rest)
      (ho : b.owns color (c.step d) = true) : Leads b color mode t ⟨c.step d, none⟩
  | bridge {c : Cell} {rest : List Cell} (d : Direction) (ht : t.path = c :: rest)
      (hmode : mode = .virtual) (hopen : b.isOpen (c.carriers d) = true)
      (hfree : ∀ p, t.entry = some p → (c.carriers d).overlaps p = false)
      (hend : color.isPastFarEdge b.size (c.leap d) = true ∨ b.owns color (c.leap d) = true) :
      Leads b color mode t ⟨c.leap d, some (c.carriers d)⟩

theorem leads_of_mem_links (hl : l ∈ links b color mode t) : Leads b color mode t l := by
  rw [links] at hl
  split at hl
  · rename_i ht
    obtain ⟨c, via⟩ := l
    rcases Board.mem_entryLinks.mp hl with ⟨ho, hd, hv⟩ | ⟨hmode, ho, hd, hopen, hv⟩
    · obtain rfl : via = none := hv
      exact .edge ht ho hd
    · obtain rfl : via = some (color.edgeCarriers c) := hv
      exact .edgeBridge ht hmode ho hd hopen
  · rename_i ht
    rcases Board.mem_onwardLinks.mp hl with ⟨d, ho, rfl⟩ | ⟨hmode, d, hopen, hfree, hend, rfl⟩
    · exact .beside d ht ho
    · exact .bridge d ht hmode hopen hfree hend

theorem owns_or_past_of_mem_links (hl : l ∈ links b color mode t) :
    b.owns color l.target = true ∨ color.isPastFarEdge b.size l.target = true := by
  cases leads_of_mem_links hl with
  | edge _ ho _ => exact .inl ho
  | edgeBridge _ _ ho _ _ => exact .inl ho
  | beside _ _ ho => exact .inl ho
  | bridge _ _ _ _ _ hend => exact hend.symm

theorem remaining_neg_of_past (h : color.isPastFarEdge b.size c = true) :
    color.remaining b.size c < 0 := by
  simp only [Color.isPastFarEdge, Bool.and_eq_true, decide_eq_true_eq] at h
  unfold Color.remaining
  omega

theorem owns_of_mem_links (hl : l ∈ links b color mode t) (hr : 0 < color.remaining b.size l.target) :
    b.owns color l.target = true := by
  rcases owns_or_past_of_mem_links hl with h | h
  · exact h
  · have := remaining_neg_of_past h
    omega

theorem mem_links_step {path : List Cell} (ht : t.path = c :: path) {d : Direction}
    (hd : b.owns color (c.step d) = true) : ⟨c.step d, none⟩ ∈ links b color mode t := by
  simp only [links, ht]
  exact Board.mem_onwardLinks.mpr (.inl ⟨d, hd, rfl⟩)

/-! ## Queueing the links of a trail -/

section Push

variable {size cost : Nat} {ls : List Link}

@[simp] theorem visited_push : (push color size t cost s l).visited = s.visited := by
  unfold push
  split <;> rfl

@[simp] theorem visited_foldl_push : (ls.foldl (push color size t cost) s).visited = s.visited := by
  induction ls generalizing s with
  | nil => rfl
  | cons l ls ih => simp [ih]

theorem ordered_foldl_push (h : s.frontier.Ordered) :
    (ls.foldl (push color size t cost) s).frontier.Ordered := by
  induction ls generalizing s with
  | nil => exact h
  | cons l ls ih =>
    apply ih
    unfold push
    split
    · exact h
    · exact h.insert _ _

theorem mem_frontier_push {q : Rank × Trail} :
    q ∈ (push color size t cost s l).frontier.toList ↔ q ∈ s.frontier.toList ∨
      s.visited.contains l.target = false ∧
        q = (⟨cost + color.remaining size l.target, s.serial⟩, ⟨l.target :: t.path, l.via⟩) := by
  cases hv : s.visited.contains l.target with
  | true => simp [push, hv]
  | false => simp [push, hv, Frontier.mem_toList_insert, or_comm]

/-- The entries after queueing are those from before and one for each link to a cell that has not been
extended. -/
theorem mem_frontier_foldl_push {q : Rank × Trail}
    (hq : q ∈ (ls.foldl (push color size t cost) s).frontier.toList) :
    q ∈ s.frontier.toList ∨ ∃ l ∈ ls, ∃ serial,
      q = (⟨cost + color.remaining size l.target, serial⟩, ⟨l.target :: t.path, l.via⟩) := by
  induction ls generalizing s with
  | nil => exact .inl hq
  | cons l ls ih =>
    rcases ih hq with hq | ⟨l', hl', n, rfl⟩
    · rcases mem_frontier_push.mp hq with hq | ⟨-, rfl⟩
      · exact .inl hq
      · exact .inr ⟨l, by simp, _, rfl⟩
    · exact .inr ⟨l', by simp [hl'], n, rfl⟩

theorem mem_frontier_foldl_push_of_mem {q : Rank × Trail} (hq : q ∈ s.frontier.toList) :
    q ∈ (ls.foldl (push color size t cost) s).frontier.toList := by
  induction ls generalizing s with
  | nil => exact hq
  | cons l ls ih =>
    apply ih
    exact mem_frontier_push.mpr (.inl hq)

theorem exists_mem_frontier_foldl_push (color : Color) (size cost : Nat) (t : Trail) (hl : l ∈ ls)
    (hv : s.visited.contains l.target = false) :
    ∃ serial, ((⟨cost + color.remaining size l.target, serial⟩, ⟨l.target :: t.path, l.via⟩) :
      Rank × Trail) ∈ (ls.foldl (push color size t cost) s).frontier.toList := by
  induction ls generalizing s with
  | nil => simp at hl
  | cons l' ls ih =>
    rcases List.mem_cons.mp hl with rfl | hl
    · refine ⟨s.serial, mem_frontier_foldl_push_of_mem (s := push color size t cost s l) ?_⟩
      exact mem_frontier_push.mpr (.inr ⟨hv, rfl⟩)
    · exact ih hl (by rwa [visited_push])

theorem length_frontier_foldl_push (color : Color) (size cost : Nat) (t : Trail) (ls : List Link)
    (s : ChainSearch) :
    (ls.foldl (push color size t cost) s).frontier.toList.length ≤
      s.frontier.toList.length + ls.length := by
  induction ls generalizing s with
  | nil => simp
  | cons l ls ih =>
    have h : (push color size t cost s l).frontier.toList.length ≤ s.frontier.toList.length + 1 := by
      unfold push
      split
      · omega
      · simp [Frontier.insert, Frontier.length_toList_meld, Frontier.toList]
        omega
    have := ih (push color size t cost s l)
    simp only [List.foldl_cons, List.length_cons]
    omega

end Push

/-! ## Steps -/

theorem Queued.path_ne_nil {q : Rank × Trail} {visited : CellSet}
    (h : Queued b color mode len visited q) : q.2.path ≠ [] := by
  cases h
  simp

/-- What an entry of the frontier says about its trail, by the newest cell and the others. -/
theorem Queued.cons_inv {q : Rank × Trail} {visited : CellSet} {path : List Cell}
    (h : Queued b color mode len visited q) (hq : q.2.path = c :: path) :
    (∃ u l, Direct b color mode u ∧ l ∈ links b color mode u ∧ u.path = path ∧
      q.2 = ⟨l.target :: u.path, l.via⟩ ∧ l.target = c) ∧
      (∀ a ∈ path, visited.contains a = true) ∧
      (∀ a p, a :: p <:+ path → len a = p.length + 1) ∧
      q.1.priority = (path.length + 1 : Nat) + color.remaining b.size c := by
  cases h with
  | @link u l n hu hl hvisited hlen =>
    obtain ⟨rfl, rfl⟩ := List.cons.inj hq
    exact ⟨⟨u, l, hu, hl, rfl, rfl, rfl⟩, hvisited, hlen, rfl⟩

theorem Queued.mono {q : Rank × Trail} {visited visited' : CellSet} {len' : Cell → Nat}
    (hv : ∀ c, visited.contains c = true → visited'.contains c = true ∧ len' c = len c)
    (h : Queued b color mode len visited q) : Queued b color mode len' visited' q := by
  cases h with
  | link n ht hl hvisited hlen =>
    refine .link n ht hl (fun a ha => (hv a (hvisited a ha)).1) (fun a path hs => ?_)
    rw [(hv a (hvisited a (hs.subset (by simp)))).2]
    exact hlen a path hs

/-- A cell stays awaited if the trail that is taken away waited for a cell that has been extended. -/
theorem Awaited.mono {k : Nat} {r : Rank} {path : List Cell} {rest : Frontier Trail} {c' : Cell}
    (h : s.Awaited c k) (hv : ∀ c, s.visited.contains c = true → s'.visited.contains c = true)
    (ht : t.path = c' :: path) (hc' : s'.visited.contains c' = true)
    (hpop : ∀ q, q ∈ s.frontier.toList ↔ q = (r, t) ∨ q ∈ rest.toList)
    (hrest : ∀ q ∈ rest.toList, q ∈ s'.frontier.toList) : s'.Awaited c k := by
  rcases h with h | ⟨q, hq, path', hp, hk⟩
  · exact .inl (hv c h)
  · rcases (hpop q).mp hq with rfl | hq
    · rw [ht] at hp
      obtain ⟨rfl, -⟩ := List.cons.inj hp
      exact .inl hc'
    · exact .inr ⟨q, hrest q hq, path', hp, hk⟩

/-- What a step does once every trail has entered the board. -/
theorem step_cases (b : Board) (color : Color) (mode : Mode) (hs : ∀ q ∈ s.frontier.toList, q.2.path ≠ []) :
    (s.frontier = .empty ∧ step b color mode s = .exhausted) ∨
      ∃ r t c path rest, s.frontier.popMin? = some ((r, t), rest) ∧ t.path = c :: path ∧
        ((color.remaining b.size c ≤ 0 ∧ step b color mode s = .found t.path) ∨
          (0 < color.remaining b.size c ∧ s.visited.contains c = true ∧
            step b color mode s = .searching { s with frontier := rest }) ∨
          (0 < color.remaining b.size c ∧ s.visited.contains c = false ∧
            step b color mode s = .searching (extend b color mode
              { s with frontier := rest, visited := s.visited.insert c } t))) := by
  cases hf : s.frontier with
  | empty => exact .inl ⟨rfl, by simp [step, hf, Frontier.popMin?]⟩
  | node r t left right =>
    have ht : t.path ≠ [] := hs (r, t) (by simp [hf, Frontier.toList])
    obtain ⟨c, path, hp⟩ := List.exists_cons_of_ne_nil ht
    refine .inr ⟨r, t, c, path, _, rfl, hp, ?_⟩
    by_cases hr : color.remaining b.size c ≤ 0
    · exact .inl ⟨hr, by simp [step, hf, Frontier.popMin?, hp, hr]⟩
    · by_cases hv : s.visited.contains c = true
      · exact .inr (.inl ⟨by omega, hv, by simp [step, hf, Frontier.popMin?, hp, hr, hv]⟩)
      · exact .inr (.inr ⟨by omega, by simpa using hv,
          by simp [step, hf, Frontier.popMin?, hp, hr, hv]⟩)

namespace Invariant

variable {r : Rank} {path : List Cell} {rest : Frontier Trail}

theorem step_eq_exhausted (h : Invariant b color mode len s) (hs : step b color mode s = .exhausted) :
    s.frontier = .empty := by
  rcases step_cases b color mode (fun q hq => (h.queued q hq).path_ne_nil) with
    ⟨hempty, -⟩ | ⟨r, t, c, path, rest, -, -, ⟨-, he⟩ | ⟨-, -, he⟩ | ⟨-, -, he⟩⟩
  · exact hempty
  all_goals simp [he] at hs

theorem step_eq_found (h : Invariant b color mode len s) (hs : step b color mode s = .found path) :
    ∃ r t c tail rest, s.frontier.popMin? = some ((r, t), rest) ∧ t.path = path ∧ path = c :: tail ∧
      color.remaining b.size c ≤ 0 := by
  rcases step_cases b color mode (fun q hq => (h.queued q hq).path_ne_nil) with
    ⟨-, he⟩ | ⟨r, t, c, tail, rest, hpop, ht, ⟨hr, he⟩ | ⟨-, -, he⟩ | ⟨-, -, he⟩⟩
  · simp [he] at hs
  · obtain rfl := Progress.found.inj (he.symm.trans hs)
    exact ⟨r, t, c, tail, rest, hpop, rfl, ht, hr⟩
  all_goals simp [he] at hs

/-- A step that goes on drops a trail to a cell that has been extended, or extends one to another cell. -/
theorem step_eq_searching {s' : ChainSearch} (h : Invariant b color mode len s)
    (hs : step b color mode s = .searching s') :
    ∃ r t c path rest, s.frontier.popMin? = some ((r, t), rest) ∧ t.path = c :: path ∧
      0 < color.remaining b.size c ∧
      ((s.visited.contains c = true ∧ s' = { s with frontier := rest }) ∨
        (s.visited.contains c = false ∧
          s' = extend b color mode { s with frontier := rest, visited := s.visited.insert c } t)) := by
  rcases step_cases b color mode (fun q hq => (h.queued q hq).path_ne_nil) with
    ⟨-, he⟩ | ⟨r, t, c, path, rest, hpop, ht, ⟨-, he⟩ | ⟨hr, hv, he⟩ | ⟨hr, hv, he⟩⟩
  · simp [he] at hs
  · simp [he] at hs
  all_goals obtain rfl := Progress.searching.inj (he.symm.trans hs)
  · exact ⟨r, t, c, path, rest, hpop, ht, hr, .inl ⟨hv, rfl⟩⟩
  · exact ⟨r, t, c, path, rest, hpop, ht, hr, .inr ⟨hv, rfl⟩⟩

theorem priority_le_of_pop {q : Rank × Trail} (h : Invariant b color mode len s)
    (hpop : s.frontier.popMin? = some ((r, t), rest)) (hq : q ∈ s.frontier.toList) :
    r.priority ≤ q.1.priority := by
  obtain ⟨-, hmin, hmem⟩ := Frontier.le_of_popMin? h.ordered hpop
  rcases (hmem q).mp hq with rfl | hq
  · exact Int.le_refl _
  · have := Rank.le_iff.mp (hmin q hq)
    simp only at this
    omega

theorem direct (h : Invariant b color mode len s) (hpop : s.frontier.popMin? = some ((r, t), rest))
    (ht : t.path = c :: path)
    (hc : s.visited.contains c = true → color.remaining b.size c ≤ 0) : Direct b color mode t := by
  obtain ⟨-, -, hmem⟩ := Frontier.le_of_popMin? h.ordered hpop
  have hq := h.queued (r, t) ((hmem _).mpr (.inl rfl))
  have hfresh : ¬ s.visited.contains c = true := fun hv => by
    have := (h.inner c hv).2
    have := hc hv
    omega
  obtain ⟨⟨u, l, hu, hl, rfl, hte, rfl⟩, hvisited, hlen, hprio⟩ := hq.cons_inv ht
  simp only at hte hprio
  subst hte
  refine .go hu hl (fun hm => hfresh (hvisited _ hm)) (fun a ha => (h.inner a (hvisited a ha)).2) ?_
  intro a p hs hadj
  have ha := hvisited a (hs.subset (by simp))
  obtain ⟨d, hd⟩ := Cell.isAdjacent_iff.mp hadj
  rcases owns_or_past_of_mem_links hl with ho | hpast
  · rcases h.covered a ha d (hd ▸ ho) with hv | ⟨q, hq, p', hp', hk⟩
    · exact absurd (hd ▸ hv) hfresh
    · -- The trail that `a` queued for this cell is still waiting, so it is no shorter.
      have hle := h.priority_le_of_pop hpop hq
      have hq' := ((h.queued q hq).cons_inv hp').2.2.2
      rw [hd] at hq'
      rw [hlen a p hs] at hk
      apply hs.eq_of_length_le
      simp only [List.length_cons]
      omega
  · have h₁ := remaining_neg_of_past hpast
    have h₂ := (color.depth_step a d).2
    have h₃ := (h.inner a ha).2
    rw [hd] at h₂
    unfold Color.remaining at h₁ h₃
    omega

theorem owns_of_pop (h : Invariant b color mode len s)
    (hpop : s.frontier.popMin? = some ((r, t), rest)) (ht : t.path = c :: path)
    (hr : 0 < color.remaining b.size c) : b.owns color c = true := by
  obtain ⟨-, -, hmem⟩ := Frontier.le_of_popMin? h.ordered hpop
  obtain ⟨⟨u, l, -, hl, -, -, rfl⟩, -⟩ := (h.queued (r, t) ((hmem _).mpr (.inl rfl))).cons_inv ht
  exact owns_of_mem_links hl hr

theorem onGrid (h : Invariant b color mode len s) (hc : b.Contains c) : s.visited.OnGrid c := by
  unfold Board.Contains at hc
  simpa [CellSet.OnGrid, h.size_visited] using hc

theorem awaited_skip {a : Cell} {k : Nat} (h : Invariant b color mode len s)
    (hpop : s.frontier.popMin? = some ((r, t), rest)) (ht : t.path = c :: path)
    (hc : s.visited.contains c = true) (ha : s.Awaited a k) :
    ({ s with frontier := rest } : ChainSearch).Awaited a k := by
  obtain ⟨-, -, hmem⟩ := Frontier.le_of_popMin? h.ordered hpop
  exact ha.mono (fun _ hv => hv) ht hc hmem (fun _ hq => hq)

theorem skip (h : Invariant b color mode len s) (hpop : s.frontier.popMin? = some ((r, t), rest))
    (ht : t.path = c :: path) (hc : s.visited.contains c = true) :
    Invariant b color mode len { s with frontier := rest } := by
  obtain ⟨hord, -, hmem⟩ := Frontier.le_of_popMin? h.ordered hpop
  exact {
    size_visited := h.size_visited
    ordered := hord
    queued := fun q hq => h.queued q ((hmem q).mpr (.inr hq))
    inner := h.inner
    entered := fun c ho hd => h.awaited_skip hpop ht hc (h.entered c ho hd)
    covered := fun c hv d hd => h.awaited_skip hpop ht hc (h.covered c hv d hd) }

theorem contains_extend {a : Cell} (h : Invariant b color mode len s)
    (hpop : s.frontier.popMin? = some ((r, t), rest)) (ht : t.path = c :: path)
    (hr : 0 < color.remaining b.size c) :
    (ChainSearch.extend b color mode { s with frontier := rest, visited := s.visited.insert c } t).visited.contains a =
      true ↔ a = c ∨ s.visited.contains a = true := by
  have hgrid := h.onGrid (Board.contains_of_owns (h.owns_of_pop hpop ht hr))
  simp [ChainSearch.extend, CellSet.contains_insert, hgrid]

theorem awaited_extend {a : Cell} {k : Nat} (h : Invariant b color mode len s)
    (hpop : s.frontier.popMin? = some ((r, t), rest)) (ht : t.path = c :: path)
    (hr : 0 < color.remaining b.size c) (ha : s.Awaited a k) :
    (ChainSearch.extend b color mode { s with frontier := rest, visited := s.visited.insert c } t).Awaited
      a k := by
  obtain ⟨-, -, hmem⟩ := Frontier.le_of_popMin? h.ordered hpop
  refine ha.mono (fun a hv => ?_) ht ?_ hmem (fun q hq => ?_)
  · exact (h.contains_extend hpop ht hr).mpr (.inr hv)
  · exact (h.contains_extend hpop ht hr).mpr (.inl rfl)
  · exact mem_frontier_foldl_push_of_mem hq

theorem awaited_extend_of_mem_links (h : Invariant b color mode len s)
    (hpop : s.frontier.popMin? = some ((r, t), rest)) (ht : t.path = c :: path)
    (hr : 0 < color.remaining b.size c) (hl : l ∈ links b color mode t) :
    (ChainSearch.extend b color mode { s with frontier := rest, visited := s.visited.insert c } t).Awaited
      l.target t.path.length := by
  by_cases hv : l.target = c ∨ s.visited.contains l.target = true
  · exact .inl ((h.contains_extend hpop ht hr).mpr hv)
  · have hgrid := h.onGrid (Board.contains_of_owns (h.owns_of_pop hpop ht hr))
    obtain ⟨n, hn⟩ := exists_mem_frontier_foldl_push color b.size (t.path.length + 1) t hl
      (s := { s with frontier := rest, visited := s.visited.insert c })
      (by simpa [CellSet.contains_insert, hgrid] using hv)
    exact .inr ⟨_, hn, t.path, rfl, Nat.le_refl _⟩

theorem extend (h : Invariant b color mode len s) (hpop : s.frontier.popMin? = some ((r, t), rest))
    (ht : t.path = c :: path) (hr : 0 < color.remaining b.size c)
    (hc : s.visited.contains c = false) :
    Invariant b color mode (fun a => if a = c then path.length + 1 else len a)
      (ChainSearch.extend b color mode
        { s with frontier := rest, visited := s.visited.insert c } t) := by
  obtain ⟨hord, -, hmem⟩ := Frontier.le_of_popMin? h.ordered hpop
  have hdirect : Direct b color mode t := h.direct hpop ht (by simp [hc])
  obtain ⟨-, hvisited, hlen, -⟩ := (h.queued (r, t) ((hmem _).mpr (.inl rfl))).cons_inv ht
  have hown := h.owns_of_pop hpop ht hr
  have hinsert (a : Cell) := h.contains_extend (a := a) hpop ht hr
  have hold (a : Cell) (ha : s.visited.contains a = true) :
      (if a = c then path.length + 1 else len a) = len a := by
    have hne : a ≠ c := fun e => by simp [e, hc] at ha
    exact if_neg hne
  refine {
    size_visited := by simpa [ChainSearch.extend] using h.size_visited
    ordered := ordered_foldl_push hord
    queued := fun q hq => ?_
    inner := fun a ha => ?_
    entered := fun a ho hd => h.awaited_extend hpop ht hr (h.entered a ho hd)
    covered := fun a ha d hd => ?_ }
  · rcases mem_frontier_foldl_push hq with hq | ⟨l, hl, n, rfl⟩
    · refine (h.queued q ((hmem q).mpr (.inr hq))).mono fun a ha => ⟨?_, hold a ha⟩
      exact (hinsert a).mpr (.inr ha)
    · refine .link n hdirect hl (fun a ha => ?_) (fun a p hs => ?_)
      · rw [hinsert]
        rw [ht] at ha
        exact (List.mem_cons.mp ha).imp_right (hvisited a)
      · rw [ht, List.suffix_cons_iff] at hs
        rcases hs with hs | hs
        · obtain ⟨rfl, rfl⟩ := List.cons.inj hs
          simp
        · rw [hold a (hvisited a (hs.subset (by simp)))]
          exact hlen a p hs
  · rcases (hinsert a).mp ha with rfl | ha
    · exact ⟨hown, hr⟩
    · exact h.inner a ha
  · rcases (hinsert a).mp ha with rfl | ha
    · have hlink := h.awaited_extend_of_mem_links hpop ht hr (mem_links_step ht hd)
      rw [ht, List.length_cons] at hlink
      simpa using hlink
    · rw [hold a ha]
      exact h.awaited_extend hpop ht hr (h.covered a ha d hd)

end Invariant

end ChainSearch
end HexGame
