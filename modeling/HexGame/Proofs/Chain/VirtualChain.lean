import HexGame.Board.Setup
import HexGame.Proofs.Chain.Bridges
import HexGame.Proofs.Chain.Coverage
import HexGame.Proofs.Grid.Around

/-!
# Virtual chains

A virtual chain leads from stone to neighbouring stone or over open bridges that share no carrier, from the
near edge to the far edge. What the search finds is such a chain (`Direct.strand`). The search extends a
cell once, for the bridge over which it came first, and passes over the bridges that overlap this one. Two
overlapping bridges of a stone lead to stones that form a bridge themselves, with the shared carrier and one
cell more. So a stone at the end of such a bridge is still reached, unless it is `Pinched`: the opponent
holds that cell.
-/
namespace HexGame

namespace Color

/-- The two neighbours of a cell that lie one row nearer to the far edge. From the row before the last they
carry the bridge to that edge. -/
def farCarriers (color : Color) (c : Cell) : Carriers :=
  ⟨color.cellAt (color.along c - 1) (color.depth c + 1), color.cellAt (color.along c) (color.depth c + 1)⟩

end Color

/-- Stones of `color` from its near edge on, the newest first, and the carriers of the bridges that lead to
them. -/
inductive Strand (b : Board) (color : Color) : List Cell → List Carriers → Prop where
  | edge {c : Cell} (ho : b.owns color c = true) (hd : color.depth c = 0) : Strand b color [c] []
  | edgeBridge {c : Cell} (ho : b.owns color c = true) (hd : color.depth c = 1)
      (hopen : b.isOpen (color.edgeCarriers c) = true) : Strand b color [c] [color.edgeCarriers c]
  | beside {a c : Cell} {path : List Cell} {ps : List Carriers} (h : Strand b color (a :: path) ps)
      (hadj : a.isAdjacent c = true) (ho : b.owns color c = true) : Strand b color (c :: a :: path) ps
  | bridge {a c : Cell} {path : List Cell} {ps : List Carriers} {p : Carriers}
      (h : Strand b color (a :: path) ps) (hp : c.bridgeCarriers a = some p) (hopen : b.isOpen p = true)
      (ho : b.owns color c = true) : Strand b color (c :: a :: path) (p :: ps)

/-- The stones of a virtual chain of `color`, from the far edge back to the near edge, and the carriers of
all its bridges. -/
inductive VirtualChain (b : Board) (color : Color) : List Cell → List Carriers → Prop where
  | edge {c : Cell} {path : List Cell} {ps : List Carriers} (h : Strand b color (c :: path) ps)
      (hr : color.remaining b.size c = 0) (hdisjoint : ps.Pairwise fun p q => p.overlaps q = false) :
      VirtualChain b color (c :: path) ps
  | edgeBridge {c : Cell} {path : List Cell} {ps : List Carriers} (h : Strand b color (c :: path) ps)
      (hr : color.remaining b.size c = 1) (hopen : b.isOpen (color.farCarriers c) = true)
      (hdisjoint : (color.farCarriers c :: ps).Pairwise fun p q => p.overlaps q = false) :
      VirtualChain b color (c :: path) (color.farCarriers c :: ps)

/-- The place `d` around an empty cell, where two other stones of `color` stand at every second place. The
opponent holds the cell between this place and the first of them; the other two cells between are empty. -/
structure PinchedAround (b : Board) (color : Color) (q : Cell) (d : Direction) (s : Bool) : Prop where
  centre : b.isEmptyAt q = true
  blocked : b.owns color.opponent (q.step (d.turns s 1)) = true
  first : b.owns color (q.step (d.turns s 2)) = true
  firstOpen : b.isEmptyAt (q.step (d.turns s 3)) = true
  second : b.owns color (q.step (d.turns s 4)) = true
  secondOpen : b.isEmptyAt (q.step (d.turns s 5)) = true

def Pinched (b : Board) (color : Color) (c : Cell) : Prop :=
  ∃ q d s, c = q.step d ∧ PinchedAround b color q d s

/-- No bridge between two stones of the path leads to a pinched one. -/
def Unpinched (b : Board) (color : Color) (path : List Cell) : Prop :=
  ∀ a c rest, c :: a :: rest <:+ path → a.isAdjacent c = false → ¬ Pinched b color c

variable {b : Board} {color : Color} {mode : Mode} {a c q : Cell} {path rest : List Cell}
variable {ps : List Carriers} {p p' : Carriers} {t : Trail}

/-! ## Bridges to the far edge -/

namespace Color

/-- The direction in which bridges lead past the far edge from the row before the last. -/
def farLeap : Color → Direction
  | red => .southWest
  | blue => .east

theorem same_farCarriers (color : Color) (c : Cell) :
    (color.farCarriers c).Same (c.carriers color.farLeap) := by
  intro q
  cases color <;>
    simp only [Carriers.mem_cells, farCarriers, cellAt, along, depth, farLeap, Cell.carriers, Cell.step,
      Direction.before, Direction.offset, Cell.ext_iff] <;>
    omega

theorem depth_farCarriers (h : q ∈ (color.farCarriers c).cells) : color.depth q = color.depth c + 1 := by
  rcases Carriers.mem_cells.mp h with rfl | rfl <;> simp [farCarriers]

theorem depth_leap_farLeap (color : Color) (c : Cell) :
    color.depth (c.leap color.farLeap) = color.depth c + 2 := by
  cases color <;> simp only [depth, farLeap, Cell.leap, Direction.leapOffset]

theorem along_leap_farLeap (color : Color) (c : Cell) :
    color.along (c.leap color.farLeap) = color.along c - 1 := by
  cases color <;>
    simp only [along, farLeap, Cell.leap, Direction.leapOffset] <;> omega

theorem eq_farLeap {d : Direction} (h : color.depth c + 2 ≤ color.depth (c.leap d)) : d = color.farLeap := by
  cases color <;> cases d <;>
    simp only [depth, Cell.leap, Direction.leapOffset] at h <;>
    first | rfl | omega

end Color

theorem Color.depth_leap_lt {d : Direction} (hq : q ∈ (c.carriers d).cells)
    (hd : color.depth q = color.depth c - 1) : color.depth (c.leap d) < color.depth c := by
  rcases Carriers.mem_cells.mp hq with rfl | rfl <;> cases color <;> cases d <;>
    simp only [Color.depth, Cell.carriers, Cell.step, Cell.leap, Direction.leapOffset, Direction.before,
      Direction.offset] at hd ⊢ <;>
    omega

namespace Carriers

theorem Same.isOpen (h : p.Same p') (hopen : b.isOpen p' = true) : b.isOpen p = true :=
  Board.isOpen_iff.mpr fun q hq => Board.isOpen_iff.mp hopen q ((h q).mp hq)

theorem Same.not_overlaps {r : Carriers} (h : p.Same p') (hp : p'.overlaps r = false) :
    p.overlaps r = false :=
  not_overlaps_iff.mpr fun q hq => not_overlaps_iff.mp hp q ((h q).mp hq)

end Carriers

namespace ChainSearch

/-! ## What is found -/

/-- A direct trail over stones is a strand, with the bridges that are read off its cells. -/
theorem Direct.strand (h : Direct b color mode t) (hown : ∀ c ∈ t.path, b.owns color c = true)
    (hne : t.path ≠ []) : Strand b color t.path (safeCells t.path color) := by
  induction h with
  | start => exact absurd rfl hne
  | @go t l ht hl _ _ _ ih =>
    have ho : b.owns color l.target = true := hown _ (by simp)
    have hrest {a : Cell} {us : List Cell} (hp : t.path = a :: us) :
        Strand b color (a :: us) (safeCells (a :: us) color) := by
      rw [← hp]
      exact ih (fun x hx => hown x (by simp [hx])) (by simp [hp])
    cases leads_of_mem_links hl with
    | edge hp _ hd =>
      simp only [hp, safeCells, List.getLast?_singleton, hd]
      exact .edge ho hd
    | edgeBridge hp _ _ hd hopen =>
      simp only [hp, safeCells, List.getLast?_singleton, hd]
      exact .edgeBridge ho hd hopen
    | @beside a us d hp =>
      have hadj := Cell.isAdjacent_step a d
      rw [hp, safeCells_cons_cons, Cell.isAdjacent_comm, hadj]
      exact .beside (hrest hp) hadj ho
    | @bridge a us d hp _ hopen =>
      have hback := Cell.bridgeCarriers_leap (a.leap d) d.opposite
      rw [Cell.leap_opposite, Cell.carriers_leap_opposite] at hback
      rw [hp, safeCells_cons_cons, Cell.isAdjacent_comm, Cell.not_isAdjacent_leap, hback]
      refine .bridge (hrest hp) hback ?_ ho
      exact Carriers.Same.isOpen (fun q => by simp [Carriers.mem_cells, Cell.carriers, or_comm]) hopen

theorem Direct.inner (h : Direct b color mode t) (ht : t.path = c :: rest) :
    ∀ a ∈ rest, 0 < color.remaining b.size a := by
  cases h with
  | start => simp at ht
  | go _ _ _ hinner _ =>
    obtain ⟨-, rfl⟩ := List.cons.inj ht
    exact hinner

end ChainSearch

namespace Board

/-- A direct trail that leads past the far edge ends with the bridge to that edge. -/
theorem virtualChain_of_past (ht : ChainSearch.Direct b color mode t) (hc : t.path = c :: rest)
    (ho : b.owns color c = false) : ∃ ps, VirtualChain b color rest ps := by
  have hdisjoint := ht.disjoint
  have hinner := ht.inner hc
  cases ht with
  | start => simp at hc
  | @go u l hu hl _ _ _ =>
    obtain ⟨rfl, rfl⟩ := List.cons.inj hc
    cases ChainSearch.leads_of_mem_links hl with
    | edge _ ho' _ => simp [ho'] at ho
    | edgeBridge _ _ ho' _ _ => simp [ho'] at ho
    | beside _ _ ho' => simp [ho'] at ho
    | @bridge a us d hp _ hopen _ hend =>
      have hpast := hend.resolve_right (by simp [ho])
      simp only [Color.isPastFarEdge, Bool.and_eq_true, decide_eq_true_eq] at hpast
      have hr := hinner a (by simp [hp])
      unfold Color.remaining at hr
      obtain rfl : d = color.farLeap := Color.eq_farLeap (c := a) (by omega)
      have hdepth := color.depth_leap_farLeap a
      have hown (x : Cell) (hx : x ∈ u.path) : b.owns color x = true := hu.owns hx (hinner x hx)
      have hstrand := hu.strand hown (by simp [hp])
      have hlast := color.same_farCarriers a
      rcases ChainSearch.safeCells_cons hl with ⟨hv, -⟩ | ⟨p, p', hv, hs, he⟩
      · simp at hv
      obtain rfl := Option.some.inj hv
      simp only at he
      rw [he, List.pairwise_cons] at hdisjoint
      rw [hp] at hstrand hdisjoint ⊢
      refine ⟨_, .edgeBridge hstrand ?_ (hlast.isOpen hopen) (List.pairwise_cons.mpr ⟨?_, hdisjoint.2⟩)⟩
      · unfold Color.remaining
        omega
      · intro r hr
        have hsame : (color.farCarriers a).Same p' := fun x => (hlast x).trans (hs x).symm
        exact hsame.not_overlaps (hdisjoint.1 r hr)

theorem virtualChain_of_findChain (h : b.findChain color mode = some path) :
    ∃ stones ps, stones <:+ path ∧ VirtualChain b color stones ps := by
  obtain ⟨t, c, rest, ht, rfl, hc, hr⟩ := direct_of_findChain h
  cases ho : b.owns color c with
  | false =>
    obtain ⟨ps, hchain⟩ := virtualChain_of_past ht hc ho
    exact ⟨rest, ps, hc ▸ List.suffix_cons c rest, hchain⟩
  | true =>
    have hstones (x : Cell) (hx : x ∈ t.path) : b.owns color x = true := by
      rw [hc] at hx
      rcases List.mem_cons.mp hx with rfl | hx
      · exact ho
      · exact ht.owns (by simp [hc, hx]) (ht.inner hc x hx)
    have hstrand := ht.strand hstones (by simp [hc])
    have hdepth := (contains_iff_along color).mp (contains_of_owns ho)
    refine ⟨c :: rest, _, hc ▸ List.suffix_refl _, .edge (hc ▸ hstrand) ?_ (hc ▸ ht.disjoint)⟩
    unfold Color.remaining at hr ⊢
    omega

theorem exists_virtualChain (h : b.isConnected color mode = true) :
    ∃ path ps, VirtualChain b color path ps := by
  obtain ⟨path, hpath⟩ := Option.isSome_iff_exists.mp h
  obtain ⟨stones, ps, -, hchain⟩ := virtualChain_of_findChain hpath
  exact ⟨stones, ps, hchain⟩

end Board

/-! ## What is missed -/

namespace ChainSearch
namespace Exhausted

variable {len : Cell → Nat} {entry : Cell → Option Carriers} {visited : CellSet} {d : Direction}

theorem stone_beside (h : Exhausted b color mode len entry visited) (hc : visited.contains c = true)
    (hadj : c.isAdjacent a = true) (ha : b.owns color a = true) : visited.contains a = true := by
  obtain ⟨d, rfl⟩ := Cell.isAdjacent_iff.mp hadj
  exact h.onward c hc ⟨c.step d, none⟩ (Board.mem_onwardLinks.mpr (.inl ⟨d, ha, rfl⟩))

/-- A bridge is covered unless it overlaps the one over which the cell was entered. -/
theorem bridge_or_overlap (h : Exhausted b color .virtual len entry visited)
    (hc : visited.contains c = true) (hopen : b.isOpen (c.carriers d) = true)
    (hend : color.isPastFarEdge b.size (c.leap d) = true ∨ b.owns color (c.leap d) = true) :
    visited.contains (c.leap d) = true ∨ ∃ p q, EnteredFrom b color len visited (len c) c p ∧
      q ∈ p.cells ∧ q ∈ (c.carriers d).cells := by
  have hlink (hfree : ∀ p, entry c = some p → (c.carriers d).overlaps p = false) :
      visited.contains (c.leap d) = true :=
    h.onward c hc ⟨c.leap d, some (c.carriers d)⟩
      (Board.mem_onwardLinks.mpr (.inr ⟨rfl, d, hopen, hfree, hend, rfl⟩))
  cases hentry : entry c with
  | none => exact .inl (hlink (by simp [hentry]))
  | some p =>
    cases hover : (c.carriers d).overlaps p with
    | false => exact .inl (hlink (by simpa [hentry] using hover))
    | true =>
      obtain ⟨q, hq, hq'⟩ : ∃ q ∈ (c.carriers d).cells, q ∈ p.cells := by
        simpa [Carriers.overlaps] using hover
      exact .inr ⟨p, q, h.source c p hc hentry, hq', hq⟩

/-- A bridge from the second row that overlaps the bridge to the near edge leads to a stone on that edge. -/
theorem stone_on_edge (h : Exhausted b color mode len entry visited) (hd : color.depth c = 1)
    (hq : q ∈ (color.edgeCarriers c).cells) (hq' : q ∈ (c.carriers d).cells)
    (ho : b.owns color (c.leap d) = true) : visited.contains (c.leap d) = true := by
  have hlt : color.depth (c.leap d) < color.depth c :=
    Color.depth_leap_lt hq' (Color.depth_edgeCarriers hq)
  have hdepth := (Board.contains_iff_along color).mp (Board.contains_of_owns ho)
  exact h.entered ⟨c.leap d, none⟩ (Board.mem_entryLinks.mpr (.inl ⟨ho, by simp only; omega, rfl⟩))

/-- A stone at the end of an open bridge is reached, unless it is pinched. The induction follows the bridges
that overlap back to cells that were entered earlier. -/
theorem stone_of_bridge (h : Exhausted b color .virtual len entry visited)
    (hc : visited.contains c = true) (hopen : b.isOpen (c.carriers d) = true)
    (ho : b.owns color (c.leap d) = true) (hfree : ¬ Pinched b color (c.leap d)) :
    visited.contains (c.leap d) = true := by
  generalize he : c.leap d = e at ho hfree
  induction hn : len c using Nat.strongRecOn generalizing c d with
  | ind n ih =>
    subst he
    rcases h.bridge_or_overlap hc hopen (.inr ho) with hv | ⟨p, q, hsource, hq, hq'⟩
    · exact hv
    cases hsource with
    | edge hd hedge => exact h.stone_on_edge hd hq hq' ho
    | @leap a d' ha hlt hopen' =>
      rcases Cell.ends_around hq hq' with hback | ⟨f, s, hl, hfirst, hsecond, hm, hm'⟩
      · rwa [hback]
      have hempty := Board.isOpen_iff.mp hopen
      have hempty' := Board.isOpen_iff.mp hopen'
      have hown := (h.inner a ha).1
      have hbetween : b.Contains (q.step (f.turns s 1)) := by
        apply Board.contains_between (Board.isEmptyAt_iff.mp (hempty q hq')).1
        · exact hl ▸ Board.contains_of_owns ho
        · exact hfirst ▸ Board.contains_of_owns hown
      cases hcolor : b.colorAt (q.step (f.turns s 1)) with
      | none =>
        -- The cell is empty, and the earlier stone has a bridge of its own.
        obtain ⟨d'', hl', hcells⟩ := Cell.exists_leap_around q f s
        rw [← hfirst, ← hl] at hl'
        rw [← hfirst] at hcells
        refine ih (len a) (hn ▸ hlt) ha (Board.isOpen_iff.mpr fun x hx => ?_) hl' rfl
        rcases hcells x hx with rfl | rfl
        · exact hempty _ hq'
        · exact Board.isEmptyAt_iff.mpr ⟨hbetween, hcolor⟩
      | some k =>
        by_cases hk : k = color
        · subst hk
          have hnext : (q.step (f.turns s 1)).isAdjacent a = true := by
            rw [hfirst]
            exact Cell.isAdjacent_step_turn q (f.turns s 1) s
          have hlast : ((a.leap d').leap d).isAdjacent (q.step (f.turns s 1)) = true := by
            rw [hl]
            exact Cell.isAdjacent_step_turn q f s
          have hx := h.stone_beside ha (Cell.isAdjacent_comm _ a ▸ hnext) (Board.owns_iff.mpr hcolor)
          exact h.stone_beside hx (Cell.isAdjacent_comm _ _ ▸ hlast) ho
        · exfalso
          apply hfree
          rw [Color.eq_opponent_of_ne hk] at hcolor
          exact ⟨q, f, s, hl, hempty q hq', Board.owns_iff.mpr hcolor, hfirst ▸ hown, hempty' _ hm,
            hsecond ▸ (h.inner _ hc).1, hempty _ hm'⟩

/-- No stone that has been reached has an open bridge to the far edge. -/
theorem not_open_farCarriers (h : Exhausted b color .virtual len entry visited)
    (hc : visited.contains c = true) (hr : color.remaining b.size c = 1) :
    b.isOpen (color.farCarriers c) = false := by
  rw [Bool.eq_false_iff]
  intro hopen
  have hcells := color.same_farCarriers c
  have hopen' : b.isOpen (c.carriers color.farLeap) = true :=
    Carriers.Same.isOpen (fun x => (hcells x).symm) hopen
  have hdepth := color.depth_leap_farLeap c
  unfold Color.remaining at hr
  have hoff : ¬ b.Contains (c.leap color.farLeap) := by
    rw [Board.contains_iff_along color]
    omega
  have hpast : color.isPastFarEdge b.size (c.leap color.farLeap) = true := by
    have hfirst := Board.isOpen_iff.mp hopen _ (Carriers.mem_cells.mpr (.inl rfl))
    have hb := (Board.contains_iff_along color).mp (Board.isEmptyAt_iff.mp hfirst).1
    have halong := color.along_leap_farLeap c
    simp only [Color.farCarriers, Color.along_cellAt] at hb
    simp only [Color.isPastFarEdge, Bool.and_eq_true, decide_eq_true_eq]
    omega
  rcases h.bridge_or_overlap hc hopen' (.inl hpast) with hv | ⟨p, q, hsource, hq, hq'⟩
  · exact hoff (Board.contains_of_owns (h.inner _ hv).1)
  have hlast := Color.depth_farCarriers ((hcells q).mpr hq')
  cases hsource with
  | edge hd _ =>
    have := Color.depth_edgeCarriers hq
    omega
  | @leap a d ha _ _ =>
    obtain ⟨hown, hinner⟩ := h.inner a ha
    rcases Cell.ends_around hq hq' with hback | ⟨f, s, hl, hfirst, hsecond, -, -⟩
    · rw [hback] at hoff
      exact hoff (Board.contains_of_owns hown)
    · have hsum := Cell.depth_around color q f s
      rw [← hl, ← hfirst, ← hsecond] at hsum
      unfold Color.remaining at hinner
      omega

theorem strand (h : Exhausted b color .virtual len entry visited) (hs : Strand b color path ps)
    (hfree : Unpinched b color path) (hc : path = c :: rest) : visited.contains c = true := by
  induction hs generalizing c rest with
  | edge ho hd =>
    obtain ⟨rfl, -⟩ := List.cons.inj hc
    exact h.entered ⟨_, none⟩ (Board.mem_entryLinks.mpr (.inl ⟨ho, hd, rfl⟩))
  | edgeBridge ho hd hopen =>
    obtain ⟨rfl, -⟩ := List.cons.inj hc
    exact h.entered ⟨_, some (color.edgeCarriers _)⟩
      (Board.mem_entryLinks.mpr (.inr ⟨rfl, ho, hd, hopen, rfl⟩))
  | beside _ hadj ho ih =>
    obtain ⟨rfl, -⟩ := List.cons.inj hc
    have ha := ih (fun a c us hs => hfree a c us (hs.trans (List.suffix_cons _ _))) rfl
    exact h.stone_beside ha hadj ho
  | @bridge a x us ps p _ hp hopen ho ih =>
    obtain ⟨rfl, -⟩ := List.cons.inj hc
    have ha := ih (fun a c us hs => hfree a c us (hs.trans (List.suffix_cons _ _))) rfl
    obtain ⟨d, rfl, rfl⟩ := Cell.exists_leap_of_bridgeCarriers hp
    have hback : (x.leap d).leap d.opposite = x := x.leap_opposite d
    have hnot := Cell.not_isAdjacent_leap (x.leap d) d.opposite
    rw [hback] at hnot
    have hx := h.stone_of_bridge (d := d.opposite) ha ?_ (by rwa [hback])
      (by rw [hback]; exact hfree _ _ us (List.suffix_refl _) hnot)
    · rwa [hback] at hx
    · rw [Cell.carriers_leap_opposite]
      refine Carriers.Same.isOpen (fun q => ?_) hopen
      simp [Carriers.mem_cells, Cell.carriers, or_comm]

end Exhausted
end ChainSearch

namespace Board

/-- A virtual chain whose bridges lead to no pinched stone is not missed. -/
theorem isConnected_of_virtualChain (h : VirtualChain b color path ps) (hfree : Unpinched b color path) :
    b.isConnected color .virtual = true := by
  rw [← Bool.not_eq_false]
  intro hn
  obtain ⟨len, entry, visited, hs⟩ := ChainSearch.exists_exhausted hn
  cases h with
  | edge h hr _ =>
    have := (hs.inner _ (hs.strand h hfree rfl)).2
    omega
  | edgeBridge h hr hopen _ =>
    have := hs.not_open_farCarriers (hs.strand h hfree rfl) hr
    simp [hopen] at this

/-- In virtual mode the search finds a chain only where there is one, and it finds one wherever there is a
chain without pinched stones at the ends of its bridges. -/
theorem isConnected_virtual_sound_complete (b : Board) (color : Color) :
    (b.isConnected color .virtual = true → ∃ path ps, VirtualChain b color path ps) ∧
      ∀ path ps, VirtualChain b color path ps → Unpinched b color path →
        b.isConnected color .virtual = true :=
  ⟨exists_virtualChain, fun _ _ => isConnected_of_virtualChain⟩

theorem three_le_maxSize : 0 < 3 ∧ 3 ≤ maxSize := by decide

theorem four_le_maxSize : 0 < 4 ∧ 4 ≤ maxSize := by decide

/-- The board after moves that red begins. -/
def afterCells (size : Nat) (h : 0 < size ∧ size ≤ maxSize) (cells : List Cell) : Board :=
  cells.foldl (fun b c => b.place ⟨c, b.toMove⟩) (blank size .red h)

/-- Red has a stone on the edge and a bridge from it to two stones on the other edge. -/
def bridgedStones : Board :=
  afterCells 4 (by decide) [⟨1, 0⟩, ⟨3, 3⟩, ⟨0, 2⟩, ⟨3, 2⟩, ⟨0, 3⟩]

theorem bridgedStones_sound_complete :
    (bridgedStones.isConnected .red .virtual = true ∧ ∃ path ps, VirtualChain bridgedStones .red path ps) ∧
      VirtualChain bridgedStones .red [⟨0, 3⟩, ⟨0, 2⟩, ⟨1, 0⟩] [⟨⟨0, 1⟩, ⟨1, 1⟩⟩] ∧
      Unpinched bridgedStones .red [⟨0, 3⟩, ⟨0, 2⟩, ⟨1, 0⟩] := by
  have hchain : VirtualChain bridgedStones .red [⟨0, 3⟩, ⟨0, 2⟩, ⟨1, 0⟩] [⟨⟨0, 1⟩, ⟨1, 1⟩⟩] := by
    refine .edge (.beside (.bridge (.edge ?_ ?_) ?_ ?_ ?_) ?_ ?_) ?_ ?_
    all_goals decide +kernel
  have hfree : Unpinched bridgedStones .red [⟨0, 3⟩, ⟨0, 2⟩, ⟨1, 0⟩] := by
    have hfar : ∀ d ∈ Direction.all, ∀ s, bridgedStones.owns .blue
        ((Cell.step ⟨0, 2⟩ d.opposite).step (d.turns s 1)) = false := by decide +kernel
    intro a c rest hs hadj
    simp only [List.suffix_cons_iff, List.cons.injEq, List.suffix_nil, reduceCtorEq, and_false, or_false]
      at hs
    rcases hs with ⟨rfl, rfl, -⟩ | ⟨rfl, rfl, -⟩
    · simp [show Cell.isAdjacent ⟨0, 2⟩ ⟨0, 3⟩ = true by decide] at hadj
    · rintro ⟨q, d, s, hq, h⟩
      have hblocked := h.blocked
      rw [← q.step_opposite d, ← hq] at hblocked
      simp [hfar d (Direction.mem_all d) s] at hblocked
  have h := isConnected_virtual_sound_complete bridgedStones .red
  have hfound := h.2 _ _ hchain hfree
  exact ⟨⟨hfound, h.1 hfound⟩, hchain, hfree⟩

/-- The stone of red at the fourth place of the third row is pinched: red's stones above it lead to the one
on its left by a bridge that overlaps the bridge between them. -/
def pinchedStone : Board :=
  afterCells 5 (by decide)
    [⟨0, 1⟩, ⟨3, 2⟩, ⟨3, 1⟩, ⟨4, 2⟩, ⟨1, 2⟩, ⟨3, 3⟩, ⟨0, 2⟩, ⟨4, 3⟩, ⟨2, 3⟩, ⟨4, 4⟩]

/-- A chain with a pinched stone that the search misses. -/
theorem pinchedStone_is_missed :
    (∃ path ps, VirtualChain pinchedStone .red path ps) ∧
      pinchedStone.isConnected .red .virtual = false := by
  refine ⟨⟨[⟨2, 3⟩, ⟨1, 2⟩, ⟨0, 2⟩, ⟨0, 1⟩], _,
    .edgeBridge (.bridge (.beside (.beside (.edgeBridge ?_ ?_ ?_) ?_ ?_) ?_ ?_) rfl ?_ ?_) ?_ ?_ ?_⟩, ?_⟩
  all_goals decide +kernel

end Board
end HexGame
