import HexGame.Proofs.Chain.Ending
import HexGame.Proofs.Chain.VirtualChain

/-!
# What a move does to the chains

A stone takes no virtual chain from its own side and gives the other side none: on a carrier it joins what
the bridge would have joined (`Strand.place`), and for the other side it only fills a cell
(`VirtualChain.mono`). A complete chain is searched for without loss, so there the answer of the search
changes in one direction only. In virtual mode the search may miss a chain, and its answer follows the chains
as long as the chain that it found leads over no bridge to a pinched stone.
-/
namespace HexGame

variable {b b' : Board} {color : Color} {a c q : Cell} {path stones : List Cell}
variable {ps : List Carriers} {p : Carriers} {mv : Move}

/-! ## Bridges and the stone between their ends -/

theorem Cell.isAdjacent_of_bridgeCarriers (h : c.bridgeCarriers a = some p) (hq : q ∈ p.cells) :
    a.isAdjacent q = true ∧ q.isAdjacent c = true := by
  obtain ⟨d, rfl, rfl⟩ := exists_leap_of_bridgeCarriers h
  obtain ⟨hadj, hadj'⟩ := isAdjacent_carriers hq
  exact ⟨isAdjacent_comm q _ ▸ hadj', isAdjacent_comm c q ▸ hadj⟩

theorem Color.isAdjacent_farCarriers (hq : q ∈ (color.farCarriers c).cells) : c.isAdjacent q = true :=
  (Cell.isAdjacent_carriers ((color.same_farCarriers c q).mp hq)).1

theorem Board.isOpen_place (he : b.isEmptyAt mv.cell = true) (hcell : mv.cell ∉ p.cells)
    (h : b.isOpen p = true) : (b.place mv).isOpen p = true :=
  isOpen_iff.mpr fun q hq => (isEmptyAt_place he).mpr ⟨fun heq => hcell (heq ▸ hq), isOpen_iff.mp h q hq⟩

theorem Unpinched.of_suffix (h : Unpinched b color path) (hs : stones <:+ path) : Unpinched b color stones :=
  fun a c rest hrest => h a c rest (hrest.trans hs)

theorem unpinched_cons_cons : Unpinched b color (c :: a :: path) ↔
    (a.isAdjacent c = false → ¬ Pinched b color c) ∧ Unpinched b color (a :: path) := by
  constructor
  · exact fun h => ⟨h a c path (List.suffix_refl _), h.of_suffix (List.suffix_cons _ _)⟩
  · rintro ⟨hfirst, hrest⟩ a' c' us hs hadj
    rcases List.suffix_cons_iff.mp hs with heq | hs
    · simp only [List.cons.injEq] at heq
      obtain ⟨rfl, rfl, -⟩ := heq
      exact hfirst hadj
    · exact hrest a' c' us hs hadj

theorem unpinched_singleton (c : Cell) : Unpinched b color [c] := by
  intro a c rest hs
  simp [List.suffix_cons_iff] at hs

theorem Unpinched.beside (h : Unpinched b color (a :: path)) (hadj : a.isAdjacent c = true) :
    Unpinched b color (c :: a :: path) :=
  unpinched_cons_cons.mpr ⟨fun hno => absurd hadj (by simp [hno]), h⟩

/-! ## Boards with more stones and more empty cells -/

section
variable (hown : ∀ c, b.owns color c = true → b'.owns color c = true)
variable (hempty : ∀ c, b.isEmptyAt c = true → b'.isEmptyAt c = true)
include hown hempty

theorem Strand.mono (h : Strand b color path ps) : Strand b' color path ps := by
  have hopen {p : Carriers} (hp : b.isOpen p = true) : b'.isOpen p = true :=
    Board.isOpen_iff.mpr fun q hq => hempty q (Board.isOpen_iff.mp hp q hq)
  induction h with
  | edge ho hd => exact .edge (hown _ ho) hd
  | edgeBridge ho hd hp => exact .edgeBridge (hown _ ho) hd (hopen hp)
  | beside _ hadj ho ih => exact .beside ih hadj (hown _ ho)
  | bridge _ hp hp' ho ih => exact .bridge ih hp (hopen hp') (hown _ ho)

theorem VirtualChain.mono (hsize : b'.size = b.size) (h : VirtualChain b color path ps) :
    VirtualChain b' color path ps := by
  cases h with
  | edge h hr hdisjoint => exact .edge (h.mono hown hempty) (hsize ▸ hr) hdisjoint
  | edgeBridge h hr hopen hdisjoint =>
    refine .edgeBridge (h.mono hown hempty) (hsize ▸ hr) ?_ hdisjoint
    exact Board.isOpen_iff.mpr fun q hq => hempty q (Board.isOpen_iff.mp hopen q hq)

end

theorem VirtualChain.of_place (he : b.isEmptyAt mv.cell = true) (hcolor : mv.color ≠ color)
    (h : VirtualChain (b.place mv) color path ps) : VirtualChain b color path ps :=
  h.mono (fun _ ho => ((Board.owns_place he).mp ho).resolve_left fun h => hcolor h.2)
    (fun _ hc => ((Board.isEmptyAt_place he).mp hc).2) (Board.size_place b mv).symm

/-! ## A stone of the own side -/

/-- The new stone takes its place in the strand if it stands on a carrier: what its bridge joined is now
joined stone by stone. -/
theorem Strand.place (he : b.isEmptyAt mv.cell = true) (hcolor : mv.color = color)
    (h : Strand b color (c :: path) ps) :
    ∃ path' ps', Strand (b.place mv) color (c :: path') ps' ∧ ps'.Sublist ps ∧
      (Unpinched (b.place mv) color (c :: path) → Unpinched (b.place mv) color (c :: path')) := by
  have hnew : (b.place mv).owns color mv.cell = true := (Board.owns_place he).mpr (.inl ⟨rfl, hcolor⟩)
  generalize hs : c :: path = stones at h
  induction h generalizing c path with
  | edge ho hd =>
    obtain ⟨rfl, rfl⟩ := List.cons.inj hs
    exact ⟨[], [], .edge (Board.owns_place_of_owns he ho) hd, .refl _, id⟩
  | @edgeBridge x ho hd hopen =>
    obtain ⟨rfl, rfl⟩ := List.cons.inj hs
    have ho' := Board.owns_place_of_owns he ho
    by_cases hcell : mv.cell ∈ (color.edgeCarriers c).cells
    · have hadj := Color.isAdjacent_edgeCarriers hcell
      have hedge : color.depth mv.cell = 0 := by
        rw [Color.depth_edgeCarriers hcell, hd]
        rfl
      exact ⟨[mv.cell], [], .beside (.edge hnew hedge) hadj ho', List.nil_sublist _,
        fun _ => (unpinched_singleton mv.cell).beside hadj⟩
    · exact ⟨[], _, .edgeBridge ho' hd (Board.isOpen_place he hcell hopen), .refl _, id⟩
  | @beside x y us qs h hadj ho ih =>
    obtain ⟨rfl, rfl⟩ := List.cons.inj hs
    obtain ⟨path', ps', hstrand, hsub, hfree⟩ := ih rfl
    refine ⟨x :: path', ps', .beside hstrand hadj (Board.owns_place_of_owns he ho), hsub, fun h => ?_⟩
    exact (hfree (unpinched_cons_cons.mp h).2).beside hadj
  | @bridge x y us qs p h hp hopen ho ih =>
    obtain ⟨rfl, rfl⟩ := List.cons.inj hs
    have ho' := Board.owns_place_of_owns he ho
    obtain ⟨path', ps', hstrand, hsub, hfree⟩ := ih rfl
    by_cases hcell : mv.cell ∈ p.cells
    · obtain ⟨hadj, hadj'⟩ := Cell.isAdjacent_of_bridgeCarriers hp hcell
      refine ⟨mv.cell :: x :: path', ps', .beside (.beside hstrand hadj hnew) hadj' ho', hsub.cons _,
        fun h => ?_⟩
      exact ((hfree (unpinched_cons_cons.mp h).2).beside hadj).beside hadj'
    · refine ⟨x :: path', p :: ps', .bridge hstrand hp (Board.isOpen_place he hcell hopen) ho',
        hsub.cons_cons _, fun h => ?_⟩
      obtain ⟨hfirst, hrest⟩ := unpinched_cons_cons.mp h
      exact unpinched_cons_cons.mpr ⟨hfirst, hfree hrest⟩

theorem VirtualChain.place (he : b.isEmptyAt mv.cell = true) (hcolor : mv.color = color)
    (h : VirtualChain b color path ps) :
    ∃ path' ps', VirtualChain (b.place mv) color path' ps' ∧
      (Unpinched (b.place mv) color path → Unpinched (b.place mv) color path') := by
  have hnew : (b.place mv).owns color mv.cell = true := (Board.owns_place he).mpr (.inl ⟨rfl, hcolor⟩)
  cases h with
  | edge h hr hdisjoint =>
    obtain ⟨path', ps', hstrand, hsub, hfree⟩ := h.place he hcolor
    exact ⟨_, ps', .edge hstrand (by rwa [Board.size_place]) (hdisjoint.sublist hsub), hfree⟩
  | @edgeBridge c _ _ h hr hopen hdisjoint =>
    obtain ⟨path', ps', hstrand, hsub, hfree⟩ := h.place he hcolor
    by_cases hcell : mv.cell ∈ (color.farCarriers c).cells
    · have hadj := Color.isAdjacent_farCarriers hcell
      have hlast : color.remaining (b.place mv).size mv.cell = 0 := by
        have hdepth := Color.depth_farCarriers hcell
        rw [Board.size_place]
        unfold Color.remaining at hr ⊢
        omega
      exact ⟨_, ps', .edge (.beside hstrand hadj hnew) hlast (hdisjoint.of_cons.sublist hsub),
        fun h => (hfree h).beside hadj⟩
    · exact ⟨_, _, .edgeBridge hstrand (by rwa [Board.size_place]) (Board.isOpen_place he hcell hopen)
        (hdisjoint.sublist (hsub.cons_cons _)), hfree⟩

/-! ## The answer of the search -/

namespace Board

/-- The side that moves keeps the chain that was found, unless a bridge of it leads to a stone that is now
pinched. -/
theorem isConnected_virtual_place (he : b.isEmptyAt mv.cell = true) (hcolor : mv.color = color)
    (h : b.findChain color .virtual = some path) (hfree : Unpinched (b.place mv) color path) :
    (b.place mv).isConnected color .virtual = true := by
  obtain ⟨stones, ps, hs, hchain⟩ := virtualChain_of_findChain h
  obtain ⟨path', ps', hchain', hfree'⟩ := hchain.place he hcolor
  exact isConnected_of_virtualChain hchain' (hfree' (hfree.of_suffix hs))

/-- What is found for the other side was there before, unless a bridge of it led to a pinched stone. -/
theorem isConnected_virtual_of_place (he : b.isEmptyAt mv.cell = true) (hcolor : mv.color ≠ color)
    (h : (b.place mv).findChain color .virtual = some path) (hfree : Unpinched b color path) :
    b.isConnected color .virtual = true := by
  obtain ⟨stones, ps, hs, hchain⟩ := virtualChain_of_findChain h
  exact isConnected_of_virtualChain (hchain.of_place he hcolor) (hfree.of_suffix hs)

/-- A legal move takes no chain from the player who makes it and gives the opponent none. The search says so
in strict mode, and in virtual mode for every chain that it finds without a pinched stone at the end of a
bridge. -/
theorem legal_move_is_monotone (hmv : mv ∈ b.legalMoves) : ∃ b', b.play mv = .ok b' ∧
    (b.isConnected mv.color .strict = true → b'.isConnected mv.color .strict = true) ∧
    (b.isConnected mv.color.opponent .strict = false → b'.isConnected mv.color.opponent .strict = false) ∧
    (∀ path, b.findChain mv.color .virtual = some path → Unpinched b' mv.color path →
      b'.isConnected mv.color .virtual = true) ∧
    (b.isConnected mv.color.opponent .virtual = false →
      ∀ path, b'.findChain mv.color.opponent .virtual = some path → ¬ Unpinched b mv.color.opponent path) ∧
    ((∃ path ps, VirtualChain b mv.color path ps) → ∃ path ps, VirtualChain b' mv.color path ps) ∧
    ((¬ ∃ path ps, VirtualChain b mv.color.opponent path ps) →
      ¬ ∃ path ps, VirtualChain b' mv.color.opponent path ps) := by
  obtain ⟨he, -⟩ := isEmptyAt_of_mem_legalMoves hmv
  have hother : mv.color ≠ mv.color.opponent := (Color.opponent_ne mv.color).symm
  refine ⟨b.place mv, play_of_mem_legalMoves hmv, isConnected_place he, fun hno => ?_,
    fun _ => isConnected_virtual_place he rfl, fun hno path hpath hfree => ?_, ?_, fun hno => ?_⟩
  · rw [← Bool.not_eq_true] at hno ⊢
    exact fun h => hno (isConnected_of_place he hother h)
  · rw [isConnected_virtual_of_place he hother hpath hfree] at hno
    cases hno
  · rintro ⟨path, ps, hchain⟩
    obtain ⟨path', ps', hchain', -⟩ := hchain.place he rfl
    exact ⟨path', ps', hchain'⟩
  · rintro ⟨path, ps, hchain⟩
    exact hno ⟨path, ps, hchain.of_place he hother⟩

/-- Red fills one of the two cells between its stones and the edge. -/
theorem legal_move_is_monotone_threeCells :
    let b := afterCells 3 (by decide) [⟨0, 1⟩, ⟨2, 2⟩, ⟨0, 2⟩, ⟨2, 1⟩]
    ⟨⟨1, 0⟩, .red⟩ ∈ b.legalMoves ∧ b.findChain .red .virtual = some [⟨0, 2⟩, ⟨0, 1⟩] ∧
      ∃ b', b.play ⟨⟨1, 0⟩, .red⟩ = .ok b' ∧ b'.isConnected .red .virtual = true := by
  intro b
  have hmv : ⟨⟨1, 0⟩, .red⟩ ∈ b.legalMoves := by decide +kernel
  have hfound : b.findChain .red .virtual = some [⟨0, 2⟩, ⟨0, 1⟩] := by decide +kernel
  obtain ⟨b', hplay, -, -, hvirtual, -⟩ := legal_move_is_monotone hmv
  exact ⟨hmv, hfound, b', hplay, hvirtual _ hfound ((unpinched_singleton _).beside (by decide))⟩

/-- Red to move. A stone at the second place of the second row opens another way to the stone in the third
row, over a bridge that overlaps the only one that leads on. -/
def secondWay : Board :=
  afterCells 4 four_le_maxSize [⟨3, 0⟩, ⟨0, 0⟩, ⟨2, 2⟩, ⟨0, 2⟩, ⟨0, 3⟩, ⟨2, 3⟩]

/-- Blue to move. The search reaches red's stone in the third row first over a bridge that overlaps the one
that leads on; a stone of blue in the corner closes this way. -/
def wrongWay : Board :=
  afterCells 4 four_le_maxSize [⟨1, 0⟩, ⟨0, 0⟩, ⟨2, 1⟩, ⟨2, 2⟩, ⟨0, 2⟩, ⟨2, 3⟩, ⟨1, 3⟩]

/-- In virtual mode the search loses a chain by a move of its own side and finds one by a move of the other. -/
theorem virtual_search_is_not_monotone :
    (∃ b', secondWay.play ⟨⟨1, 1⟩, .red⟩ = .ok b' ∧ ⟨⟨1, 1⟩, .red⟩ ∈ secondWay.legalMoves ∧
      secondWay.isConnected .red .virtual = true ∧ b'.isConnected .red .virtual = false) ∧
    ∃ b', wrongWay.play ⟨⟨3, 0⟩, .blue⟩ = .ok b' ∧ ⟨⟨3, 0⟩, .blue⟩ ∈ wrongWay.legalMoves ∧
      wrongWay.isConnected .red .virtual = false ∧ b'.isConnected .red .virtual = true := by
  have hred : ⟨⟨1, 1⟩, .red⟩ ∈ secondWay.legalMoves := by decide +kernel
  have hblue : ⟨⟨3, 0⟩, .blue⟩ ∈ wrongWay.legalMoves := by decide +kernel
  exact ⟨⟨_, play_of_mem_legalMoves hred, hred, by decide +kernel, by decide +kernel⟩,
    ⟨_, play_of_mem_legalMoves hblue, hblue, by decide +kernel, by decide +kernel⟩⟩

end Board
end HexGame
