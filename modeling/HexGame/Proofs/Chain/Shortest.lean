import HexGame.Proofs.Chain.StrictChain
import HexGame.Proofs.Chain.VirtualChain

/-!
# The fewest stones

A trail is ranked by its length and the rows still to go, and from stone to stone there is one row less to go
at most. So as long as a stone of a chain has not been extended, a trail to one of its stones waits that is
ranked no later than the chain up to there (`Invariant.exists_waiting`). Hence a cell is extended by a trail
that has no more cells than any chain of stones has up to this cell (`Shortest`), also in virtual mode, where
bridges may lead there sooner. The strict path that is found is a shortest chain.
-/
namespace HexGame

/-- The cells that so many stones, one beside the other, join to the near edge. -/
inductive JoinedBy (color : Color) (own : Cell → Prop) : Nat → Cell → Prop where
  | edge {c : Cell} (hc : own c) (hd : color.depth c = 0) : JoinedBy color own 1 c
  | beside {k : Nat} {c : Cell} (d : Direction) (h : JoinedBy color own k c) (hd : own (c.step d)) :
      JoinedBy color own (k + 1) (c.step d)

variable {b : Board} {color : Color} {mode : Mode} {own own' : Cell → Prop} {a c : Cell}
variable {path chain : List Cell} {k : Nat}

namespace JoinedBy

theorem stone (h : JoinedBy color own k c) : own c := by
  cases h with
  | edge hc _ => exact hc
  | beside _ _ hd => exact hd

theorem mono (hown : ∀ c, own c → own' c) (h : JoinedBy color own k c) : JoinedBy color own' k c := by
  induction h with
  | edge hc hd => exact .edge (hown _ hc) hd
  | beside d _ hd ih => exact .beside d ih (hown _ hd)

theorem getLast (h : JoinedBy color own k a) (hadj : (a :: path).IsChain fun a c => a.isAdjacent c = true)
    (hown : ∀ c ∈ path, own c) (hc : (a :: path).getLast? = some c) :
    JoinedBy color own (k + path.length) c := by
  induction path generalizing a k with
  | nil =>
    obtain rfl : a = c := by simpa using hc
    exact h
  | cons x path ih =>
    rw [List.isChain_cons_cons] at hadj
    rw [List.getLast?_cons_cons] at hc
    obtain ⟨d, rfl⟩ := Cell.isAdjacent_iff.mp hadj.1
    have hrest := ih (h.beside d (hown _ (by simp))) hadj.2 (fun y hy => hown y (by simp [hy])) hc
    rwa [List.length_cons, ← Nat.add_assoc, Nat.add_right_comm]

end JoinedBy

theorem StrictChain.joinedBy (h : StrictChain b color chain) :
    ∃ c, JoinedBy color (· ∈ chain) chain.length c ∧ color.remaining b.size c = 0 := by
  obtain ⟨a, ha, hd⟩ := h.near
  obtain ⟨c, hc, hlast⟩ := h.far
  obtain ⟨rest, rfl⟩ := List.head?_eq_some_iff.mp ha
  have hfirst : JoinedBy color (· ∈ a :: rest) 1 a := .edge (by simp) hd
  refine ⟨c, ?_, ?_⟩
  · rw [List.length_cons, Nat.add_comm]
    exact hfirst.getLast h.adjacent (fun x hx => List.mem_cons_of_mem a hx) hc
  · unfold Color.remaining
    omega

namespace ChainSearch

variable {len : Cell → Nat} {s s' : ChainSearch} {r : Rank} {t : Trail} {rest : Frontier Trail}

/-- No chain of stones up to an extended cell is shorter than the trail by which it was extended. -/
def Shortest (b : Board) (color : Color) (len : Cell → Nat) (visited : CellSet) : Prop :=
  ∀ c k, visited.contains c = true → JoinedBy color (b.owns color · = true) k c → len c ≤ k

/-- The search has kept its invariant, and its trails are shortest. -/
def Searched (b : Board) (color : Color) (mode : Mode) (s : ChainSearch) : Prop :=
  ∃ len, Invariant b color mode len s ∧ Shortest b color len s.visited

namespace Invariant

/-- A stone that is awaited waits in a trail of the rank that its length gives. -/
theorem exists_waiting_of_awaited (h : Invariant b color mode len s) (hc : s.visited.contains c = false)
    (hk : s.Awaited c k) : ∃ q ∈ s.frontier.toList, q.2.path.head? = some c ∧
      q.1.priority ≤ (k + 1 : Nat) + color.remaining b.size c := by
  rcases hk with hv | ⟨q, hq, path, hp, hlen⟩
  · simp [hc] at hv
  · have hprio := ((h.queued q hq).cons_inv hp).2.2.2
    exact ⟨q, hq, by simp [hp], by omega⟩

/-- As long as a cell that `k` stones join to the near edge has not been extended, a trail to one of these
stones waits, ranked no later than a trail of `k` cells to this one. The induction follows the stones to the
first one that has not been extended. -/
theorem exists_waiting (h : Invariant b color mode len s) (hshort : Shortest b color len s.visited)
    (hown : ∀ c, own c → b.owns color c = true) (hj : JoinedBy color own k c)
    (hc : s.visited.contains c = false) :
    ∃ q ∈ s.frontier.toList, (∃ a, own a ∧ q.2.path.head? = some a) ∧
      q.1.priority ≤ k + color.remaining b.size c := by
  induction hj with
  | @edge c ho hd =>
    obtain ⟨q, hq, hp, hprio⟩ := h.exists_waiting_of_awaited hc (h.entered c (hown c ho) hd)
    exact ⟨q, hq, ⟨c, ho, hp⟩, hprio⟩
  | @beside k a d hj ho ih =>
    cases ha : s.visited.contains a with
    | true =>
      have hlen := hshort a k ha (hj.mono hown)
      obtain ⟨q, hq, hp, hprio⟩ := h.exists_waiting_of_awaited hc (h.covered a ha d (hown _ ho))
      exact ⟨q, hq, ⟨_, ho, hp⟩, by omega⟩
    | false =>
      obtain ⟨q, hq, hp, hprio⟩ := ih ha
      have hstep := color.depth_step a d
      refine ⟨q, hq, hp, ?_⟩
      unfold Color.remaining at hprio ⊢
      omega

/-- The trail that is taken has no more cells than a chain of stones, but for the rows that it has still to go. -/
theorem length_le_of_pop (h : Invariant b color mode len s) (hshort : Shortest b color len s.visited)
    (hpop : s.frontier.popMin? = some ((r, t), rest)) (ht : t.path = c :: path)
    (hj : JoinedBy color (b.owns color · = true) k a) (ha : s.visited.contains a = false) :
    t.path.length + color.remaining b.size c ≤ k + color.remaining b.size a := by
  obtain ⟨-, -, hmem⟩ := Frontier.le_of_popMin? h.ordered hpop
  obtain ⟨q, hq, -, hprio⟩ := h.exists_waiting hshort (fun _ ho => ho) hj ha
  have hfirst := ((h.queued (r, t) ((hmem _).mpr (.inl rfl))).cons_inv ht).2.2.2
  have hle := h.priority_le_of_pop hpop hq
  simp only at hfirst
  rw [ht, List.length_cons]
  omega

theorem contains_eq_false_of_far (h : Invariant b color mode len s) (hr : color.remaining b.size c ≤ 0) :
    s.visited.contains c = false := by
  rw [Bool.eq_false_iff]
  intro hv
  have := (h.inner c hv).2
  omega

end Invariant

theorem searched_entered : Searched b color mode (entered b color mode) :=
  ⟨_, invariant_entered, fun c k hv => by simp [entered, ChainSearch.extend, start] at hv⟩

/-- A cell is extended by the first trail that comes to it, and no chain up to it is shorter. -/
theorem Searched.searching (h : Searched b color mode s) (hs : step b color mode s = .searching s') :
    Searched b color mode s' := by
  obtain ⟨len, hinv, hshort⟩ := h
  obtain ⟨r, t, c, path, rest, hpop, ht, hr, ⟨hv, rfl⟩ | ⟨hv, rfl⟩⟩ := hinv.step_eq_searching hs
  · exact ⟨len, hinv.skip hpop ht hv, hshort⟩
  · refine ⟨_, hinv.extend hpop ht hr hv, fun a k ha hj => ?_⟩
    by_cases hac : a = c
    · subst hac
      have hle := hinv.length_le_of_pop hshort hpop ht hj hv
      rw [ht, List.length_cons] at hle
      rw [if_pos rfl]
      omega
    · rw [if_neg hac]
      exact hshort a k (((hinv.contains_extend hpop ht hr).mp ha).resolve_left hac) hj

theorem Passes.searched (h : Passes b color mode s) : Searched b color mode s := by
  induction h with
  | entered => exact searched_entered
  | step _ hs ih => exact ih.searching hs

/-- The path that a step finds has no more cells than a strict chain, but for the rows that it leads past the
far edge. -/
theorem Searched.length_le_of_found (h : Searched b color mode s) (hs : step b color mode s = .found path)
    (hchain : StrictChain b color chain) :
    ∃ c, path.head? = some c ∧ path.length + color.remaining b.size c ≤ chain.length := by
  obtain ⟨len, hinv, hshort⟩ := h
  obtain ⟨r, t, c, tail, rest, hpop, rfl, ht, hr⟩ := hinv.step_eq_found hs
  obtain ⟨e, hj, hlast⟩ := hchain.joinedBy
  have hle := hinv.length_le_of_pop hshort hpop ht (hj.mono hchain.stones)
    (hinv.contains_eq_false_of_far (by omega))
  exact ⟨c, by simp [ht], by omega⟩

theorem Direct.owns_strict (h : Direct b color .strict t) : ∀ c ∈ t.path, b.owns color c = true := by
  induction h with
  | start => simp
  | @go t l _ hl _ _ _ ih =>
    have ho : b.owns color l.target = true := by
      cases leads_of_mem_links hl with
      | edge _ ho => exact ho
      | edgeBridge _ hmode => cases hmode
      | beside _ _ ho => exact ho
      | bridge _ _ hmode => cases hmode
    exact List.forall_mem_cons.mpr ⟨ho, ih⟩

end ChainSearch

/-! ## Strands without bridges -/

/-- Without a bridge a strand leads from stone to neighbouring stone down to the near edge. -/
theorem Strand.beside_of_nil (h : Strand b color path []) :
    (path.IsChain fun a c => a.isAdjacent c = true) ∧ ∃ c ∈ path.getLast?, color.depth c = 0 := by
  generalize hps : ([] : List Carriers) = ps at h
  induction h with
  | edge _ hd => exact ⟨List.isChain_singleton _, _, rfl, hd⟩
  | edgeBridge => cases hps
  | @beside a c rest qs _ hadj _ ih =>
    obtain ⟨hchain, hlast⟩ := ih hps
    refine ⟨List.isChain_cons_cons.mpr ⟨?_, hchain⟩, by rwa [List.getLast?_cons_cons]⟩
    rwa [Cell.isAdjacent_comm]
  | bridge => cases hps

namespace Board

/-- The path of a strict search, read from its end, is a strict chain. -/
theorem strictChain_of_findChain (h : b.findChain color .strict = some path) :
    path.Nodup ∧ StrictChain b color path.reverse := by
  obtain ⟨t, c, rest, ht, rfl, hc, hr⟩ := direct_of_findChain h
  have hstones := ht.owns_strict
  have hstrand := ht.strand hstones (by simp [hc])
  rw [ht.safeCells_strict] at hstrand
  obtain ⟨hadj, hnear⟩ := hstrand.beside_of_nil
  refine ⟨ht.nodup, fun a ha => hstones a (List.mem_reverse.mp ha), ?_, by rwa [List.head?_reverse], c, ?_, ?_⟩
  · rw [List.isChain_reverse]
    exact hadj.imp fun a c h => (Cell.isAdjacent_comm c a).trans h
  · simp [hc]
  · have hb := (contains_iff_along color).mp (contains_of_owns (hstones c (by simp [hc])))
    unfold Color.remaining at hr
    omega

/-- A strict path lists different stones from the far edge back to the near edge, one beside the other, and
no strict chain has fewer stones. -/
theorem strict_path_is_shortest (h : b.isConnected color .strict = true) :
    ∃ path, b.findChain color .strict = some path ∧ path.Nodup ∧ StrictChain b color path.reverse ∧
      ∀ chain, StrictChain b color chain → path.length ≤ chain.length := by
  obtain ⟨path, hpath⟩ := Option.isSome_iff_exists.mp h
  obtain ⟨hnodup, hstrict⟩ := strictChain_of_findChain hpath
  refine ⟨path, hpath, hnodup, hstrict, fun chain hchain => ?_⟩
  obtain ⟨s, hs, hfound⟩ := ChainSearch.found_of_run (P := ChainSearch.Passes b color .strict)
    (fun _ _ => .step) .entered (findChain_eq ▸ hpath)
  obtain ⟨c, hc, hle⟩ := hs.searched.length_le_of_found hfound hchain
  obtain ⟨a, ha, hlast⟩ := hstrict.far
  obtain rfl : c = a := by simpa [hc] using ha
  unfold Color.remaining at hle
  omega

/-- Red's stones lead from edge to edge with one stone that leads no row on. -/
def detour : Board :=
  afterCells 3 three_le_maxSize [⟨0, 0⟩, ⟨1, 0⟩, ⟨0, 1⟩, ⟨0, 2⟩, ⟨1, 1⟩, ⟨2, 0⟩, ⟨1, 2⟩]

theorem strict_path_is_shortest_detour : detour.isConnected .red .strict = true ∧
    detour.findChain .red .strict = some [⟨1, 2⟩, ⟨1, 1⟩, ⟨0, 1⟩, ⟨0, 0⟩] ∧
    ∀ chain, StrictChain detour .red chain → 4 ≤ chain.length := by
  have hfound : detour.findChain .red .strict = some [⟨1, 2⟩, ⟨1, 1⟩, ⟨0, 1⟩, ⟨0, 0⟩] := by decide +kernel
  have hconnected : detour.isConnected .red .strict = true := Option.isSome_of_eq_some hfound
  obtain ⟨path, hpath, -, -, hshortest⟩ := strict_path_is_shortest hconnected
  obtain rfl := Option.some.inj (hfound.symm.trans hpath)
  exact ⟨hconnected, hfound, hshortest⟩

/-- Whatever bridges a search follows, at every moment one of the stones of a strict chain waits to be
extended, and so a chain is found. -/
theorem strict_chain_is_seen (h : b.isConnected color .strict = true) :
    b.isConnected color .virtual = true ∧
      ∀ chain, StrictChain b color chain → ∀ s, ChainSearch.Passes b color .virtual s →
        ∃ q ∈ s.frontier.toList, ∃ c ∈ chain, q.2.path.head? = some c := by
  refine ⟨isConnected_of_spans (isConnected_strict_iff.mp h), fun chain hchain s hs => ?_⟩
  obtain ⟨len, hinv, hshort⟩ := hs.searched
  obtain ⟨e, hj, hlast⟩ := hchain.joinedBy
  obtain ⟨q, hq, hwaits, -⟩ :=
    hinv.exists_waiting hshort hchain.stones hj (hinv.contains_eq_false_of_far (by omega))
  exact ⟨q, hq, hwaits⟩

/-- Red has four stones in the first column, and two stones that only bridges join to its near edge. -/
def bridgesBeside : Board :=
  afterCells 4 four_le_maxSize
    [⟨0, 0⟩, ⟨3, 1⟩, ⟨0, 1⟩, ⟨3, 2⟩, ⟨0, 2⟩, ⟨3, 3⟩, ⟨0, 3⟩, ⟨1, 0⟩, ⟨2, 1⟩, ⟨1, 1⟩, ⟨1, 3⟩]

/-- The search in virtual mode follows the bridges, with a stone of the column waiting from the start. -/
theorem strict_chain_is_seen_bridgesBeside :
    bridgesBeside.findChain .red .strict = some [⟨0, 3⟩, ⟨0, 2⟩, ⟨0, 1⟩, ⟨0, 0⟩] ∧
      bridgesBeside.findChain .red .virtual = some [⟨1, 3⟩, ⟨2, 1⟩] ∧
      bridgesBeside.isConnected .red .virtual = true ∧
      ∃ q ∈ (ChainSearch.entered bridgesBeside .red .virtual).frontier.toList,
        ∃ c ∈ [⟨0, 0⟩, ⟨0, 1⟩, ⟨0, 2⟩, ⟨0, 3⟩], q.2.path.head? = some c := by
  have hfound : bridgesBeside.findChain .red .strict = some [⟨0, 3⟩, ⟨0, 2⟩, ⟨0, 1⟩, ⟨0, 0⟩] := by
    decide +kernel
  obtain ⟨hseen, hwaits⟩ := strict_chain_is_seen (Option.isSome_of_eq_some hfound)
  exact ⟨hfound, by decide +kernel, hseen, hwaits _ (strictChain_of_findChain hfound).2 _ .entered⟩

end Board
end HexGame
