import HexGame.Chain.Defense
import HexGame.Proofs.Chain.SearchRun

/-!
# The bridges of a chain

The carriers that `safeCells` reads off a chain are those of the bridges its trail was built with
(`safeCells_cons`). They are empty, and those of a direct trail are pairwise disjoint although the search
compares neighbouring bridges only: two bridges that share a carrier have ends beside each other, and a
direct trail would have taken that step (`Direct.disjoint`).
-/
namespace HexGame

namespace Carriers

/-- The same cells, in either order. -/
def Same (p q : Carriers) : Prop := ∀ c, c ∈ p.cells ↔ c ∈ q.cells

theorem Same.refl (p : Carriers) : p.Same p := fun _ => Iff.rfl

end Carriers

namespace ChainSearch

variable {b : Board} {color : Color} {mode : Mode} {t u : Trail} {l : Link} {c a q : Cell}
variable {p p' : Carriers} {rest : List Cell}

/-- A stone on `q` would continue the trail: it lies on the near edge or beside the newest cell. -/
def Continues (color : Color) (t : Trail) (q : Cell) : Prop :=
  (t.path = [] ∧ color.depth q = 0) ∨ ∃ c rest, t.path = c :: rest ∧ c.isAdjacent q = true

/-- Where no bridge leads, there is a stone that continues the trail. -/
theorem stone_of_mem_links (hl : l ∈ links b color mode t) (hv : l.via = none) :
    b.owns color l.target = true ∧ Continues color t l.target := by
  cases leads_of_mem_links hl with
  | edge ht ho hd => exact ⟨ho, .inl ⟨ht, hd⟩⟩
  | edgeBridge => simp at hv
  | beside d ht ho => exact ⟨ho, .inr ⟨_, _, ht, Cell.isAdjacent_step _ d⟩⟩
  | bridge => simp at hv

/-- Each carrier of a bridge is empty, continues the trail and lies beside the cell it leads to. -/
theorem carrier_of_mem_links (hl : l ∈ links b color mode t) (hv : l.via = some p)
    (hq : q ∈ p.cells) :
    b.isEmptyAt q = true ∧ Continues color t q ∧ q.isAdjacent l.target = true := by
  cases leads_of_mem_links hl with
  | edge => simp at hv
  | edgeBridge ht _ _ hd hopen =>
    obtain rfl := Option.some.inj hv
    refine ⟨Board.isOpen_iff.mp hopen q hq, .inl ⟨ht, ?_⟩, Color.isAdjacent_edgeCarriers hq⟩
    rw [Color.depth_edgeCarriers hq, hd]
    rfl
  | beside => simp at hv
  | @bridge c rest d ht _ hopen =>
    obtain rfl := Option.some.inj hv
    obtain ⟨hadj, hadj'⟩ := Cell.isAdjacent_carriers hq
    exact ⟨Board.isOpen_iff.mp hopen q hq, .inr ⟨c, rest, ht, hadj⟩, hadj'⟩

theorem not_mem_of_filled (hl : l ∈ links b color mode t) (hv : l.via = some p)
    (hq : b.isEmptyAt q = false) : q ∉ p.cells := by
  intro h
  have := (carrier_of_mem_links hl hv h).1
  simp [hq] at this

theorem safeCells_cons_cons (a c : Cell) (rest : List Cell) (color : Color) :
    safeCells (a :: c :: rest) color =
      (if a.isAdjacent c then none else a.bridgeCarriers c).toList ++ safeCells (c :: rest) color := by
  simp only [safeCells, List.tail_cons, List.zip_cons_cons, List.filterMap_cons,
    List.getLast?_cons_cons]
  cases (if a.isAdjacent c then none else a.bridgeCarriers c) <;> simp

/-- A link adds its own bridge to those of the trail, and nothing if it is no bridge. -/
theorem safeCells_cons (hl : l ∈ links b color mode t) :
    (l.via = none ∧ safeCells (l.target :: t.path) color = safeCells t.path color) ∨
      ∃ p p', l.via = some p ∧ p'.Same p ∧
        safeCells (l.target :: t.path) color = p' :: safeCells t.path color := by
  cases leads_of_mem_links hl with
  | edge ht _ hd => exact .inl ⟨rfl, by simp [safeCells, ht, hd]⟩
  | edgeBridge ht _ _ hd => exact .inr ⟨_, _, rfl, .refl _, by simp [safeCells, ht, hd]⟩
  | beside d ht =>
    refine .inl ⟨rfl, ?_⟩
    rw [ht, safeCells_cons_cons, Cell.isAdjacent_comm, Cell.isAdjacent_step]
    rfl
  | @bridge c _ d ht =>
    refine .inr ⟨_, ⟨c.step d, c.step d.before⟩, rfl, fun q => ?_, ?_⟩
    · simp [Carriers.mem_cells, Cell.carriers, or_comm]
    · have hb := Cell.bridgeCarriers_leap (c.leap d) d.opposite
      rw [Cell.leap_opposite, Cell.carriers_leap_opposite] at hb
      rw [ht, safeCells_cons_cons, Cell.isAdjacent_comm, Cell.not_isAdjacent_leap, hb]
      rfl

/-! ## What a trail joins -/

theorem Direct.owns (h : Direct b color mode t) (hc : c ∈ t.path)
    (hr : 0 < color.remaining b.size c) : b.owns color c = true := by
  induction h with
  | start => simp at hc
  | go ht hl _ _ _ ih =>
    rcases List.mem_cons.mp hc with rfl | hc
    · exact owns_of_mem_links hl hr
    · exact ih hc

theorem Joined.of_continues {own : Cell → Prop} (ht : ∀ c rest, t.path = c :: rest → Joined color own c)
    (hq : Continues color t q) (ho : own q) : Joined color own q := by
  rcases hq with ⟨-, hd⟩ | ⟨c, rest, hp, hadj⟩
  · exact .edge ho hd
  · exact (ht c rest hp).adjacent hadj ho

/-- With a stone on a carrier of every bridge the cells of a trail are joined to the near edge, and past
the far edge the last of these stones lies on that edge. -/
theorem Direct.joined {own : Cell → Prop} (h : Direct b color mode t)
    (hown : ∀ c, b.owns color c = true → own c)
    (hfill : ∀ p ∈ safeCells t.path color, own p.first ∨ own p.second) (hc : t.path = c :: rest) :
    (b.owns color c = true → Joined color own c) ∧
      (b.owns color c = false → Spans color b.size own) := by
  induction h generalizing c rest with
  | start => simp at hc
  | @go t l ht hl hnew hinner hbeside ih =>
    obtain ⟨rfl, rfl⟩ := List.cons.inj hc
    have hpath (c : Cell) (rest : List Cell) (hp : t.path = c :: rest) : Joined color own c := by
      have hfill' : ∀ p ∈ safeCells t.path color, own p.first ∨ own p.second := by
        intro p hp
        rcases safeCells_cons hl with ⟨_, he⟩ | ⟨_, _, _, _, he⟩ <;> exact hfill p (by simp [he, hp])
      exact (ih hfill' hp).1 (ht.owns (by simp [hp]) (hinner c (by simp [hp])))
    rcases safeCells_cons hl with ⟨hv, he⟩ | ⟨p, p', hv, hs, he⟩
    · obtain ⟨ho, hcont⟩ := stone_of_mem_links hl hv
      exact ⟨fun _ => Joined.of_continues hpath hcont (hown _ ho), fun hno => by simp [ho] at hno⟩
    · obtain ⟨q, hq, ho⟩ : ∃ q ∈ p'.cells, own q := by
        rcases hfill p' (by simp [he]) with h | h
        · exact ⟨_, Carriers.mem_cells.mpr (.inl rfl), h⟩
        · exact ⟨_, Carriers.mem_cells.mpr (.inr rfl), h⟩
      obtain ⟨-, hcont, hadj⟩ := carrier_of_mem_links hl hv ((hs q).mp hq)
      have hj := Joined.of_continues hpath hcont ho
      refine ⟨fun ho => hj.adjacent hadj (hown _ ho), fun hno => ⟨q, hj, ?_⟩⟩
      obtain ⟨d, hd⟩ := Cell.isAdjacent_iff.mp hadj
      have hpast : color.isPastFarEdge b.size l.target = true := by
        rcases owns_or_past_of_mem_links hl with h | h
        · simp [h] at hno
        · exact h
      have h₁ := remaining_neg_of_past hpast
      have h₂ := (color.depth_step q d).2
      rw [hd] at h₂
      unfold Color.remaining at h₁ ⊢
      omega

theorem Direct.safeCells_strict (h : Direct b color .strict t) : safeCells t.path color = [] := by
  induction h with
  | start => rfl
  | @go t l _ hl _ _ _ ih =>
    rcases safeCells_cons hl with ⟨-, he⟩ | ⟨p, -, hv, -⟩
    · exact he.trans ih
    · cases leads_of_mem_links hl with
      | edge => simp at hv
      | edgeBridge _ hmode => simp at hmode
      | beside => simp at hv
      | bridge _ _ hmode => simp at hmode

/-! ## Carriers of different bridges -/

theorem Direct.nodup (h : Direct b color mode t) : t.path.Nodup := by
  induction h with
  | start => exact .nil
  | go _ _ hnew _ _ ih => exact List.nodup_cons.mpr ⟨hnew, ih⟩

theorem Direct.beside (h : Direct b color mode t) (hc : t.path = c :: rest) {path : List Cell}
    (hs : a :: path <:+ rest) (hadj : a.isAdjacent c = true) : a :: path = rest := by
  cases h with
  | start => simp at hc
  | go _ _ _ _ hbeside =>
    obtain ⟨rfl, rfl⟩ := List.cons.inj hc
    exact hbeside a path hs hadj

/-- Every bridge of a trail was crossed by a link, and the newest one is kept as the trail's entry. -/
theorem Direct.mem_safeCells (h : Direct b color mode t) (hp : p ∈ safeCells t.path color) :
    ∃ u l p', Direct b color mode u ∧ l ∈ links b color mode u ∧ l.via = some p' ∧ p.Same p' ∧
      l.target :: u.path <:+ t.path ∧ (l.target :: u.path = t.path → t.entry = some p') := by
  induction h with
  | start => simp [safeCells] at hp
  | @go t l ht hl hnew hinner hbeside ih =>
    have hold (hp : p ∈ safeCells t.path color) :
        ∃ u l₁ p', Direct b color mode u ∧ l₁ ∈ links b color mode u ∧ l₁.via = some p' ∧ p.Same p' ∧
          l₁.target :: u.path <:+ l.target :: t.path ∧
          (l₁.target :: u.path = l.target :: t.path → l.via = some p') := by
      obtain ⟨u, l₁, p', hu, hl₁, hv, hs, hsuf, -⟩ := ih hp
      refine ⟨u, l₁, p', hu, hl₁, hv, hs, hsuf.trans (List.suffix_cons _ _), fun he => ?_⟩
      have := hsuf.length_le
      simp only [he, List.length_cons] at this
      omega
    rcases safeCells_cons hl with ⟨-, he⟩ | ⟨p₁, p₂, hv, hs, he⟩
    · exact hold (he ▸ hp)
    · rw [he] at hp
      rcases List.mem_cons.mp hp with rfl | hp
      · exact ⟨t, l, p₁, ht, hl, hv, hs, List.suffix_refl _, fun _ => hv⟩
      · exact hold hp

/-- Around a carrier of the bridge to the near edge stand the stone and the other carrier, and of two
places that are two sixths of a turn apart one is either of them or lies nearer to the edge. -/
theorem around_edge_carrier (h : q ∈ (color.edgeCarriers a).cells) :
    ∃ f g, a = q.step f ∧ q.step g ∈ (color.edgeCarriers a).cells ∧ ∀ e s,
      (e = f ∨ (e.turn s).turn s = f) ∨ (e = g ∨ (e.turn s).turn s = g) ∨
        color.isOutward e = true ∨ color.isOutward ((e.turn s).turn s) = true := by
  rw [Color.edgeCarriers_eq] at h ⊢
  simp only [Carriers.mem_cells] at h ⊢
  cases color <;> simp only [Color.toEdge] at h ⊢ <;> rcases h with rfl | rfl
  · refine ⟨.south, .east, ?_, .inr ?_, fun e s => by revert s; cases e <;> decide⟩ <;>
      ext <;> simp only [Cell.step, Direction.offset] <;> omega
  · refine ⟨.southWest, .west, ?_, .inl ?_, fun e s => by revert s; cases e <;> decide⟩ <;>
      ext <;> simp only [Cell.step, Direction.offset] <;> omega
  · refine ⟨.east, .south, ?_, .inr ?_, fun e s => by revert s; cases e <;> decide⟩ <;>
      ext <;> simp only [Cell.step, Direction.offset] <;> omega
  · refine ⟨.northEast, .north, ?_, .inl ?_, fun e s => by revert s; cases e <;> decide⟩ <;>
      ext <;> simp only [Cell.step, Direction.offset] <;> omega

/-- A carrier of the bridge to the near edge carries another bridge only if that one ends on the stone,
on a carrier or off the board. -/
theorem shared_edge_carrier {d : Direction} (hd : color.depth a = 1)
    (ha : q ∈ (color.edgeCarriers a).cells) (hc : q ∈ (c.carriers d).cells) :
    (c = a ∨ c.leap d = a) ∨
      (c ∈ (color.edgeCarriers a).cells ∨ c.leap d ∈ (color.edgeCarriers a).cells) ∨
      color.depth c < 0 ∨ color.depth (c.leap d) < 0 := by
  have hq := Color.depth_edgeCarriers ha
  obtain ⟨e, s, rfl, -, hl⟩ := Cell.around_carrier hc
  obtain ⟨f, g, hf, hg, hcases⟩ := around_edge_carrier ha
  rw [hl]
  rcases hcases e s with (h | h) | (h | h) | h | h
  · exact .inl (.inl (by rw [h, hf]))
  · exact .inl (.inr (by rw [h, hf]))
  · exact .inr (.inl (.inl (by rwa [h])))
  · exact .inr (.inl (.inr (by rwa [h])))
  · have := Color.depth_step_outward (c := q) h
    exact .inr (.inr (.inl (by omega)))
  · have := Color.depth_step_outward (c := q) h
    exact .inr (.inr (.inr (by omega)))

theorem suffix_eq_of_nodup {us vs : List Cell} (h : (a :: vs).Nodup) (hs : a :: us <:+ a :: vs) :
    a :: us = a :: vs := by
  rcases List.suffix_cons_iff.mp hs with he | hs
  · exact he
  · exact absurd (hs.subset (by simp)) (List.nodup_cons.mp h).1

theorem target_of_mem_links (hl : l ∈ links b color mode t) :
    b.isEmptyAt l.target = false ∧ 0 ≤ color.depth l.target := by
  rcases owns_or_past_of_mem_links hl with ho | hpast
  · have hc := (Board.contains_iff_along color).mp (Board.contains_of_owns ho)
    exact ⟨Board.isEmptyAt_of_owns ho, hc.2.2.1⟩
  · simp only [Color.isPastFarEdge, Bool.and_eq_true, decide_eq_true_eq] at hpast
    refine ⟨?_, by omega⟩
    rw [Bool.eq_false_iff, Ne, Board.isEmptyAt_iff, Board.contains_iff_along color]
    omega

theorem Direct.not_mem_carriers {u : Trail} {l₁ : Link} (ht : Direct b color mode t)
    (hl : l ∈ links b color mode t) (hv : l.via = some p) (hnew : l.target ∉ t.path)
    (hinner : ∀ a ∈ t.path, 0 < color.remaining b.size a)
    (hbeside : ∀ a path, a :: path <:+ t.path → a.isAdjacent l.target = true → a :: path = t.path)
    (hl₁ : l₁ ∈ links b color mode u) (hv₁ : l₁.via = some p')
    (hs : l₁.target :: u.path <:+ t.path)
    (hentry : l₁.target :: u.path = t.path → t.entry = some p') (hq : q ∈ p.cells) :
    q ∉ p'.cells := by
  intro hq'
  obtain ⟨c, rest, hc⟩ := List.exists_cons_of_ne_nil (l := t.path) (by rintro h; simp [h] at hs)
  have hown : b.owns color c = true := ht.owns (by simp [hc]) (hinner c (by simp [hc]))
  have hnodup : (c :: rest).Nodup := hc ▸ ht.nodup
  have hmem {a : Cell} {us : List Cell} (h : a :: us <:+ t.path) : a ∈ t.path := h.subset (by simp)
  have hleap := target_of_mem_links hl
  have hlink := hl
  simp only [links, hc] at hlink
  rcases Board.mem_onwardLinks.mp hlink with ⟨_, _, rfl⟩ | ⟨-, d, hopen, hover, -, rfl⟩
  · simp at hv
  obtain rfl := Option.some.inj hv
  have hends {a : Cell} (h : a = c ∨ a = c.leap d) : a ∉ p'.cells := by
    apply not_mem_of_filled hl₁ hv₁
    rcases h with rfl | rfl
    · exact Board.isEmptyAt_of_owns hown
    · exact hleap.1
  have hnewest (he : l₁.target :: u.path = t.path) : False := by
    have := Carriers.not_overlaps_iff.mp (hover p' (hentry he)) q hq
    exact this hq'
  cases leads_of_mem_links hl₁ with
  | edge => simp at hv₁
  | edgeBridge hu _ _ hd =>
    obtain rfl := Option.some.inj hv₁
    rcases shared_edge_carrier hd hq' hq with (h | h) | (h | h) | h | h
    · apply hnewest
      rw [hc, h]
      rw [hc, h] at hs
      exact suffix_eq_of_nodup (h ▸ hnodup) hs
    · exact hnew (h ▸ hmem hs)
    · exact hends (.inl rfl) h
    · exact hends (.inr rfl) h
    · have := (Board.contains_iff_along color).mp (Board.contains_of_owns hown)
      omega
    · have := hleap.2
      simp only at this
      omega
  | beside => simp at hv₁
  | @bridge a us e hu =>
    obtain rfl := Option.some.inj hv₁
    have hs' : a :: us <:+ t.path := by
      rw [hu] at hs
      exact (List.suffix_cons _ _).trans hs
    have hs'' : a :: us <:+ rest := by
      rw [hu, hc, List.suffix_cons_iff] at hs
      rcases hs with hs | hs
      · exact (List.cons.inj hs).2 ▸ List.suffix_refl _
      · exact (List.suffix_cons _ _).trans hs
    rcases Cell.shared_carrier hq' hq with (h | h | h | h) | (h | h) | h | h
    · exact (List.nodup_cons.mp hnodup).1 (h ▸ hs''.subset (by simp))
    · apply hnewest
      simp only [hc, h] at hs ⊢
      exact suffix_eq_of_nodup (h ▸ hnodup) hs
    · exact hnew (h ▸ hmem hs')
    · exact hnew (h ▸ hmem hs)
    · exact hends (.inl rfl) h
    · exact hends (.inr rfl) h
    · have he := ht.beside hc hs'' h
      rw [hu, hc, ← he] at hs
      have := (List.cons.inj (hs.eq_of_length rfl)).1
      rw [← this, Cell.not_isAdjacent_leap] at h
      simp at h
    · have := hs.length_le
      rw [hu, ← hbeside a us hs' h] at this
      simp only [List.length_cons] at this
      omega

theorem Direct.disjoint (h : Direct b color mode t) :
    (safeCells t.path color).Pairwise fun p q => p.overlaps q = false := by
  induction h with
  | start => exact .nil
  | @go t l ht hl hnew hinner hbeside ih =>
    rcases safeCells_cons hl with ⟨-, he⟩ | ⟨p, p', hv, hs, he⟩
    · rwa [he]
    · rw [he, List.pairwise_cons]
      refine ⟨fun r hr => Carriers.not_overlaps_iff.mpr fun q hq hq' => ?_, ih⟩
      obtain ⟨u, l₁, r', -, hl₁, hv₁, hr', hsuf, hentry⟩ := ht.mem_safeCells hr
      exact ht.not_mem_carriers hl hv hnew hinner hbeside hl₁ hv₁ hsuf hentry ((hs q).mp hq)
        ((hr' q).mp hq')

theorem Direct.isOpen (h : Direct b color mode t) (hp : p ∈ safeCells t.path color) :
    b.isOpen p = true := by
  obtain ⟨u, l, p', -, hl, hv, hs, -, -⟩ := h.mem_safeCells hp
  exact Board.isOpen_iff.mpr fun q hq => (carrier_of_mem_links hl hv ((hs q).mp hq)).1

theorem distinct_of_mem_links (hl : l ∈ links b color mode t) (hv : l.via = some p) :
    p.first ≠ p.second := by
  cases leads_of_mem_links hl with
  | edge => simp at hv
  | edgeBridge =>
    obtain rfl := Option.some.inj hv
    intro he
    have := congrArg color.along he
    simp only [Color.edgeCarriers, Color.along_cellAt] at this
    omega
  | beside => simp at hv
  | bridge d =>
    obtain rfl := Option.some.inj hv
    intro he
    have := Cell.step_inj he
    cases d <;> simp [Direction.before] at this

theorem Direct.distinct (h : Direct b color mode t) (hp : p ∈ safeCells t.path color) :
    p.first ≠ p.second := by
  obtain ⟨u, l, p', -, hl, hv, hs, -, -⟩ := h.mem_safeCells hp
  have hp' := distinct_of_mem_links hl hv
  intro he
  simp only [Carriers.Same, Carriers.mem_cells, he, or_self] at hs
  have h₁ := (hs p'.first).mpr (.inl rfl)
  have h₂ := (hs p'.second).mpr (.inr rfl)
  exact hp' (h₁.trans h₂.symm)

end ChainSearch
end HexGame
