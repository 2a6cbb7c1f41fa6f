import Mathlib.Data.List.Chain
import Mathlib.Data.List.Nodup
import HexGame.Proofs.Board.Line
import HexGame.Proofs.Chain.Keeping
import HexGame.Proofs.Chain.VirtualChain

/-!
# The path that is found

A search in virtual mode returns cells, and what is done with them reads the bridges off the cells again. So
the path has to be such that this is possible: it runs from the far edge, or one step past it, over stones
back to the near edge, and of two consecutive cells that are not adjacent the bridge is determined
(`VirtualPath`). Then there is one pair of carriers for each such bridge (`map_safeCells`), all carriers are
different empty cells (`nodup_carriers`), and a side that is lost attacks one of them.
-/
namespace HexGame

/-- Two cells beside each other, or the ends of a bridge. -/
def Cell.Linked (a c : Cell) : Prop := a.isAdjacent c = true ∨ (a.bridgeCarriers c).isSome = true

instance (a c : Cell) : Decidable (a.Linked c) := inferInstanceAs (Decidable (_ ∨ _))

/-- On the far edge, or off the board exactly one step past it. -/
def Board.EndsChain (b : Board) (color : Color) (c : Cell) : Prop :=
  (b.owns color c = true ∧ color.depth c = b.size - 1) ∨
    (color.depth c = b.size ∧ 0 ≤ color.along c ∧ color.along c < b.size)

/-- The cells of a virtual chain from the far edge back to the near edge, each once. -/
structure VirtualPath (b : Board) (color : Color) (path : List Cell) : Prop where
  nodup : path.Nodup
  first : ∃ c ∈ path.head?, b.EndsChain color c
  stones : ∀ c ∈ path.tail, b.owns color c = true
  linked : path.IsChain Cell.Linked
  last : ∃ c ∈ path.getLast?, b.owns color c = true ∧ (color.depth c = 0 ∨ color.depth c = 1)

/-- The bridges between consecutive cells that are not adjacent, and the one to the near edge if the last cell
does not lie on it. -/
def bridgesAlong (path : List Cell) (color : Color) : List (Option Carriers) :=
  ((path.zip path.tail).filter fun (a, c) => !a.isAdjacent c).map (fun (a, c) => a.bridgeCarriers c) ++
    (path.getLast?.toList.filter (0 < color.depth ·)).map fun c => some (color.edgeCarriers c)

variable {b : Board} {color : Color} {mode : Mode} {t : Trail} {a c : Cell} {path rest : List Cell}

theorem Color.depth_leap_le (color : Color) (c : Cell) (d : Direction) :
    color.depth (c.leap d) ≤ color.depth c + 2 := by
  cases color <;> cases d <;>
    simp only [depth, Cell.leap, Direction.leapOffset] <;> omega

theorem Cell.linked_step (c : Cell) (d : Direction) : (c.step d).Linked c := by
  left
  rw [isAdjacent_comm]
  exact isAdjacent_step c d

theorem Cell.linked_leap (c : Cell) (d : Direction) : (c.leap d).Linked c := by
  right
  have h := bridgeCarriers_leap (c.leap d) d.opposite
  rw [leap_opposite] at h
  rw [h]
  rfl

/-- A bridge from before the far edge leads one step past it at most. -/
theorem Board.endsChain_leap {d : Direction} (ho : b.owns color a = true) (hr : 0 < color.remaining b.size a)
    (hpast : color.isPastFarEdge b.size (a.leap d) = true) : b.EndsChain color (a.leap d) := by
  have hb := (contains_iff_along color).mp (contains_of_owns ho)
  have hle := color.depth_leap_le a d
  simp only [Color.isPastFarEdge, Bool.and_eq_true, decide_eq_true_eq] at hpast
  unfold Color.remaining at hr
  obtain rfl : d = color.farLeap := Color.eq_farLeap (c := a) (by omega)
  have halong := color.along_leap_farLeap a
  exact .inr ⟨by omega, hpast.2, by omega⟩

/-! ## Direct trails -/

namespace ChainSearch

theorem Direct.linked (h : Direct b color mode t) : t.path.IsChain Cell.Linked := by
  induction h with
  | start => exact List.isChain_nil
  | @go t l _ hl _ _ _ ih =>
    cases leads_of_mem_links hl with
    | edge ht | edgeBridge ht =>
      simp only [ht]
      exact List.isChain_singleton _
    | beside d ht =>
      simp only [ht] at ih ⊢
      exact List.isChain_cons_cons.mpr ⟨Cell.linked_step _ d, ih⟩
    | bridge d ht =>
      simp only [ht] at ih ⊢
      exact List.isChain_cons_cons.mpr ⟨Cell.linked_leap _ d, ih⟩

/-- A trail enters the board on the near edge or one step from it. -/
theorem Direct.last (h : Direct b color mode t) (hc : t.path.getLast? = some c) :
    b.owns color c = true ∧ (color.depth c = 0 ∨ color.depth c = 1) := by
  induction h with
  | start => cases hc
  | @go t l _ hl _ _ _ ih =>
    cases leads_of_mem_links hl with
    | edge ht ho hd =>
      simp only [ht, List.getLast?_singleton, Option.some.injEq] at hc
      exact hc ▸ ⟨ho, .inl hd⟩
    | edgeBridge ht _ ho hd =>
      simp only [ht, List.getLast?_singleton, Option.some.injEq] at hc
      exact hc ▸ ⟨ho, .inr hd⟩
    | beside _ ht | bridge _ ht =>
      simp only [ht, List.getLast?_cons_cons] at hc ih
      exact ih hc

/-- A trail that has reached the far edge lies on it or has left the board over it. -/
theorem Direct.endsChain (h : Direct b color mode t) (hc : t.path = c :: rest)
    (hr : color.remaining b.size c ≤ 0) : b.EndsChain color c := by
  have hinner := h.inner hc
  cases ho : b.owns color c with
  | true =>
    have hdepth := (Board.contains_iff_along color).mp (Board.contains_of_owns ho)
    unfold Color.remaining at hr
    exact .inl ⟨ho, by omega⟩
  | false =>
    cases h with
    | start => cases hc
    | @go u l hu hl _ _ _ =>
      obtain ⟨rfl, rfl⟩ := List.cons.inj hc
      cases leads_of_mem_links hl with
      | edge _ ho' | edgeBridge _ _ ho' | beside _ _ ho' => simp [ho'] at ho
      | @bridge a us d ht _ _ _ hend =>
        have hr' := hinner a (by simp [ht])
        exact Board.endsChain_leap (hu.owns (by simp [ht]) hr') hr' (hend.resolve_right (by simp [ho]))

end ChainSearch

namespace Board

theorem virtualPath_of_findChain (h : b.findChain color mode = some path) : VirtualPath b color path := by
  obtain ⟨t, c, rest, ht, rfl, hc, hr⟩ := direct_of_findChain h
  refine ⟨ht.nodup, ⟨c, by simp [hc], ht.endsChain hc hr⟩, fun a ha => ?_, ht.linked, ?_⟩
  · rw [hc, List.tail_cons] at ha
    exact ht.owns (by simp [hc, ha]) (ht.inner hc a ha)
  · have hlast : t.path.getLast? = some (t.path.getLast (by simp [hc])) := List.getLast?_eq_some_getLast _
    exact ⟨_, hlast, ht.last hlast⟩

end Board

/-! ## The carriers along a path -/

theorem bridgesAlong_cons_cons (a c : Cell) (rest : List Cell) (color : Color) :
    bridgesAlong (a :: c :: rest) color =
      (if a.isAdjacent c then [] else [a.bridgeCarriers c]) ++ bridgesAlong (c :: rest) color := by
  cases hadj : a.isAdjacent c <;> simp [bridgesAlong, hadj]

theorem map_safeCells (h : path.IsChain Cell.Linked) (color : Color) :
    (safeCells path color).map some = bridgesAlong path color := by
  induction path with
  | nil => rfl
  | cons a path ih =>
    cases path with
    | nil => by_cases hd : 0 < color.depth a <;> simp [safeCells, bridgesAlong, hd]
    | cons c rest =>
      obtain ⟨hlinked, hrest⟩ := List.isChain_cons_cons.mp h
      rw [ChainSearch.safeCells_cons_cons, bridgesAlong_cons_cons, List.map_append, ih hrest]
      cases hadj : a.isAdjacent c with
      | true => simp
      | false =>
        obtain ⟨p, hp⟩ := Option.isSome_iff_exists.mp (hlinked.resolve_left (by simp [hadj]))
        simp [hp]

namespace Board

theorem isEmptyAt_of_mem_safeCells (h : b.findChain color mode = some path)
    (hc : c ∈ (safeCells path color).flatMap Carriers.cells) : b.isEmptyAt c = true := by
  obtain ⟨p, hp, hc⟩ := List.mem_flatMap.mp hc
  exact isOpen_iff.mp ((Keeps.of_findChain h).isOpen p hp) c hc

theorem nodup_carriers (h : b.findChain color mode = some path) :
    ((safeCells path color).flatMap Carriers.cells).Nodup := by
  have hkeeps := Keeps.of_findChain h
  refine List.nodup_flatMap.mpr ⟨fun p hp => ?_, hkeeps.disjoint.imp fun hpq => ?_⟩
  · simpa [Carriers.cells] using hkeeps.distinct p hp
  · exact List.disjoint_left.mpr (Carriers.not_overlaps_iff.mp hpq)

/-! ## The attack -/

theorem desperateMove_eq (h : b.findChain color .virtual = some path) :
    b.desperateMove color.opponent =
      (((safeCells path color).flatMap Carriers.cells).find? b.isEmptyAt).map (⟨·, color.opponent⟩) := by
  unfold desperateMove
  rw [Color.opponent_opponent, h, Option.bind_eq_bind, Option.bind_some, Option.map_eq_bind]
  rfl

theorem isSome_desperateMove (h : b.findChain color .virtual = some path) :
    (b.desperateMove color.opponent).isSome = true ↔ safeCells path color ≠ [] := by
  rw [desperateMove_eq h, Option.isSome_map, List.find?_isSome]
  constructor
  · rintro ⟨c, hc, -⟩ hnil
    simp [hnil] at hc
  · intro hne
    obtain ⟨p, hp⟩ := List.exists_mem_of_ne_nil _ hne
    have hc : p.first ∈ (safeCells path color).flatMap Carriers.cells :=
      List.mem_flatMap.mpr ⟨p, hp, by simp [Carriers.cells]⟩
    exact ⟨p.first, hc, isEmptyAt_of_mem_safeCells h hc⟩

theorem mem_carriers_of_desperateMove {mv : Move} (h : b.findChain color .virtual = some path)
    (hmv : b.desperateMove color.opponent = some mv) :
    mv.color = color.opponent ∧ mv.cell ∈ (safeCells path color).flatMap Carriers.cells := by
  rw [desperateMove_eq h] at hmv
  obtain ⟨c, hc, rfl⟩ := Option.map_eq_some_iff.mp hmv
  exact ⟨rfl, List.mem_of_find?_eq_some hc⟩

/-- The path of a secured chain is well formed, its bridges can be read off it and share no cell, and the
other side has a move into one of them unless there is none. -/
theorem found_path_keeps_bridges (h : b.findChain color .virtual = some path) :
    VirtualPath b color path ∧
      (safeCells path color).map some = bridgesAlong path color ∧
      (∀ c ∈ (safeCells path color).flatMap Carriers.cells, b.Contains c ∧ b.isEmptyAt c = true) ∧
      ((safeCells path color).flatMap Carriers.cells).Nodup ∧
      ((b.desperateMove color.opponent).isSome = true ↔ safeCells path color ≠ []) ∧
      ∀ mv ∈ b.desperateMove color.opponent,
        mv.cell ∈ (safeCells path color).flatMap Carriers.cells ∧ mv.color = color.opponent ∧
          (b.toMove = color.opponent → mv ∈ b.legalMoves) := by
  have hpath := virtualPath_of_findChain h
  refine ⟨hpath, map_safeCells hpath.linked color, fun c hc => ?_, nodup_carriers h, isSome_desperateMove h,
    fun mv hmv => ?_⟩
  · have hempty := isEmptyAt_of_mem_safeCells h hc
    exact ⟨(isEmptyAt_iff.mp hempty).1, hempty⟩
  · obtain ⟨hcolor, hmem⟩ := mem_carriers_of_desperateMove h hmv
    have hempty := isEmptyAt_of_mem_safeCells h hmem
    exact ⟨hmem, hcolor, fun hturn => mem_legalMoves.mpr ⟨hempty, hcolor.trans hturn.symm⟩⟩

/-- The stone in the middle is joined to both edges by bridges, and blue has a move into the first. -/
theorem found_path_middleStone : middleStone.findChain .red .virtual = some [⟨0, 3⟩, ⟨1, 1⟩] ∧
    VirtualPath middleStone .red [⟨0, 3⟩, ⟨1, 1⟩] ∧
    bridgesAlong [⟨0, 3⟩, ⟨1, 1⟩] .red = [some ⟨⟨0, 2⟩, ⟨1, 2⟩⟩, some ⟨⟨1, 0⟩, ⟨2, 0⟩⟩] ∧
    middleStone.desperateMove .blue = some ⟨⟨0, 2⟩, .blue⟩ := by
  have hfound : middleStone.findChain .red .virtual = some [⟨0, 3⟩, ⟨1, 1⟩] := by decide +kernel
  exact ⟨hfound, (found_path_keeps_bridges hfound).1, by decide, by decide +kernel⟩

end Board
end HexGame
