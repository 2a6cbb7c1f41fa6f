import HexGame.Feature.Vector
import HexGame.Pattern.Evaluator
import HexGame.Proofs.Pattern.Matches
import Mathlib.Algebra.Order.BigOperators.Group.List
import Mathlib.Algebra.Order.Ring.Nat

/-!
# Counting is counting matches

`count_eq` puts the parts together: an accepted text is counted as it is drawn. Each selected pattern has
its number of matches, the others have none, and the two last counts are the numbers of covered rows and
columns.
-/
namespace HexGame.Catalogue

variable {c : Catalogue} {ps : List DrawnPattern} {subset : Option (List Nat)} {color : Color}
  {grid : List Row} {i : Nat}

theorem mem_selection {p : Pattern} :
    (i, p) ∈ c.selection subset ↔ Selects subset i ∧ c.patterns[i]? = some p := by
  simp only [selection, List.mem_filterMap, Option.map_eq_some_iff, Prod.mk.injEq]
  cases subset with
  | none =>
    simp only [Option.getD_none, List.mem_range]
    constructor
    · rintro ⟨j, -, q, hq, rfl, rfl⟩
      exact ⟨nofun, hq⟩
    · rintro ⟨-, hp⟩
      obtain ⟨hi, -⟩ := List.getElem?_eq_some_iff.mp hp
      exact ⟨i, hi, p, hp, rfl, rfl⟩
  | some is =>
    simp [Selects]

theorem selection_filter (hsubset : ∀ is ∈ subset, is.Nodup) (hi : i < c.patterns.length) :
    (c.selection subset).filter (fun s => s.1 = i) = if Selects subset i then [(i, c.patterns[i])] else [] := by
  have hnodup : (subset.getD (List.range c.size)).Nodup := by
    cases subset with
    | none => exact List.nodup_range
    | some is => exact hsubset is rfl
  have hmem : i ∈ subset.getD (List.range c.size) ↔ Selects subset i := by
    cases subset with
    | none => simp [Selects, size, hi]
    | some is => simp [Selects]
  have hindex : (c.selection subset).filter (fun s => s.1 = i) =
      ((subset.getD (List.range c.size)).filter (· = i)).filterMap fun j =>
        c.patterns[j]?.map fun p => (j, p) := by
    rw [selection, List.filter_filterMap, List.filterMap_filter]
    refine List.filterMap_congr fun j _ => ?_
    by_cases hj : j = i <;> cases c.patterns[j]? <;> simp [hj]
  rw [hindex, List.filter_eq, hnodup.count, if_congr hmem rfl rfl]
  split <;> simp [hi]

theorem length_found (hc : c.patterns = ps.map DrawnPattern.pack)
    (hproper : ∀ p ∈ ps, ∀ d ∈ p.drawings, d.Proper) (hgrid : grid.length ≤ maxSize)
    (hsubset : ∀ is ∈ subset, is.Nodup) (hi : i < ps.length) :
    ((((c.selection subset).map fun s => (s.1, (s.2.boxes grid).filter fun b => b.owner = color)).filter
      (fun s => s.1 = i)).flatMap (·.2)).length =
      if Selects subset i then ps[i].matchCount color grid else 0 := by
  have hic : i < c.patterns.length := by rwa [hc, List.length_map]
  rw [List.filter_map]
  have hselection := selection_filter hsubset hic
  simp only [Function.comp_def, hselection]
  split
  · simp only [hc, List.getElem_map, List.map_cons, List.map_nil, List.flatMap_cons, List.flatMap_nil,
      List.append_nil]
    exact DrawnPattern.length_boxes_pack (hproper _ (List.getElem_mem hi)) hgrid
  · rfl

theorem countP_covered (hc : c.patterns = ps.map DrawnPattern.pack)
    (hproper : ∀ p ∈ ps, ∀ d ∈ p.drawings, d.Proper) (hgrid : grid.length ≤ maxSize)
    {span : Drawing → Nat × Nat → Finset Nat} {covers : Box → Nat → Bool}
    (hspan : ∀ d o z, covers (d.boxAt color o) z = true ↔ d.excluded = false ∧ z ∈ span d o) :
    (List.range grid.length).countP (fun z =>
      ((c.selection subset).map fun s => (s.1, (s.2.boxes grid).filter fun b => b.owner = color)).any fun s =>
        s.2.any fun b => covers b z) = (DrawnPattern.covered span ps subset color grid).card := by
  rw [List.countP_eq_length_filter]
  refine congrArg List.length (List.filter_congr fun z _ => Bool.eq_iff_iff.mpr ?_)
  simp only [List.any_map, List.any_eq_true, Function.comp_apply, List.mem_filter, decide_eq_true_iff,
    Prod.exists, mem_selection, hc, List.getElem?_map, Option.map_eq_some_iff]
  constructor
  · rintro ⟨i, q, ⟨hselects, p, hp, rfl⟩, b, ⟨hb, howner⟩, hz⟩
    obtain ⟨hi, rfl⟩ := List.getElem?_eq_some_iff.mp hp
    have hmem := hproper _ (List.getElem_mem hi)
    exact ⟨⟨i, hi⟩, hselects,
      (DrawnPattern.exists_box_iff_covers hmem hgrid fun d o => hspan d o z).mp ⟨b, hb, howner, hz⟩⟩
  · rintro ⟨⟨i, hi⟩, hselects, hcovers⟩
    have hmem := hproper _ (List.getElem_mem hi)
    obtain ⟨b, hb, howner, hz⟩ :=
      (DrawnPattern.exists_box_iff_covers hmem hgrid fun d o => hspan d o z).mpr hcovers
    exact ⟨i, _, ⟨hselects, _, List.getElem?_eq_getElem hi, rfl⟩, b, ⟨hb, howner⟩, hz⟩

theorem sideCounts_eq (color : Color) (hc : c.patterns = ps.map DrawnPattern.pack)
    (hproper : ∀ p ∈ ps, ∀ d ∈ p.drawings, d.Proper) (hgrid : grid.length ≤ maxSize)
    (hsubset : ∀ is ∈ subset, is.Nodup) :
    sideCounts c.size grid (c.found grid subset) color = DrawnPattern.counts ps subset grid color := by
  have hsize : c.size = ps.length := by rw [size, hc, List.length_map]
  unfold sideCounts found
  simp only [List.map_map]
  refine congrArg₂ _ ?_ (congrArg₂ (fun a b => [a, b]) ?_ ?_)
  · rw [hsize]
    refine List.ext_getElem (by simp) fun i hi _ => ?_
    have hi : i < ps.length := by simpa using hi
    rw [List.getElem_map, List.getElem_range, List.getElem_ofFn]
    exact length_found hc hproper hgrid hsubset hi
  · exact countP_covered hc hproper hgrid fun d o z => d.coversRow_boxAt o
  · exact countP_covered hc hproper hgrid fun d o z => d.coversColumn_boxAt o

/-- The lines of proper drawings are never looked for beyond the end of a row. -/
theorem runsOver_eq_false (hc : c.patterns = ps.map DrawnPattern.pack)
    (hproper : ∀ p ∈ ps, ∀ d ∈ p.drawings, d.Proper) (hgrid : grid.length ≤ maxSize) :
    ∀ s ∈ c.selection subset, ∀ v ∈ s.2.variants, v.runsOver grid.length = false := by
  rintro ⟨i, p⟩ hs v hv
  have hp := (mem_selection.mp hs).2
  rw [hc, List.getElem?_map, Option.map_eq_some_iff] at hp
  obtain ⟨p, hp, rfl⟩ := hp
  obtain ⟨d, hd, rfl⟩ := List.mem_map.mp hv
  have hwidth := (hproper p (List.mem_of_getElem? hp) d hd).width_pos
  rw [Variant.runsOver, Bool.and_eq_false_iff, decide_eq_false_iff_not, decide_eq_false_iff_not,
    Drawing.pack_width]
  omega

theorem card_covered_le (span : Drawing → Nat × Nat → Finset Nat) :
    (DrawnPattern.covered span ps subset color grid).card ≤ grid.length :=
  (Finset.card_filter_le _ _).trans_eq (Finset.card_range _)

theorem counts_le_maxCount (hgrid : grid.length ≤ maxSize)
    (hroom : ∀ i : Fin ps.length, Selects subset i → ps[i].matchCount color grid ≤ maxCount) :
    ∀ n ∈ DrawnPattern.counts ps subset grid color, n ≤ maxCount := by
  have hlines : grid.length ≤ maxCount := hgrid.trans (by decide)
  intro n hn
  rcases List.mem_append.mp hn with hn | hn
  · obtain ⟨i, rfl⟩ := List.mem_ofFn.mp hn
    split
    · exact hroom i ‹_›
    · exact Nat.zero_le _
  · simp only [List.mem_cons, List.not_mem_nil, or_false] at hn
    rcases hn with rfl | rfl <;> exact (card_covered_le _).trans hlines

theorem count_of_room (hc : c.patterns = ps.map DrawnPattern.pack)
    (hproper : ∀ p ∈ ps, ∀ d ∈ p.drawings, d.Proper) (hgrid : grid.length ≤ maxSize)
    (hsubset : ∀ is ∈ subset, is.Nodup)
    (hroom : ∀ color, ∀ i : Fin ps.length, Selects subset i → ps[i].matchCount color grid ≤ maxCount) :
    c.count grid subset =
      .ok ⟨DrawnPattern.counts ps subset grid .red, DrawnPattern.counts ps subset grid .blue⟩ := by
  have hside (color : Color) := sideCounts_eq color hc hproper hgrid hsubset
  rw [count_eq_sideCounts (hgrid.trans (by decide)) (runsOver_eq_false hc hproper hgrid), hside, hside]
  intro color
  rw [hside]
  exact counts_le_maxCount hgrid (hroom color)

/-- Counting an accepted text on a grid is counting the matches of what it draws. -/
theorem count_eq {text : String} (hparse : parse text = .ok c) (hgrid : grid.length ≤ maxSize)
    (hsubset : ∀ is ∈ subset, is.Nodup)
    (hroom : ∀ color, ∀ i : Fin (drawnPatterns text).length, Selects subset i →
      (drawnPatterns text)[i].matchCount color grid ≤ maxCount) :
    c.count grid subset = .ok ⟨DrawnPattern.counts (drawnPatterns text) subset grid .red,
      DrawnPattern.counts (drawnPatterns text) subset grid .blue⟩ := by
  obtain ⟨hc, hproper⟩ := parse_eq_ok hparse
  exact count_of_room hc hproper hgrid hsubset hroom

/-- Two patterns, the first with a short line, a cell of any kind and an excluded drawing. -/
def hookText : String := "### hook\n---\n* ? /\n.\n---\nexclude\n/\n### stone\n---\n*\n"

def hookCatalogue : Catalogue := ⟨(drawnPatterns hookText).map DrawnPattern.pack⟩

theorem count_eq_hook : parse hookText = .ok hookCatalogue ∧
    hookCatalogue.count [33, 0, 18] (some [0]) = .ok ⟨[3, 0, 2, 3], [2, 0, 0, 0]⟩ := by
  have hparse : parse hookText = .ok hookCatalogue := by decide +kernel
  refine ⟨hparse, (count_eq hparse (by decide) (by simp) ?_).trans (by decide +kernel)⟩
  intro color
  cases color <;> decide +kernel

end HexGame.Catalogue

/-! ## Evaluators that are alive -/
namespace HexGame

theorem DrawnPattern.matchCount_le (p : DrawnPattern) (owner : Color) (grid : List Row) :
    p.matchCount owner grid ≤ p.drawings.length * (grid.length * grid.length) := by
  refine (List.sum_le_card_nsmul _ (grid.length * grid.length) fun n hn => ?_).trans_eq (by simp)
  obtain ⟨d, -, rfl⟩ := List.mem_map.mp hn
  refine (Finset.card_filter_le _ _).trans_eq ?_
  rw [Finset.card_product, Finset.card_range]

theorem PatternCounts.fromEnd_eq_ok {counts : List Nat} {i : Nat} (hi : 0 < i) (hle : i ≤ counts.length) :
    ∃ n, PatternCounts.fromEnd counts i = .ok n := by
  unfold PatternCounts.fromEnd
  rw [if_neg (Nat.not_lt.mpr hle), List.getElem?_eq_getElem (by omega)]
  exact ⟨_, rfl⟩

theorem FeatureVector.exists_extract (b : Board) {counts : PatternCounts}
    (hcounts : ∀ color, 2 ≤ (counts.forColor color).length) :
    ∃ features, FeatureVector.extract b counts = .ok features := by
  have hrows (color : Color) := PatternCounts.fromEnd_eq_ok (by decide) (hcounts color)
  have hcolumns (color : Color) := PatternCounts.fromEnd_eq_ok (by decide) (Nat.le_of_succ_le (hcounts color))
  obtain ⟨redRows, hredRows⟩ := hrows .red
  obtain ⟨redColumns, hredColumns⟩ := hcolumns .red
  obtain ⟨blueRows, hblueRows⟩ := hrows .blue
  obtain ⟨blueColumns, hblueColumns⟩ := hcolumns .blue
  simp only [FeatureVector.extract, PatternCounts.occupiedRows, PatternCounts.occupiedColumns, hredRows,
    hredColumns, hblueRows, hblueColumns, bind, Except.bind, pure, Except.pure]
  exact ⟨_, rfl⟩

namespace Evaluator

/-- The evaluator counts all patterns of a board. -/
def Answers (e : Evaluator) (b : Board) : Prop := ∃ counts, e.count b none = .ok counts

/-- A running evaluator answers for every board when no count can run over. -/
theorem answers_of_parse {e : Evaluator} {text : String} (hrunning : e.running = true)
    (hparse : Catalogue.parse text = .ok e.catalogue)
    (hroom : ∀ p ∈ drawnPatterns text, p.drawings.length * (maxSize * maxSize) ≤ Catalogue.maxCount)
    (b : Board) : e.Answers b := by
  obtain ⟨hc, hproper⟩ := Catalogue.parse_eq_ok hparse
  have hgrid : b.rows.toList.length ≤ maxSize := by simpa using b.size_le
  have hall : ∀ is ∈ (none : Option (List Nat)), is.Nodup := nofun
  unfold Answers count
  rw [if_pos hrunning, Catalogue.count_of_room hc hproper hgrid hall]
  · exact ⟨_, rfl⟩
  · intro color i _
    refine (DrawnPattern.matchCount_le _ color _).trans (le_trans ?_ (hroom _ (List.getElem_mem i.isLt)))
    exact Nat.mul_le_mul_left _ (Nat.mul_le_mul hgrid hgrid)

theorem Answers.exists_features {e : Evaluator} {b : Board} (h : e.Answers b) :
    ∃ counts features, e.count b none = .ok counts ∧ FeatureVector.extract b counts = .ok features := by
  obtain ⟨counts, hcounts⟩ := h
  have hlength (color : Color) : 2 ≤ (counts.forColor color).length := by
    unfold Evaluator.count at hcounts
    split at hcounts
    · split at hcounts
      · rename_i hcount
        obtain rfl := Except.ok.inj hcounts
        rw [Catalogue.length_count hcount]
        exact Nat.le_add_left 2 _
      · cases hcounts
    · cases hcounts
  obtain ⟨features, hfeatures⟩ := FeatureVector.exists_extract b hlength
  exact ⟨counts, features, hcounts, hfeatures⟩

end Evaluator
end HexGame
