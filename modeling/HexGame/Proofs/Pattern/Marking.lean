import HexGame.Pattern.Count
import HexGame.Proofs.Board.Line
import Mathlib.Data.List.Basic

/-!
# Marking boxes

The loop over the boxes holds counters and marks, and each box changes the counter of its pattern and some of
the marks. After the boxes of a list every counter is a number of boxes, and a line is marked when one of them
covers it (`Tally.foldlM_add`). So the loop ends with numbers of boxes and of covered lines (`sideCounts`), as
long as the counters have room for them.
-/
namespace HexGame

variable {n size i : Nat} {rows : List Row} {l l' : List (Nat × Box)} {b : Box}

def Pattern.boxes (p : Pattern) (rows : List Row) : List Box := p.variants.flatMap (·.boxes rows)

def Box.coversRow (b : Box) (y : Nat) : Bool := !b.excluded && b.y ≤ y && y < b.y + b.height

def Box.coversColumn (b : Box) (x : Nat) : Bool := !b.excluded && b.x ≤ x && x < b.x + b.width

/-- The boxes of one side, in a list of boxes with their patterns. -/
def ownedBy (color : Color) (l : List (Nat × Box)) : List (Nat × Box) := l.filter (·.2.owner = color)

theorem ownedBy_append (color : Color) : ownedBy color (l ++ l') = ownedBy color l ++ ownedBy color l' :=
  List.filter_append l l'

theorem ownedBy_cons_self (s : Nat × Box) : ownedBy s.2.owner (s :: l) = s :: ownedBy s.2.owner l :=
  List.filter_cons_of_pos (decide_eq_true rfl)

namespace Marks

/-- The marks after the boxes of `l`, each with the pattern that it belongs to. -/
def after (n size : Nat) (l : List (Nat × Box)) : Marks where
  counts := (List.range n).map fun i => l.countP (·.1 = i)
  rows := (List.range size).map fun y => l.any (·.2.coversRow y)
  columns := (List.range size).map fun x => l.any (·.2.coversColumn x)

theorem after_nil : after n size [] = blank n size := by
  simp [after, blank, List.map_const']

theorem fill_map_range (p : Nat → Bool) (start length : Nat) :
    fill ((List.range size).map p) start length =
      (List.range size).map fun z => p z || (start ≤ z && z < start + length) := by
  refine List.ext_getElem (by simp [fill]) fun z _ _ => ?_
  simp [fill]

theorem set_counts :
    ((List.range n).map fun j => l.countP (·.1 = j)).set i (l.countP (·.1 = i) + 1) =
      (List.range n).map fun j => (l ++ [(i, b)]).countP (·.1 = j) := by
  refine List.ext_getElem (by simp) fun j _ _ => ?_
  by_cases h : i = j <;> simp [h]

theorem add_after (hi : i < n) (hroom : l.countP (·.1 = i) < Catalogue.maxCount) :
    (after n size l).add i b = .ok (after n size (l ++ [(i, b)])) := by
  have hcount : (after n size l).counts.getD i 0 = l.countP (·.1 = i) := by simp [after, hi]
  unfold add
  dsimp only
  rw [hcount, if_pos hroom]
  cases hexcluded : b.excluded <;>
    simp [after, set_counts (b := b), fill_map_range, Box.coversRow, Box.coversColumn, hexcluded]

theorem length_counts_add {m m' : Marks} (h : m.add i b = .ok m') : m'.counts.length = m.counts.length := by
  unfold add at h
  dsimp only at h
  split at h
  · split at h <;> obtain rfl := Except.ok.inj h <;> exact List.length_set
  · cases h

/-- At most as many lines are marked as there are, so the number is kept as it is. -/
theorem marked_map_range (p : Nat → Bool) (hsize : size ≤ Catalogue.maxCount) :
    marked ((List.range size).map p) = (List.range size).countP p := by
  have hle : (List.range size).countP p ≤ size := Nat.le_trans List.countP_le_length (Nat.le_of_eq List.length_range)
  have hlt : (List.range size).countP p < UInt32.size := Nat.lt_of_le_of_lt (Nat.le_trans hle hsize) (by decide)
  rw [marked, List.count, List.countP_map, Nat.mod_eq_of_lt]
  · simp [Function.comp_def]
  · simpa [Function.comp_def] using hlt

end Marks

namespace Tally

/-- Each side has the marks of its own boxes. -/
def after (n size : Nat) (l : List (Nat × Box)) : Tally :=
  ⟨.after n size (ownedBy .red l), .after n size (ownedBy .blue l)⟩

theorem after_nil : after n size [] = blank n size := by
  rw [after, ownedBy, ownedBy, List.filter_nil, List.filter_nil, Marks.after_nil, blank]

theorem add_after (hi : i < n)
    (hroom : (ownedBy b.owner l).countP (·.1 = i) < Catalogue.maxCount) :
    (after n size l).add i b = .ok (after n size (l ++ [(i, b)])) := by
  unfold add after ownedBy
  unfold ownedBy at hroom
  cases howner : b.owner <;> rw [howner] at hroom <;>
    simp [Marks.add_after hi hroom, howner, bind, Except.bind, pure, Except.pure]

/-- All boxes are marked when no counter runs out of room. -/
theorem foldlM_add (hl' : ∀ s ∈ l', s.1 < n) (hroom : ∀ color, ∀ i < n,
    (ownedBy color (l ++ l')).countP (·.1 = i) ≤ Catalogue.maxCount) :
    l'.foldlM (fun t s => t.add s.1 s.2) (after n size l) = .ok (after n size (l ++ l')) := by
  induction l' generalizing l with
  | nil => simp [pure, Except.pure]
  | cons s l' ih =>
    obtain ⟨hs, hl'⟩ := List.forall_mem_cons.mp hl'
    have hcount : (ownedBy s.2.owner l).countP (·.1 = s.1) < Catalogue.maxCount := by
      have hle := hroom s.2.owner s.1 hs
      rw [ownedBy_append, ownedBy_cons_self, List.countP_append, List.countP_cons, decide_eq_true rfl] at hle
      simp only [if_true] at hle
      omega
    have hroom : ∀ color, ∀ i < n, (ownedBy color ((l ++ [s]) ++ l')).countP (·.1 = i) ≤
        Catalogue.maxCount := by
      simpa using hroom
    rw [List.foldlM_cons, add_after hs hcount]
    refine (ih hl' hroom).trans ?_
    rw [List.append_assoc, List.singleton_append]

theorem addPattern_eq {t : Tally} {p : Pattern} (hruns : ∀ v ∈ p.variants, v.runsOver rows.length = false) :
    t.addPattern rows (i, p) = (p.boxes rows).foldlM (add i) t := by
  rw [Pattern.boxes, foldlM_flatMap]
  refine foldlM_congr fun t v hv => ?_
  rw [addVariant, hruns v hv, if_neg Bool.false_ne_true]

/-- Both sides have `n` counters. -/
def HasCounters (n : Nat) (t : Tally) : Prop := t.red.counts.length = n ∧ t.blue.counts.length = n

theorem HasCounters.add {t t' : Tally} (ht : t.HasCounters n) (h : t.add i b = .ok t') : t'.HasCounters n := by
  unfold Tally.add at h
  split at h <;> obtain ⟨m, hm, h⟩ := bind_eq_ok.mp h <;> obtain rfl := Except.ok.inj h
  · exact ⟨(Marks.length_counts_add hm).trans ht.1, ht.2⟩
  · exact ⟨ht.1, (Marks.length_counts_add hm).trans ht.2⟩

theorem HasCounters.addVariant {t t' : Tally} {v : Variant} (ht : t.HasCounters n)
    (h : t.addVariant rows i v = .ok t') : t'.HasCounters n := by
  unfold Tally.addVariant at h
  split at h
  · cases h
  · exact foldlM_preserves (HasCounters n) (fun _ _ _ ht => ht.add) ht h

end Tally

namespace Catalogue

/-- The boxes that are found for each selected pattern. -/
def found (c : Catalogue) (rows : List Row) (subset : Option (List Nat)) : List (Nat × List Box) :=
  (c.selection subset).map fun s => (s.1, s.2.boxes rows)

/-- The boxes of each pattern, in one list. -/
def marking (found : List (Nat × List Box)) : List (Nat × Box) :=
  found.flatMap fun s => s.2.map (Prod.mk s.1)

def sideCounts (n : Nat) (rows : List Row) (found : List (Nat × List Box))
    (color : Color) : List Nat :=
  let mine := found.map fun (i, boxes) => (i, boxes.filter fun (b : Box) => b.owner = color)
  let ofPattern := (List.range n).map fun i =>
    ((mine.filter (·.1 = i)).flatMap (·.2)).length
  let places := List.range rows.length
  ofPattern ++
    [places.countP fun y => mine.any (·.2.any (·.coversRow y)),
      places.countP fun x => mine.any (·.2.any (·.coversColumn x))]

variable {c : Catalogue} {subset : Option (List Nat)} {found : List (Nat × List Box)} {color : Color}

theorem countP_marking (i : Nat) : (ownedBy color (marking found)).countP (·.1 = i) =
    (((found.map fun s => (s.1, s.2.filter fun b => b.owner = color)).filter (·.1 = i)).flatMap (·.2)).length := by
  unfold marking ownedBy
  induction found with
  | nil => rfl
  | cons s found ih =>
    rw [List.flatMap_cons, List.filter_append, List.countP_append, ih, List.map_cons, List.filter_cons]
    by_cases hs : s.1 = i <;> simp [hs, List.filter_map, Function.comp_def]

theorem any_marking (found : List (Nat × List Box)) (color : Color) (covers : Box → Bool) :
    (ownedBy color (marking found)).any (covers ·.2) =
    (found.map fun s => (s.1, s.2.filter fun b => b.owner = color)).any (·.2.any covers) := by
  simp only [marking, ownedBy, List.any_filter, List.any_flatMap, List.any_map, Function.comp_def]

theorem totals_after (hrows : rows.length ≤ maxCount) :
    (Marks.after n rows.length (ownedBy color (marking found))).totals =
      sideCounts n rows found color := by
  have hrow (y : Nat) := any_marking found color (·.coversRow y)
  have hcolumn (x : Nat) := any_marking found color (·.coversColumn x)
  unfold Marks.totals Marks.after sideCounts
  simp only [Marks.marked_map_range _ hrows, countP_marking, hrow, hcolumn]

theorem lt_size_of_mem_selection {s : Nat × Pattern} (hs : s ∈ c.selection subset) : s.1 < c.size := by
  obtain ⟨i, -, hi⟩ := List.mem_filterMap.mp hs
  obtain ⟨p, hp, rfl⟩ := Option.map_eq_some_iff.mp hi
  exact (List.getElem?_eq_some_iff.mp hp).1

theorem lt_size_of_mem_marking {s : Nat × Box} (hs : s ∈ marking (c.found rows subset)) : s.1 < c.size := by
  obtain ⟨t, ht, hs⟩ := List.mem_flatMap.mp hs
  obtain ⟨p, hp, rfl⟩ := List.mem_map.mp ht
  obtain ⟨b, -, rfl⟩ := List.mem_map.mp hs
  exact lt_size_of_mem_selection hp

/-- The loop over patterns and variants is the loop over all boxes. -/
theorem foldlM_addPattern {t : Tally}
    (hruns : ∀ s ∈ c.selection subset, ∀ v ∈ s.2.variants, v.runsOver rows.length = false) :
    (c.selection subset).foldlM (Tally.addPattern rows) t =
      (marking (c.found rows subset)).foldlM (fun t s => t.add s.1 s.2) t := by
  rw [marking, found, List.flatMap_map, foldlM_flatMap]
  refine foldlM_congr fun t s hs => ?_
  rw [List.foldlM_map]
  exact Tally.addPattern_eq (hruns s hs)

/-- Counting is marking, as long as the counters have room. -/
theorem count_eq_sideCounts (hrows : rows.length ≤ maxCount)
    (hruns : ∀ s ∈ c.selection subset, ∀ v ∈ s.2.variants, v.runsOver rows.length = false)
    (hroom : ∀ color, ∀ m ∈ sideCounts c.size rows (c.found rows subset) color, m ≤ maxCount) :
    c.count rows subset = .ok ⟨sideCounts c.size rows (c.found rows subset) .red,
      sideCounts c.size rows (c.found rows subset) .blue⟩ := by
  have hcounters : ∀ color, ∀ i < c.size,
      (ownedBy color ([] ++ marking (c.found rows subset))).countP (·.1 = i) ≤ maxCount := by
    intro color i hi
    rw [List.nil_append, countP_marking]
    exact hroom color _ (List.mem_append_left _ (List.mem_map_of_mem (List.mem_range.mpr hi)))
  unfold count
  rw [foldlM_addPattern hruns, ← Tally.after_nil, Tally.foldlM_add (fun _ => lt_size_of_mem_marking) hcounters]
  simp only [bind, Except.bind, pure, Except.pure, Tally.counts, Tally.after, List.nil_append, totals_after hrows]

theorem length_count {counts : PatternCounts} (hcount : c.count rows subset = .ok counts) (color : Color) :
    (counts.forColor color).length = c.size + 2 := by
  obtain ⟨t, ht, hcounts⟩ := bind_eq_ok.mp hcount
  obtain rfl := Except.ok.inj hcounts
  have hblank : (Tally.blank c.size rows.length).HasCounters c.size := ⟨List.length_replicate, List.length_replicate⟩
  obtain ⟨hred, hblue⟩ := foldlM_preserves (Tally.HasCounters c.size)
    (fun _ _ _ ht => foldlM_preserves _ (fun _ _ _ ht => ht.addVariant) ht) hblank ht
  cases color <;> simp [Tally.counts, PatternCounts.forColor, Marks.totals, hred, hblue]

end Catalogue
end HexGame
