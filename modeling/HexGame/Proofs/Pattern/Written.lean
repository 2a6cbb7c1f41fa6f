import Mathlib.Data.List.Forall2
import HexGame.Proofs.Pattern.Drawing

/-!
# What a catalogue keeps of its text

Patterns, variants and lines stand in a catalogue in the order of the text. A header owns the lines up to the
next one, and the n-th header gives the n-th pattern; in the same way the n-th variant of a pattern owns the
parts up to the next one. The lines of a variant are its cell lines, packed, and from the packed lines the
codes are read back (`codeAt_pack`). All this is read off the plain reading of the text, which an accepted
text gives (`written_of_parse`).
-/
namespace HexGame

namespace PatternPart

def words? : PatternPart → Option (List (List Char))
  | .cells words => some words
  | _ => none

/-- The cell lines among the parts, each with its words. -/
def cellLines (parts : List PatternPart) : List (List (List Char)) := parts.filterMap words?

end PatternPart

namespace CatalogueLine

def isHeader : CatalogueLine → Bool
  | .header _ => true
  | _ => false

def part? : CatalogueLine → Option PatternPart
  | .part p => some p
  | _ => none

end CatalogueLine

/-- The variant that the parts `own` give, up to the next variant, after the parts `before` of the same
pattern. Shorter lines count as filled up with codes for any cell. -/
structure Variant.Written (v : Variant) (before own : List PatternPart) : Prop where
  height_eq : v.height = (PatternPart.cellLines own).length
  longest : ((PatternPart.cellLines own).map List.length).max? = some v.width
  lines : List.Forall₂ (fun l words => (List.range v.width).map (fun x => some (l.codeAt x)) =
    words.map CellCode.ofWord? ++ List.replicate (v.width - words.length) (some .any))
    v.lines (PatternPart.cellLines own)
  excluded : v.excluded = true ↔ .exclude ∈ before ++ own.takeWhile (·.words?.isNone)

/-- The pattern with this name and these parts. -/
structure Pattern.Written (p : Pattern) (name : String) (parts : List PatternPart) : Prop where
  name_eq : p.name = name
  length_variants : p.variants.length = parts.count .variant
  variants : ∀ before own after, parts = before ++ .variant :: (own ++ after) → .variant ∉ own →
    (∀ part ∈ after.head?, part = .variant) →
    ∃ v, p.variants[before.count .variant]? = some v ∧ v.Written before own

/-- The catalogue of a text with these lines. -/
structure Catalogue.Written (c : Catalogue) (lines : List CatalogueLine) : Prop where
  size_eq : c.size = lines.countP CatalogueLine.isHeader
  patterns : ∀ before name own after, lines = before ++ .header name :: (own ++ after) →
    (∀ line ∈ own, line.isHeader = false) → (∀ line ∈ after.head?, line.isHeader = true) →
    ∃ p, c.patterns[before.countP CatalogueLine.isHeader]? = some p ∧
      p.Written name (own.filterMap CatalogueLine.part?)

/-! ## Reading a packed line back -/

namespace PackedLine

variable {codes : List CellCode} {z n : Nat}

theorem codeAt_pack (hlen : codes.length ≤ maxSize) (hz : z < maxSize) :
    (pack codes).codeAt z = codes[z]?.getD .any := by
  have hlen' : 0 + codes.length ≤ maxSize := by omega
  have hmask := code_word CellCode.bits_lt rfl hlen' hz
  have hred := code_word (CellCode.valueFor_lt .red) rfl hlen' hz
  have hvalue := packFrom_valueFor .red 0 codes
  rw [valueFor] at hvalue
  rw [codeAt, pack, packFrom_mask, hvalue, hmask, hred]
  simp only [Nat.not_lt_zero, if_false, Nat.sub_zero]
  cases codes[z]?.getD .any <;> decide

theorem map_codeAt_pack (hlen : codes.length ≤ n) (hn : n ≤ maxSize) :
    (List.range n).map (pack codes).codeAt = codes ++ List.replicate (n - codes.length) .any := by
  apply List.ext_getElem
  · simp
    omega
  · intro z hz _
    simp only [List.length_map, List.length_range] at hz
    rw [List.getElem_map, List.getElem_range, codeAt_pack (by omega) (by omega)]
    by_cases h : z < codes.length
    · rw [List.getElem_append_left h, List.getElem?_eq_getElem h, Option.getD_some]
    · rw [List.getElem_append_right (by omega), List.getElem_replicate, List.getElem?_eq_none (by omega),
        Option.getD_none]

end PackedLine

theorem Drawing.max?_length {d : Drawing} (h : d.rows ≠ []) : (d.rows.map List.length).max? = some d.width := by
  cases hrows : d.rows with
  | nil => exact absurd hrows h
  | cons row rows =>
    rw [List.map_cons, List.max?_cons', List.foldl_map]
    simp [width, hrows]

/-! ## The sections of a text -/

namespace CatalogueLine

variable {lines own after : List CatalogueLine}

theorem length_sections (lines : List CatalogueLine) : (sections lines).2.length = lines.countP isHeader := by
  induction lines with
  | nil => rfl
  | cons line lines ih => cases line <;> simp [sections, List.countP_cons, isHeader, ih]

theorem sections_fst_append (hown : ∀ line ∈ own, line.isHeader = false)
    (hafter : ∀ line ∈ after.head?, line.isHeader = true) :
    (sections (own ++ after)).1 = own.filterMap part? := by
  induction own with
  | nil =>
    cases after with
    | nil => rfl
    | cons line after => cases line <;> simp [isHeader, sections] at hafter ⊢
  | cons line own ih =>
    have hown' := ih fun l hl => hown l (List.mem_cons_of_mem _ hl)
    cases line with
    | header name => simp [isHeader] at hown
    | remark => simpa [sections, List.filterMap_cons, part?] using hown'
    | part p => simpa [sections, List.filterMap_cons, part?] using hown'

theorem getElem?_sections (before : List CatalogueLine) (name : String)
    (hown : ∀ line ∈ own, line.isHeader = false)
    (hafter : ∀ line ∈ after.head?, line.isHeader = true) :
    (sections (before ++ .header name :: (own ++ after))).2[before.countP isHeader]? =
      some (name, own.filterMap part?) := by
  induction before with
  | nil => simp [sections, sections_fst_append hown hafter]
  | cons line before ih => cases line <;> simpa [sections, List.countP_cons, isHeader] using ih

end CatalogueLine

/-! ## The drawings of a pattern -/

namespace PatternPart

variable {own after : List PatternPart}

theorem length_drawingsOf (excluding : Bool) (parts : List PatternPart) :
    (drawingsOf excluding parts).length = parts.count .variant := by
  induction parts generalizing excluding with
  | nil => rfl
  | cons part parts ih => cases part <;> simp [drawingsOf, ih]

theorem rowsOf_append (hown : .variant ∉ own) (hafter : ∀ part ∈ after.head?, part = .variant) :
    rowsOf (own ++ after) = (cellLines own).map fun words => words.filterMap CellCode.ofWord? := by
  induction own with
  | nil =>
    cases after with
    | nil => rfl
    | cons part after =>
      obtain rfl : part = .variant := hafter part rfl
      rfl
  | cons part own ih =>
    have hown' := ih fun h => hown (List.mem_cons_of_mem _ h)
    cases part with
    | variant => simp at hown
    | exclude => simpa [rowsOf, cellLines, List.filterMap_cons, words?] using hown'
    | cells words => simpa [rowsOf, cellLines, List.filterMap_cons, words?] using hown'

/-- Before the first cell line of a variant there are only exclusions. -/
theorem excludedFirst_append (hown : .variant ∉ own) (hafter : ∀ part ∈ after.head?, part = .variant) :
    excludedFirst (own ++ after) = decide (.exclude ∈ own.takeWhile (·.words?.isNone)) := by
  cases own with
  | nil =>
    cases after with
    | nil => rfl
    | cons part after =>
      obtain rfl : part = .variant := hafter part rfl
      rfl
  | cons part own =>
    cases part with
    | variant => simp at hown
    | exclude => simp [excludedFirst, words?]
    | cells words => simp [excludedFirst, words?]

theorem getElem?_drawingsOf (excluding : Bool) (before : List PatternPart) (hown : .variant ∉ own)
    (hafter : ∀ part ∈ after.head?, part = .variant) :
    (drawingsOf excluding (before ++ .variant :: (own ++ after)))[before.count .variant]? =
      some ⟨(cellLines own).map fun words => words.filterMap CellCode.ofWord?,
        excluding || decide (.exclude ∈ before ++ own.takeWhile (·.words?.isNone))⟩ := by
  induction before generalizing excluding with
  | nil => simp [drawingsOf, rowsOf_append hown hafter, excludedFirst_append hown hafter]
  | cons part before ih =>
    cases part with
    | variant => simpa [drawingsOf] using ih excluding
    | exclude => simpa [drawingsOf] using ih true
    | cells words => simpa [drawingsOf] using ih excluding

end PatternPart

/-! ## Accepted texts -/

theorem readCells_filterMap {words : List (List Char)} {codes : List CellCode}
    (h : readCells words = .ok codes) :
    words.map CellCode.ofWord? = (words.filterMap CellCode.ofWord?).map some ∧
      words.length = (words.filterMap CellCode.ofWord?).length ∧ words.length ≤ maxSize := by
  obtain ⟨hmapM, hle⟩ := readCells_eq_ok h
  have hmap := map_of_mapM hmapM
  have hlength := congrArg List.length hmap
  simp only [List.length_map] at hlength
  rw [filterMap_of_mapM hmapM]
  exact ⟨hmap, hlength, hlength ▸ hle⟩

/-- A drawing whose rows are the cell lines of its own parts, read without a flaw, is what they give. -/
theorem Drawing.written {d : Drawing} {before own : List PatternPart} (hne : d.rows ≠ [])
    (hrows : d.rows = (PatternPart.cellLines own).map fun words => words.filterMap CellCode.ofWord?)
    (hexcluded : d.excluded = decide (.exclude ∈ before ++ own.takeWhile (·.words?.isNone)))
    (hread : ∀ words ∈ PatternPart.cellLines own, ∃ codes, readCells words = .ok codes) :
    d.pack.Written before own := by
  have hlongest : ((PatternPart.cellLines own).map List.length).max? = some d.width := by
    rw [← max?_length hne, hrows, List.map_map]
    congr 1
    refine List.map_congr_left fun words hwords => ?_
    obtain ⟨codes, hcodes⟩ := hread words hwords
    exact (readCells_filterMap hcodes).2.1
  have hwidth : d.width ≤ maxSize := by
    obtain ⟨words, hwords, hlength⟩ := List.mem_map.mp (List.max?_mem hlongest)
    obtain ⟨codes, hcodes⟩ := hread words hwords
    exact hlength ▸ (readCells_filterMap hcodes).2.2
  refine ⟨?_, ?_, ?_, ?_⟩
  · rw [pack_height, height, hrows, List.length_map]
  · rw [pack_width, hlongest]
  · rw [pack_lines, hrows, List.map_map, List.forall₂_map_left_iff, List.forall₂_same]
    intro words hwords
    obtain ⟨codes, hcodes⟩ := hread words hwords
    obtain ⟨hmap, hlength, -⟩ := readCells_filterMap hcodes
    have hle : (words.filterMap CellCode.ofWord?).length ≤ d.width :=
      length_le_width (hrows ▸ List.mem_map_of_mem hwords)
    rw [Function.comp_apply, pack_width, hmap, hlength, ← Function.comp_def some, ← List.map_map,
      PackedLine.map_codeAt_pack hle hwidth, List.map_append, List.map_replicate]
  · rw [pack_excluded, hexcluded, decide_eq_true_eq]

theorem DrawnPattern.written {name : String} {parts : List PatternPart}
    (hproper : ∀ d ∈ PatternPart.drawingsOf false parts, d.Proper)
    (hread : ∀ words, .cells words ∈ parts → ∃ codes, readCells words = .ok codes) :
    (CatalogueLine.drawnPattern (name, parts)).pack.Written name parts := by
  refine ⟨rfl, by simp [pack, CatalogueLine.drawnPattern, PatternPart.length_drawingsOf], ?_⟩
  rintro before own after rfl hown hafter
  have hdrawing := PatternPart.getElem?_drawingsOf false before hown hafter
  refine ⟨_, by rw [pack, CatalogueLine.drawnPattern, List.getElem?_map, hdrawing, Option.map_some], ?_⟩
  refine Drawing.written (hproper _ (List.mem_of_getElem? hdrawing)).rows_ne_nil rfl (Bool.false_or _) ?_
  intro words hwords
  obtain ⟨part, hpart, hpart'⟩ := List.mem_filterMap.mp hwords
  cases part with
  | variant | exclude => cases hpart'
  | cells _ =>
    cases hpart'
    exact hread words (by simp [hpart])

namespace Catalogue

variable {text : String} {c : Catalogue}

theorem readCells_of_parse {words : List (List Char)} (h : parse text = .ok c)
    (hwords : .part (.cells words) ∈ CatalogueLine.linesOf text) : ∃ codes, readCells words = .ok codes := by
  obtain ⟨draft, hdraft, -⟩ := bind_eq_ok.mp h
  exact Draft.readCells_of_addAll hdraft hwords

theorem written_of_parse (h : parse text = .ok c) : c.Written (CatalogueLine.linesOf text) := by
  obtain ⟨hpatterns, hproper⟩ := parse_eq_ok h
  constructor
  case size_eq =>
    rw [size, hpatterns, drawnPatterns, List.length_map, List.length_map, CatalogueLine.length_sections]
  intro before name own after hlines hown hafter
  have hsection := CatalogueLine.getElem?_sections before name hown hafter
  have hdrawn : (drawnPatterns text)[before.countP CatalogueLine.isHeader]? =
      some (CatalogueLine.drawnPattern (name, own.filterMap CatalogueLine.part?)) := by
    rw [drawnPatterns, List.getElem?_map, hlines, hsection, Option.map_some]
  refine ⟨_, by rw [hpatterns, List.getElem?_map, hdrawn, Option.map_some], ?_⟩
  refine DrawnPattern.written (hproper _ (List.mem_of_getElem? hdrawn)) fun words hwords => ?_
  obtain ⟨line, hline, hpart⟩ := List.mem_filterMap.mp hwords
  cases line with
  | header _ | remark => cases hpart
  | part _ =>
    cases hpart
    exact readCells_of_parse h (by rw [hlines]; simp [hline])

end Catalogue
end HexGame
