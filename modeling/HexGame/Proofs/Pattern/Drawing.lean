import HexGame.Pattern.Reader
import HexGame.Proofs.Board.Line
import HexGame.Proofs.Pattern.Fit

/-!
# Patterns as they are drawn

A text of patterns has a plain reading, from its beginning to its end. Headers cut it into patterns, the
parts of a pattern are cut into variants, and the rows of a variant are its cell lines, one code a word
(`drawnPatterns`). A text that is accepted gives the catalogue of this reading, with every row packed
(`parse_eq_ok`). While lines are still to come, the pattern and the variant that are open are what was read
of them, continued by the parts that follow (`Pattern.continued`).
-/
namespace HexGame

/-- A variant as it is written, one list of codes for each of its lines. -/
structure Drawing where
  rows : List (List CellCode)
  excluded : Bool
  deriving DecidableEq, Repr

structure DrawnPattern where
  name : String
  drawings : List Drawing
  deriving DecidableEq, Repr

namespace Drawing

variable {d : Drawing} {row : List CellCode}

def height (d : Drawing) : Nat := d.rows.length

/-- The length of the longest row. -/
def width (d : Drawing) : Nat := d.rows.foldl (fun w row => max w row.length) 0

def pack (d : Drawing) : Variant := ⟨d.rows.map PackedLine.pack, d.excluded⟩

@[simp] theorem pack_lines (d : Drawing) : d.pack.lines = d.rows.map PackedLine.pack := rfl

@[simp] theorem pack_excluded (d : Drawing) : d.pack.excluded = d.excluded := rfl

@[simp] theorem pack_height (d : Drawing) : d.pack.height = d.height := List.length_map _

@[simp] theorem pack_width (d : Drawing) : d.pack.width = d.width := by
  simp [Variant.width, width, List.foldl_map]

private theorem le_foldl_max (rows : List (List CellCode)) (w : Nat) :
    w ≤ rows.foldl (fun w row => max w row.length) w := by
  induction rows generalizing w with
  | nil => exact Nat.le_refl w
  | cons row rows ih => exact Nat.le_trans (Nat.le_max_left w row.length) (ih _)

private theorem length_le_foldl_max {rows : List (List CellCode)} (h : row ∈ rows) (w : Nat) :
    row.length ≤ rows.foldl (fun w row => max w row.length) w := by
  induction rows generalizing w with
  | nil => cases h
  | cons first rows ih =>
    rcases List.mem_cons.mp h with rfl | h
    · exact Nat.le_trans (Nat.le_max_right w row.length) (le_foldl_max rows _)
    · exact ih h _

theorem length_le_width (h : row ∈ d.rows) : row.length ≤ d.width := length_le_foldl_max h 0

/-- There are rows, and each has codes, no more than the largest board has columns. -/
structure Proper (d : Drawing) : Prop where
  rows_ne_nil : d.rows ≠ []
  row_ne_nil : ∀ row ∈ d.rows, row ≠ []
  length_le : ∀ row ∈ d.rows, row.length ≤ maxSize

theorem Proper.height_pos (h : d.Proper) : 0 < d.height := List.length_pos_iff.mpr h.rows_ne_nil

theorem Proper.width_pos (h : d.Proper) : 0 < d.width := by
  obtain ⟨row, hrow⟩ := List.exists_mem_of_ne_nil _ h.rows_ne_nil
  exact Nat.lt_of_lt_of_le (List.length_pos_iff.mpr (h.row_ne_nil row hrow)) (length_le_width hrow)

end Drawing

namespace DrawnPattern

def pack (p : DrawnPattern) : Pattern := ⟨p.name, p.drawings.map Drawing.pack⟩

end DrawnPattern

/-! ## The plain reading -/

namespace PatternPart

/-- The rows of the variant that is open: the cell lines up to the next variant. -/
def rowsOf : List PatternPart → List (List CellCode)
  | [] => []
  | .variant :: _ => []
  | .exclude :: parts => rowsOf parts
  | .cells words :: parts => words.filterMap CellCode.ofWord? :: rowsOf parts

/-- An exclusion comes before the first cell line of the variant that is open. -/
def excludedFirst : List PatternPart → Bool
  | .exclude :: _ => true
  | _ => false

/-- The variants that begin in the parts of a pattern. `excluding` says whether an exclusion came before
them. -/
def drawingsOf (excluding : Bool) : List PatternPart → List Drawing
  | [] => []
  | .variant :: parts => ⟨rowsOf parts, excluding || excludedFirst parts⟩ :: drawingsOf excluding parts
  | .exclude :: parts => drawingsOf true parts
  | .cells _ :: parts => drawingsOf excluding parts

end PatternPart

namespace CatalogueLine

/-- The parts before the first header, and for each header its name with the parts up to the next one. -/
def sections : List CatalogueLine → List PatternPart × List (String × List PatternPart)
  | [] => ([], [])
  | .header name :: lines => ([], (name, (sections lines).1) :: (sections lines).2)
  | .remark :: lines => sections lines
  | .part p :: lines => (p :: (sections lines).1, (sections lines).2)

def drawnPattern (s : String × List PatternPart) : DrawnPattern := ⟨s.1, PatternPart.drawingsOf false s.2⟩

def linesOf (text : String) : List CatalogueLine := (Text.lines text.toList).map ofText

end CatalogueLine

def drawnPatterns (text : String) : List DrawnPattern :=
  (CatalogueLine.sections (CatalogueLine.linesOf text)).2.map CatalogueLine.drawnPattern

/-! ## Reading line by line -/

/-- A variant with its lines in the order of the text. -/
def Variant.inOrder (v : Variant) : Variant := { v with lines := v.lines.reverse }

/-- A variant of which lines were read, with the rows that the following parts add. -/
def Variant.continued (v : Variant) (parts : List PatternPart) : Variant :=
  ⟨v.lines.reverse ++ (PatternPart.rowsOf parts).map PackedLine.pack,
    v.excluded || (v.lines.isEmpty && PatternPart.excludedFirst parts)⟩

namespace Pattern

def inOrder (p : Pattern) : Pattern := ⟨p.name, (p.variants.map Variant.inOrder).reverse⟩

/-- The variants read so far, the last of them with what the following parts add to it. -/
def earlier (p : Pattern) (parts : List PatternPart) : List Variant :=
  match p.variants with
  | [] => []
  | v :: vs => (vs.map Variant.inOrder).reverse ++ [v.continued parts]

/-- A pattern of which variants were read, with all that the following parts add. -/
def continued (excluding : Bool) (p : Pattern) (parts : List PatternPart) : Pattern :=
  ⟨p.name, p.earlier parts ++ (PatternPart.drawingsOf excluding parts).map Drawing.pack⟩

theorem earlier_eq {parts : List PatternPart} (p : Pattern) (hrows : PatternPart.rowsOf parts = [])
    (hfirst : PatternPart.excludedFirst parts = false) :
    p.earlier parts = (p.variants.map Variant.inOrder).reverse := by
  unfold earlier
  cases p.variants with
  | nil => rfl
  | cons v vs => simp [Variant.continued, Variant.inOrder, hrows, hfirst]

theorem continued_nil (excluding : Bool) (p : Pattern) : p.continued excluding [] = p.inOrder := by
  rw [continued, earlier_eq p rfl rfl]
  simp [inOrder, PatternPart.drawingsOf]

end Pattern

theorem readCells_eq_ok {words : List (List Char)} {codes : List CellCode} (h : readCells words = .ok codes) :
    words.mapM CellCode.ofWord? = some codes ∧ codes.length ≤ maxSize := by
  unfold readCells at h
  split at h
  · cases h
  · rename_i cs hcodes
    split at h
    · cases h
    · rename_i hwide
      cases h
      exact ⟨hcodes, Nat.not_lt.mp hwide⟩

theorem map_of_mapM {words : List (List Char)} {codes : List CellCode}
    (h : words.mapM CellCode.ofWord? = some codes) : words.map CellCode.ofWord? = codes.map some := by
  induction words generalizing codes with
  | nil =>
    cases h
    rfl
  | cons word words ih =>
    simp only [List.mapM_cons, bind, pure, Option.bind_eq_some_iff, Option.some.injEq] at h
    obtain ⟨code, hcode, rest, hrest, rfl⟩ := h
    rw [List.map_cons, List.map_cons, hcode, ih hrest]

theorem filterMap_of_mapM {words : List (List Char)} {codes : List CellCode}
    (h : words.mapM CellCode.ofWord? = some codes) : words.filterMap CellCode.ofWord? = codes := by
  have hmap := congrArg (List.filterMap id) (map_of_mapM h)
  simpa [List.filterMap_map] using hmap

namespace Draft

variable {d d' : Draft} {p : Pattern} {ps : List Pattern} {n : Nat} {line : List Char}
  {texts : List (List Char)}

theorem addAll_cons_eq_ok (h : d.addAll n (line :: texts) = .ok d') :
    ∃ d₁, d.add (.ofText line) = .ok d₁ ∧ d₁.addAll (n + 1) texts = .ok d' := by
  unfold addAll at h
  split at h
  · rename_i d₁ hadd
    exact ⟨d₁, hadd, h⟩
  · cases h

theorem finish_eq (d : Draft) : d.finish = (d.patterns.map Pattern.inOrder).reverse := rfl

/-- The following parts are read into the pattern that is open, up to the next header. -/
theorem finish_of_addAll (hp : d.patterns = p :: ps) (h : d.addAll n texts = .ok d') :
    d'.finish = (ps.map Pattern.inOrder).reverse ++
      p.continued d.excluding (CatalogueLine.sections (texts.map .ofText)).1 ::
        (CatalogueLine.sections (texts.map .ofText)).2.map fun s => (CatalogueLine.drawnPattern s).pack := by
  induction texts generalizing d p ps n with
  | nil =>
    cases h
    rw [finish_eq, hp]
    simp [CatalogueLine.sections, Pattern.continued_nil]
  | cons line texts ih =>
    obtain ⟨d₁, hadd, h⟩ := addAll_cons_eq_ok h
    rw [List.map_cons]
    cases hline : CatalogueLine.ofText line with
    | header name =>
      rw [hline] at hadd
      cases hadd
      rw [ih rfl h, CatalogueLine.sections, Pattern.continued_nil]
      simp [hp, Pattern.continued, Pattern.earlier, CatalogueLine.drawnPattern, DrawnPattern.pack]
    | remark =>
      rw [hline] at hadd
      cases hadd
      exact ih hp h
    | part part =>
      simp only [hline, add, hp] at hadd
      simp only [CatalogueLine.sections]
      cases part with
      | variant =>
        cases hadd
        rw [ih rfl h, Pattern.continued, Pattern.continued, Pattern.earlier_eq p rfl rfl]
        simp [Pattern.earlier, Variant.continued, PatternPart.drawingsOf, Drawing.pack]
      | exclude =>
        cases hadd
        rw [ih rfl h]
        cases hvs : p.variants with
        | nil => simp [Pattern.continued, Pattern.earlier, hvs, excludeOpen, PatternPart.drawingsOf]
        | cons v vs =>
          cases hv : v.lines <;>
            simp [Pattern.continued, Pattern.earlier, hvs, excludeOpen, Variant.continued, hv,
              PatternPart.rowsOf, PatternPart.excludedFirst, PatternPart.drawingsOf]
      | cells words =>
        cases hvs : p.variants with
        | nil => simp [addPart, hvs] at hadd
        | cons v vs =>
          simp only [addPart, hvs] at hadd
          obtain ⟨codes, hcodes, hadd⟩ := bind_eq_ok.mp hadd
          cases hadd
          rw [ih rfl h]
          simp [Pattern.continued, Pattern.earlier, hvs, Variant.continued, PatternPart.rowsOf,
            PatternPart.excludedFirst, PatternPart.drawingsOf, filterMap_of_mapM (readCells_eq_ok hcodes).1]

theorem finish_of_addAll_nil (hd : d.patterns = []) (h : d.addAll n texts = .ok d') :
    d'.finish = (CatalogueLine.sections (texts.map .ofText)).2.map fun s =>
      (CatalogueLine.drawnPattern s).pack := by
  induction texts generalizing d n with
  | nil =>
    cases h
    simp [finish, hd, CatalogueLine.sections]
  | cons line texts ih =>
    obtain ⟨d₁, hadd, h⟩ := addAll_cons_eq_ok h
    rw [List.map_cons]
    cases hline : CatalogueLine.ofText line with
    | header name =>
      rw [hline] at hadd
      cases hadd
      rw [finish_of_addAll rfl h]
      simp [hd, CatalogueLine.sections, Pattern.continued, Pattern.earlier, CatalogueLine.drawnPattern,
        DrawnPattern.pack]
    | remark =>
      rw [hline] at hadd
      cases hadd
      exact ih hd h
    | part part => simp [hline, add, hd] at hadd

theorem readCells_of_addAll {words : List (List Char)} (h : d.addAll n texts = .ok d')
    (hwords : .part (.cells words) ∈ texts.map CatalogueLine.ofText) : ∃ codes, readCells words = .ok codes := by
  induction texts generalizing d n with
  | nil => cases hwords
  | cons line texts ih =>
    obtain ⟨d₁, hadd, h⟩ := addAll_cons_eq_ok h
    rcases List.mem_cons.mp hwords with hline | hwords
    · rw [← hline] at hadd
      simp only [add] at hadd
      split at hadd
      · cases hadd
      · simp only [addPart] at hadd
        split at hadd
        · cases hadd
        · obtain ⟨codes, hcodes, -⟩ := bind_eq_ok.mp hadd
          exact ⟨codes, hcodes⟩
    · exact ih h hwords

end Draft

/-! ## Words of a line -/

namespace Text

theorem wordsFrom_ne_nil {started s : List Char} (h : started ≠ [] ∨ ∃ c ∈ s, isBlank c = false) :
    wordsFrom started s ≠ [] := by
  induction s generalizing started with
  | nil =>
    have hstarted : started ≠ [] := by simpa using h
    simp [wordsFrom, hstarted]
  | cons c s ih =>
    unfold wordsFrom
    cases hc : isBlank c with
    | true =>
      by_cases hstarted : started = []
      · subst hstarted
        exact ih (.inr (by simpa [hc] using h))
      · simp [hstarted]
    | false => exact ih (.inl (List.cons_ne_nil c started))

theorem exists_not_isBlank_of_trim {s : List Char} (h : trim s ≠ []) : ∃ c ∈ trim s, isBlank c = false := by
  unfold trim at h ⊢
  rw [ne_eq, List.reverse_eq_nil_iff] at h
  exact ⟨_, List.mem_reverse.mpr (List.head_mem h), List.head_dropWhile_not isBlank h⟩

end Text

theorem CatalogueLine.words_ne_nil {line : List Char} {words : List (List Char)}
    (h : ofText line = .part (.cells words)) : words ≠ [] := by
  have hne : Text.trim line ≠ [] := by
    intro hnil
    simp [ofText, hnil] at h
  obtain ⟨c, hc⟩ := Text.exists_not_isBlank_of_trim hne
  unfold ofText at h
  split at h <;> cases h
  exact Text.wordsFrom_ne_nil (.inr ⟨c, hc⟩)

/-! ## Accepted texts -/

namespace PatternPart

variable {parts : List PatternPart} {row : List CellCode} {d : Drawing} {excluding : Bool}

theorem exists_words_of_mem_rowsOf (h : row ∈ rowsOf parts) :
    ∃ words, .cells words ∈ parts ∧ row = words.filterMap CellCode.ofWord? := by
  induction parts with
  | nil => cases h
  | cons part parts ih =>
    cases part with
    | variant => cases h
    | exclude =>
      obtain ⟨words, hwords, hrow⟩ := ih h
      exact ⟨words, List.mem_cons_of_mem _ hwords, hrow⟩
    | cells words =>
      rcases List.mem_cons.mp h with rfl | h
      · exact ⟨words, List.mem_cons_self, rfl⟩
      · obtain ⟨words, hwords, hrow⟩ := ih h
        exact ⟨words, List.mem_cons_of_mem _ hwords, hrow⟩

theorem exists_words_of_mem_drawingsOf (hd : d ∈ drawingsOf excluding parts) (h : row ∈ d.rows) :
    ∃ words, .cells words ∈ parts ∧ row = words.filterMap CellCode.ofWord? := by
  induction parts generalizing excluding with
  | nil => cases hd
  | cons part parts ih =>
    suffices hrest : ∃ words, .cells words ∈ parts ∧ row = words.filterMap CellCode.ofWord? by
      obtain ⟨words, hwords, hrow⟩ := hrest
      exact ⟨words, List.mem_cons_of_mem _ hwords, hrow⟩
    cases part with
    | variant =>
      rcases List.mem_cons.mp hd with rfl | hd
      · exact exists_words_of_mem_rowsOf h
      · exact ih hd
    | exclude | cells _ => exact ih hd

end PatternPart

theorem CatalogueLine.mem_of_mem_sections {lines : List CatalogueLine} {p : PatternPart} :
    (p ∈ (sections lines).1 → .part p ∈ lines) ∧
      ∀ s ∈ (sections lines).2, p ∈ s.2 → .part p ∈ lines := by
  induction lines with
  | nil => simp [sections]
  | cons line lines ih =>
    obtain ⟨hfirst, hrest⟩ := ih
    cases line with
    | header name =>
      refine ⟨nofun, fun s hs h => List.mem_cons_of_mem _ ?_⟩
      rcases List.mem_cons.mp hs with rfl | hs
      · exact hfirst h
      · exact hrest s hs h
    | remark =>
      exact ⟨fun h => List.mem_cons_of_mem _ (hfirst h),
        fun s hs h => List.mem_cons_of_mem _ (hrest s hs h)⟩
    | part q =>
      refine ⟨fun h => ?_, fun s hs h => List.mem_cons_of_mem _ (hrest s hs h)⟩
      rcases List.mem_cons.mp h with rfl | h
      · exact List.mem_cons_self
      · exact List.mem_cons_of_mem _ (hfirst h)

namespace Catalogue

variable {text : String} {c : Catalogue}

/-- What an accepted text gives is its plain reading, packed, and every drawing in it is proper. -/
theorem parse_eq_ok (h : parse text = .ok c) : c.patterns = (drawnPatterns text).map DrawnPattern.pack ∧
    ∀ p ∈ drawnPatterns text, ∀ d ∈ p.drawings, d.Proper := by
  obtain ⟨draft, hdraft, h⟩ := bind_eq_ok.mp h
  have hpatterns : draft.finish = (drawnPatterns text).map DrawnPattern.pack := by
    rw [Draft.finish_of_addAll_nil rfl hdraft, drawnPatterns, List.map_map]
    rfl
  simp only at h
  split at h
  · cases h
  · rename_i hnone
    cases h
    refine ⟨hpatterns, fun p hp d hd => ?_⟩
    have hcodes {row : List CellCode} (hrow : row ∈ d.rows) :
        ∃ words, words ≠ [] ∧ row.length ≤ maxSize ∧ words.map CellCode.ofWord? = row.map some := by
      obtain ⟨s, hs, rfl⟩ := List.mem_map.mp hp
      obtain ⟨words, hwords, rfl⟩ := PatternPart.exists_words_of_mem_drawingsOf hd hrow
      have hline := CatalogueLine.mem_of_mem_sections.2 s hs hwords
      obtain ⟨line, -, hofText⟩ := List.mem_map.mp hline
      obtain ⟨codes, hread⟩ := Draft.readCells_of_addAll hdraft hline
      obtain ⟨hmapM, hlength⟩ := readCells_eq_ok hread
      rw [filterMap_of_mapM hmapM]
      exact ⟨words, CatalogueLine.words_ne_nil hofText, hlength, map_of_mapM hmapM⟩
    constructor
    case rows_ne_nil =>
      intro hnil
      have hp : p.pack ∈ draft.finish := hpatterns ▸ List.mem_map_of_mem hp
      have hd : d.pack ∈ p.pack.variants := List.mem_map_of_mem hd
      exact List.find?_eq_none.mp hnone _ hp (List.any_eq_true.mpr ⟨_, hd, by simp [hnil]⟩)
    case row_ne_nil =>
      intro row hrow hnil
      obtain ⟨words, hwords, -, hmap⟩ := hcodes hrow
      rw [hnil] at hmap
      exact hwords (List.map_eq_nil_iff.mp hmap)
    case length_le =>
      intro row hrow
      obtain ⟨-, -, hlength, -⟩ := hcodes hrow
      exact hlength

end Catalogue
end HexGame
