import HexGame.Proofs.Pattern.Written

/-!
# The language of catalogues

What a line means is read off its own text (`CatalogueLine.Reads`), and whether it may stand where it does is
decided by the lines before it (`Admitted`, and `Breaks` with the flaw that is reported). The reader knows no
more of these lines than the two things that the rules ask for: whether there was a header, and whether the
pattern that is open has a variant (`Draft.Follows`). So it takes the lines up to the first one that breaks a
rule, and all of them if none does (`Follows.addAll`, `Follows.addAll_error`).
-/
namespace HexGame

namespace CatalogueLine

/-- The meaning of a line, given without blanks at its ends. -/
inductive Reads : List Char → CatalogueLine → Prop where
  | header (name : List Char) :
      Reads ('#' :: '#' :: '#' :: name) (.header (String.ofList (Text.trim name)))
  | blank : Reads [] .remark
  | comment {s : List Char} (h : ∀ name, s ≠ '#' :: '#' :: name) : Reads ('#' :: s) .remark
  | variant : Reads ['-', '-', '-'] (.part .variant)
  | exclude : Reads ['e', 'x', 'c', 'l', 'u', 'd', 'e'] (.part .exclude)
  | cells {s : List Char} (hblank : s ≠ []) (hcomment : ∀ rest, s ≠ '#' :: rest)
      (hvariant : s ≠ ['-', '-', '-']) (hexclude : s ≠ ['e', 'x', 'c', 'l', 'u', 'd', 'e']) :
      Reads s (.part (.cells (Text.words s)))

/-- The words of cell lines. -/
def codeWords : List (List Char) := [['.'], ['*'], ['/'], ['?']]

def HasHeader (before : List CatalogueLine) : Prop := ∃ line ∈ before, line.isHeader = true

/-- A variant was begun in the pattern that is open. -/
def InVariant (before : List CatalogueLine) : Prop :=
  ∃ earlier later, before = earlier ++ .part .variant :: later ∧ HasHeader earlier ∧
    ∀ line ∈ later, line.isHeader = false

/-- A line that may stand after the lines before it. -/
inductive Admitted (before : List CatalogueLine) : CatalogueLine → Prop where
  | header (name : String) : Admitted before (.header name)
  | remark : Admitted before .remark
  | variant (h : HasHeader before) : Admitted before (.part .variant)
  | exclude (h : HasHeader before) : Admitted before (.part .exclude)
  | cells {words : List (List Char)} (h : InVariant before) (hcodes : ∀ word ∈ words, word ∈ codeWords)
      (hlength : words.length ≤ maxSize) : Admitted before (.part (.cells words))

/-- A line that may not, and what is wrong with it. -/
inductive Breaks (before : List CatalogueLine) : CatalogueLine → CatalogueFlaw → Prop where
  | beforeHeader {part : PatternPart} (h : ¬ HasHeader before) : Breaks before (.part part) .contentBeforeHeader
  | beforeVariant {words : List (List Char)} (hheader : HasHeader before) (h : ¬ InVariant before) :
      Breaks before (.part (.cells words)) .cellsBeforeVariant
  | unknownCode {words : List (List Char)} {word : List Char} (h : InVariant before) (hword : word ∈ words)
      (hcode : word ∉ codeWords) : Breaks before (.part (.cells words)) .unknownCode
  | tooWide {words : List (List Char)} (h : InVariant before) (hcodes : ∀ word ∈ words, word ∈ codeWords)
      (hlength : maxSize < words.length) : Breaks before (.part (.cells words)) .lineTooWide

/-- Every line may stand after `before` and the lines in front of it. -/
def Admits (before lines : List CatalogueLine) : Prop :=
  ∀ earlier line later, lines = earlier ++ line :: later → Admitted (before ++ earlier) line

/-- A cell line comes before the next variant or header. -/
def Filled (later : List CatalogueLine) : Prop :=
  ∃ skipped words rest, later = skipped ++ .part (.cells words) :: rest ∧
    ∀ line ∈ skipped, line = .remark ∨ line = .part .exclude

def VariantsFilled (lines : List CatalogueLine) : Prop :=
  ∀ earlier later, lines = earlier ++ .part .variant :: later → Filled later

variable {before lines earlier later : List CatalogueLine} {line : CatalogueLine} {flaw : CatalogueFlaw}

/-! ## Lines and rules -/

theorem reads_ofText (line : List Char) : Reads (Text.trim line) (ofText line) := by
  unfold ofText
  split
  case h_1 name htrim => exact htrim ▸ .header name
  case h_2 htrim => exact htrim ▸ .blank
  case h_3 s hheader htrim => exact htrim ▸ .comment hheader
  case h_4 htrim => exact htrim ▸ .variant
  case h_5 htrim => exact htrim ▸ .exclude
  case h_6 hheader hblank hcomment hvariant hexclude =>
    exact .cells hblank (fun rest hs => hcomment rest hs) hvariant hexclude

theorem isSome_ofWord? {word : List Char} : (CellCode.ofWord? word).isSome = true ↔ word ∈ codeWords := by
  unfold CellCode.ofWord? codeWords
  split <;> simp_all

/-- All words are codes or one is not, and then the line is refused for it. -/
theorem mapM_ofWord? {words : List (List Char)} (h : ∀ word ∈ words, word ∈ codeWords) :
    ∃ codes, words.mapM CellCode.ofWord? = some codes ∧ codes.length = words.length := by
  induction words with
  | nil => exact ⟨[], rfl, rfl⟩
  | cons word words ih =>
    obtain ⟨codes, hcodes, hlength⟩ := ih fun w hw => h w (List.mem_cons_of_mem _ hw)
    obtain ⟨code, hcode⟩ := Option.isSome_iff_exists.mp (isSome_ofWord?.mpr (h word List.mem_cons_self))
    exact ⟨code :: codes, by simp [List.mapM_cons, hcode, hcodes], by simp [hlength]⟩

theorem readCells_unknownCode {words : List (List Char)} {word : List Char} (hword : word ∈ words)
    (hcode : word ∉ codeWords) : readCells words = .error .unknownCode := by
  have hnone : words.mapM CellCode.ofWord? = none := by
    rw [← Option.not_isSome_iff_eq_none]
    intro hsome
    obtain ⟨codes, hcodes⟩ := Option.isSome_iff_exists.mp hsome
    have hmem : CellCode.ofWord? word ∈ codes.map some := map_of_mapM hcodes ▸ List.mem_map_of_mem hword
    obtain ⟨code, -, heq⟩ := List.mem_map.mp hmem
    exact hcode (isSome_ofWord?.mp (heq ▸ rfl))
  rw [readCells, hnone]

theorem readCells_tooWide {words : List (List Char)} (hcodes : ∀ word ∈ words, word ∈ codeWords)
    (hlength : maxSize < words.length) : readCells words = .error .lineTooWide := by
  obtain ⟨codes, hmapM, heq⟩ := mapM_ofWord? hcodes
  simp [readCells, hmapM, heq, hlength]

theorem exists_readCells {words : List (List Char)} (hcodes : ∀ word ∈ words, word ∈ codeWords)
    (hlength : words.length ≤ maxSize) : ∃ codes, readCells words = .ok codes := by
  obtain ⟨codes, hmapM, heq⟩ := mapM_ofWord? hcodes
  exact ⟨codes, by simp [readCells, hmapM, heq, Nat.not_lt.mpr hlength]⟩

theorem InVariant.hasHeader (h : InVariant before) : HasHeader before := by
  obtain ⟨earlier, later, rfl, ⟨line, hline, hheader⟩, -⟩ := h
  exact ⟨line, by simp [hline], hheader⟩

theorem Admitted.hasHeader {part : PatternPart} (h : Admitted before (.part part)) : HasHeader before := by
  cases h with
  | variant h | exclude h => exact h
  | cells h => exact h.hasHeader

theorem admitted_or_breaks (before : List CatalogueLine) (line : CatalogueLine) :
    Admitted before line ∨ ∃ flaw, Breaks before line flaw := by
  cases line with
  | header name => exact .inl (.header name)
  | remark => exact .inl .remark
  | part part =>
    by_cases hheader : HasHeader before
    case neg => exact .inr ⟨_, .beforeHeader hheader⟩
    cases part with
    | variant => exact .inl (.variant hheader)
    | exclude => exact .inl (.exclude hheader)
    | cells words =>
      by_cases hvariant : InVariant before
      case neg => exact .inr ⟨_, .beforeVariant hheader hvariant⟩
      by_cases hcodes : ∀ word ∈ words, word ∈ codeWords
      case neg =>
        simp only [Classical.not_forall] at hcodes
        obtain ⟨word, hword, hcode⟩ := hcodes
        exact .inr ⟨_, .unknownCode hvariant hword hcode⟩
      rcases Nat.lt_or_ge maxSize words.length with hlength | hlength
      · exact .inr ⟨_, .tooWide hvariant hcodes hlength⟩
      · exact .inl (.cells hvariant hcodes hlength)

theorem hasHeader_concat : HasHeader (before ++ [line]) ↔ HasHeader before ∨ line.isHeader = true := by
  simp [HasHeader, or_and_right, exists_or]

theorem inVariant_concat : InVariant (before ++ [line]) ↔
    (line = .part .variant ∧ HasHeader before) ∨ (line.isHeader = false ∧ InVariant before) := by
  constructor
  · rintro ⟨earlier, later, heq, hheader, hlater⟩
    rcases List.eq_nil_or_concat later with rfl | ⟨later, last, rfl⟩
    · obtain ⟨rfl, hline⟩ := List.append_inj' heq rfl
      exact .inl ⟨List.singleton_inj.mp hline, hheader⟩
    · rw [List.concat_eq_append, ← List.cons_append, ← List.append_assoc] at heq
      obtain ⟨rfl, hline⟩ := List.append_inj' heq rfl
      obtain rfl := List.singleton_inj.mp hline
      exact .inr ⟨hlater line (by simp), earlier, later, rfl, hheader, fun l hl => hlater l (by simp [hl])⟩
  · rintro (⟨rfl, hheader⟩ | ⟨hline, earlier, later, rfl, hheader, hlater⟩)
    · exact ⟨before, [], rfl, hheader, nofun⟩
    · refine ⟨earlier, later ++ [line], by simp, hheader, fun l hl => ?_⟩
      rcases List.mem_append.mp hl with hl | hl
      · exact hlater l hl
      · exact List.mem_singleton.mp hl ▸ hline

theorem admits_nil (before : List CatalogueLine) : Admits before [] := by simp [Admits]

theorem admits_cons : Admits before (line :: lines) ↔
    Admitted before line ∧ Admits (before ++ [line]) lines := by
  constructor
  · intro h
    refine ⟨by simpa using h [] line lines rfl, fun earlier l later heq => ?_⟩
    have hl := h (line :: earlier) l later (by rw [heq, List.cons_append])
    rwa [← List.append_cons] 
  · rintro ⟨hline, hlines⟩ earlier l later heq
    cases earlier with
    | nil =>
      obtain ⟨rfl, -⟩ := List.cons.inj heq
      simpa using hline
    | cons first earlier =>
      obtain ⟨rfl, rfl⟩ := List.cons.inj heq
      rw [List.append_cons]
      exact hlines earlier l later rfl

theorem exists_first_break (h : ¬ Admits before lines) : ∃ earlier line later flaw,
    lines = earlier ++ line :: later ∧ Admits before earlier ∧ Breaks (before ++ earlier) line flaw := by
  induction lines generalizing before with
  | nil => exact absurd (admits_nil before) h
  | cons line lines ih =>
    rcases admitted_or_breaks before line with hline | ⟨flaw, hbreaks⟩
    · obtain ⟨earlier, l, later, flaw, rfl, hearlier, hbreaks⟩ := ih fun h' => h (admits_cons.mpr ⟨hline, h'⟩)
      refine ⟨line :: earlier, l, later, flaw, rfl, admits_cons.mpr ⟨hline, hearlier⟩, ?_⟩
      rwa [List.append_cons]
    · exact ⟨[], line, lines, flaw, rfl, admits_nil before, by simpa using hbreaks⟩

end CatalogueLine

/-! ## The reader and the rules -/

namespace Draft

open CatalogueLine

variable {d d' : Draft} {before earlier later : List CatalogueLine} {line : CatalogueLine}
variable {flaw : CatalogueFlaw} {n : Nat} {texts : List (List Char)}

/-- What the rules ask of the lines before is what the draft of these lines shows. -/
structure Follows (d : Draft) (before : List CatalogueLine) : Prop where
  header : d.patterns ≠ [] ↔ HasHeader before
  variant : ∀ p ps, d.patterns = p :: ps → (p.variants ≠ [] ↔ InVariant before)

namespace Follows

theorem empty : Draft.empty.Follows [] := ⟨by simp [Draft.empty, HasHeader], by simp [Draft.empty]⟩

theorem of_cons {p : Pattern} {ps : List Pattern} (hd : d.patterns = p :: ps) (hheader : HasHeader before)
    (hvariant : p.variants ≠ [] ↔ InVariant before) : d.Follows before := by
  refine ⟨by simp [hd, hheader], fun q qs hq => ?_⟩
  obtain ⟨rfl, -⟩ := List.cons.inj (hd.symm.trans hq)
  exact hvariant

theorem exists_pattern (hd : d.Follows before) (h : HasHeader before) : ∃ p ps, d.patterns = p :: ps :=
  List.exists_cons_of_ne_nil (hd.header.mpr h)

theorem add (hd : d.Follows before) (h : Admitted before line) :
    ∃ d', d.add line = .ok d' ∧ d'.Follows (before ++ [line]) := by
  cases h with
  | header name =>
    exact ⟨_, rfl, of_cons rfl (hasHeader_concat.mpr (.inr rfl)) (by simp [inVariant_concat, isHeader])⟩
  | remark =>
    refine ⟨d, rfl, ?_, fun p ps hp => ?_⟩
    · simp [hasHeader_concat, isHeader, hd.header]
    · simp [inVariant_concat, isHeader, ← hd.variant p ps hp]
  | variant h =>
    obtain ⟨p, ps, hp⟩ := hd.exists_pattern h
    exact ⟨_, by simp only [Draft.add, hp]; rfl, of_cons rfl (hasHeader_concat.mpr (.inl h))
      (by simp [inVariant_concat, h])⟩
  | exclude h =>
    obtain ⟨p, ps, hp⟩ := hd.exists_pattern h
    refine ⟨_, by simp only [Draft.add, hp]; rfl, of_cons rfl (hasHeader_concat.mpr (.inl h)) ?_⟩
    rw [inVariant_concat, ← hd.variant p ps hp]
    cases p.variants <;> simp [excludeOpen, isHeader]
  | @cells words h hcodes hlength =>
    obtain ⟨p, ps, hp⟩ := hd.exists_pattern h.hasHeader
    obtain ⟨v, vs, hvs⟩ := List.exists_cons_of_ne_nil ((hd.variant p ps hp).mpr h)
    obtain ⟨codes, hread⟩ := exists_readCells hcodes hlength
    refine ⟨_, by simp only [Draft.add, hp, addPart, hvs, hread]; rfl,
      of_cons rfl (hasHeader_concat.mpr (.inl h.hasHeader)) ?_⟩
    simp [inVariant_concat, isHeader, h]

theorem add_error (hd : d.Follows before) (h : Breaks before line flaw) : d.add line = .error flaw := by
  have hcells {words : List (List Char)} (hvariant : InVariant before) :
      readCells words = .error flaw → d.add (.part (.cells words)) = .error flaw := by
    intro hread
    obtain ⟨p, ps, hp⟩ := hd.exists_pattern hvariant.hasHeader
    obtain ⟨v, vs, hvs⟩ := List.exists_cons_of_ne_nil ((hd.variant p ps hp).mpr hvariant)
    simp only [Draft.add, hp, addPart, hvs, hread]
    rfl
  cases h with
  | beforeHeader h =>
    have hnil : d.patterns = [] := by simpa [h] using hd.header
    simp only [Draft.add, hnil]
  | beforeVariant hheader h =>
    obtain ⟨p, ps, hp⟩ := hd.exists_pattern hheader
    have hnil : p.variants = [] := by simpa [h] using hd.variant p ps hp
    simp only [Draft.add, hp, addPart, hnil]
  | unknownCode h hword hcode => exact hcells h (readCells_unknownCode hword hcode)
  | tooWide h hcodes hlength => exact hcells h (readCells_tooWide hcodes hlength)

end Follows

theorem addAll_append (h : d.addAll n texts = .ok d') (others : List (List Char)) :
    d.addAll n (texts ++ others) = d'.addAll (n + texts.length) others := by
  induction texts generalizing d n with
  | nil =>
    cases h
    rfl
  | cons text texts ih =>
    obtain ⟨d₁, hadd, h⟩ := addAll_cons_eq_ok h
    rw [List.cons_append, addAll, hadd]
    simp only [ih h, List.length_cons, Nat.add_assoc, Nat.add_comm 1]

theorem Follows.addAll (hd : d.Follows before) (h : Admits before (texts.map ofText)) :
    ∃ d', d.addAll n texts = .ok d' ∧ d'.Follows (before ++ texts.map ofText) := by
  induction texts generalizing d before n with
  | nil => exact ⟨d, rfl, by simpa using hd⟩
  | cons text texts ih =>
    obtain ⟨hline, hlines⟩ := admits_cons.mp h
    obtain ⟨d₁, hadd, hd₁⟩ := hd.add hline
    obtain ⟨d', haddAll, hd'⟩ := ih (n := n + 1) hd₁ hlines
    refine ⟨d', ?_, by simpa using hd'⟩
    rw [Draft.addAll, hadd]
    exact haddAll

/-- The first line that breaks a rule is reported with its number. -/
theorem Follows.addAll_error (hd : d.Follows before) (htexts : texts.map ofText = earlier ++ line :: later)
    (h : Admits before earlier) (hline : Breaks (before ++ earlier) line flaw) :
    d.addAll n texts = .error (.catalogueSyntax (n + earlier.length) flaw) := by
  obtain ⟨taken, others, rfl, rfl, hothers⟩ := List.map_eq_append_iff.mp htexts
  obtain ⟨text, rest, rfl, rfl, -⟩ := List.map_eq_cons_iff.mp hothers
  obtain ⟨d', haddAll, hd'⟩ := hd.addAll (n := n) h
  rw [addAll_append haddAll, Draft.addAll, hd'.add_error hline, List.length_map]

end Draft

/-! ## Variants without cells -/

namespace PatternPart

/-- The rows of all variants that begin in the parts. -/
def rowsIn : List PatternPart → List (List (List CellCode))
  | [] => []
  | .variant :: parts => rowsOf parts :: rowsIn parts
  | .exclude :: parts => rowsIn parts
  | .cells _ :: parts => rowsIn parts

theorem map_rows_drawingsOf (excluding : Bool) (parts : List PatternPart) :
    (drawingsOf excluding parts).map Drawing.rows = rowsIn parts := by
  induction parts generalizing excluding with
  | nil => rfl
  | cons part parts ih => cases part <;> simp [drawingsOf, rowsIn, ih]

end PatternPart

namespace CatalogueLine

variable {lines later : List CatalogueLine} {line : CatalogueLine}

theorem filled_cells (words : List (List Char)) (later : List CatalogueLine) :
    Filled (.part (.cells words) :: later) :=
  ⟨[], words, later, rfl, nofun⟩

theorem filled_cons (h : line = .remark ∨ line = .part .exclude) : Filled (line :: later) ↔ Filled later := by
  constructor
  · rintro ⟨skipped, words, rest, heq, hskipped⟩
    cases skipped with
    | nil =>
      obtain ⟨rfl, -⟩ := List.cons.inj heq
      simp at h
    | cons first skipped =>
      obtain ⟨-, rfl⟩ := List.cons.inj heq
      exact ⟨skipped, words, rest, rfl, fun l hl => hskipped l (List.mem_cons_of_mem _ hl)⟩
  · rintro ⟨skipped, words, rest, rfl, hskipped⟩
    refine ⟨line :: skipped, words, rest, rfl, fun l hl => ?_⟩
    rcases List.mem_cons.mp hl with rfl | hl
    · exact h
    · exact hskipped l hl

theorem not_filled (h : line.isHeader = true ∨ line = .part .variant) : ¬ Filled (line :: later) := by
  rintro ⟨skipped, words, rest, heq, hskipped⟩
  cases skipped with
  | nil =>
    obtain ⟨rfl, -⟩ := List.cons.inj heq
    simp [isHeader] at h
  | cons first skipped =>
    obtain ⟨rfl, -⟩ := List.cons.inj heq
    rcases hskipped line List.mem_cons_self with rfl | rfl <;> simp [isHeader] at h

theorem filled_iff : Filled later ↔ [] ≠ PatternPart.rowsOf (sections later).1 := by
  induction later with
  | nil => simp [Filled, sections, PatternPart.rowsOf]
  | cons line later ih =>
    cases line with
    | header name => simp [not_filled, isHeader, sections, PatternPart.rowsOf]
    | remark => rw [filled_cons (.inl rfl), ih, sections]
    | part part =>
      cases part with
      | variant => simp [not_filled, sections, PatternPart.rowsOf]
      | exclude => rw [filled_cons (.inr rfl), ih, sections, PatternPart.rowsOf]
      | cells words => simp [filled_cells, sections, PatternPart.rowsOf]

theorem variantsFilled_cons : VariantsFilled (line :: lines) ↔
    (line = .part .variant → Filled lines) ∧ VariantsFilled lines := by
  constructor
  · intro h
    exact ⟨fun hline => h [] lines (by rw [hline, List.nil_append]),
      fun earlier later heq => h (line :: earlier) later (by rw [heq, List.cons_append])⟩
  · rintro ⟨hline, hlines⟩ earlier later heq
    cases earlier with
    | nil =>
      obtain ⟨rfl, rfl⟩ := List.cons.inj heq
      exact hline rfl
    | cons first earlier =>
      obtain ⟨-, rfl⟩ := List.cons.inj heq
      exact hlines earlier later rfl

theorem variantsFilled_iff : VariantsFilled lines ↔ [] ∉ PatternPart.rowsIn (sections lines).1 ∧
    ∀ s ∈ (sections lines).2, [] ∉ PatternPart.rowsIn s.2 := by
  induction lines with
  | nil => simp [VariantsFilled, sections, PatternPart.rowsIn]
  | cons line lines ih =>
    rw [variantsFilled_cons, ih]
    cases line with
    | header name => simp [sections, PatternPart.rowsIn]
    | remark => simp [sections]
    | part part => cases part <;> simp [sections, filled_iff, PatternPart.rowsIn, and_assoc]

theorem exists_of_mem_sections_fst {part : PatternPart} (h : part ∈ (sections lines).1) :
    ∃ earlier later, lines = earlier ++ .part part :: later ∧ ¬ HasHeader earlier := by
  induction lines with
  | nil => cases h
  | cons line lines ih =>
    have hcons (hline : line.isHeader = false) (h : part ∈ (sections lines).1) :
        ∃ earlier later, line :: lines = earlier ++ .part part :: later ∧ ¬ HasHeader earlier := by
      obtain ⟨earlier, later, rfl, hnone⟩ := ih h
      refine ⟨line :: earlier, later, rfl, ?_⟩
      simpa [HasHeader, hline] using hnone
    cases line with
    | header name => cases h
    | remark => exact hcons rfl h
    | part p =>
      rcases List.mem_cons.mp h with rfl | h
      · exact ⟨[], lines, rfl, by simp [HasHeader]⟩
      · exact hcons rfl h

theorem sections_fst_of_admits (h : Admits [] lines) : (sections lines).1 = [] := by
  rw [List.eq_nil_iff_forall_not_mem]
  intro part hpart
  obtain ⟨earlier, later, heq, hnone⟩ := exists_of_mem_sections_fst hpart
  exact hnone (h earlier _ later heq).hasHeader

end CatalogueLine

/-! ## Accepted and refused texts -/

namespace Catalogue

open CatalogueLine

variable {text : String}

/-- The first pattern with a variant without cells. -/
def firstBare (text : String) : Option DrawnPattern :=
  (drawnPatterns text).find? fun p => p.drawings.any (·.rows.isEmpty)

theorem firstBare_eq_none (h : Admits [] (linesOf text)) :
    firstBare text = none ↔ VariantsFilled (linesOf text) := by
  rw [variantsFilled_iff, sections_fst_of_admits h, firstBare, drawnPatterns, List.find?_eq_none,
    List.forall_mem_map]
  simp [PatternPart.rowsIn, drawnPattern, ← PatternPart.map_rows_drawingsOf false]

/-- Where every line may stand, only variants without cells are left to complain about. -/
theorem parse_of_admits (hadmits : Admits [] (linesOf text)) :
    parse text = match firstBare text with
      | some p => .error (.catalogueSyntax (linesOf text).length (.emptyVariant p.name))
      | none => .ok ⟨(drawnPatterns text).map DrawnPattern.pack⟩ := by
  obtain ⟨d, h, -⟩ := Draft.Follows.empty.addAll (n := 1) hadmits
  have hfinish : d.finish = (drawnPatterns text).map DrawnPattern.pack := by
    rw [Draft.finish_of_addAll_nil rfl h, drawnPatterns, List.map_map]
    rfl
  have hfind : d.finish.find? (·.variants.any (·.lines.isEmpty)) = (firstBare text).map DrawnPattern.pack := by
    rw [hfinish, List.find?_map, firstBare]
    congr 2
    funext p
    simp [DrawnPattern.pack, Function.comp_def]
  simp only [parse, h, bind, Except.bind, hfind]
  cases firstBare text with
  | none => rw [hfinish]; rfl
  | some p => rw [linesOf, List.length_map]; rfl

theorem parse_of_breaks {earlier later : List CatalogueLine} {line : CatalogueLine} {flaw : CatalogueFlaw}
    (hlines : linesOf text = earlier ++ line :: later) (hearlier : Admits [] earlier)
    (hflaw : Breaks earlier line flaw) :
    parse text = .error (.catalogueSyntax (earlier.length + 1) flaw) := by
  have herror := Draft.Follows.empty.addAll_error (n := 1) hlines hearlier hflaw
  rw [Nat.add_comm, parse, herror]
  rfl

/-- A text is accepted exactly when its lines stand where they may and every variant has cells, and its
catalogue keeps it in order. Otherwise the first line that breaks a rule is reported, and the first pattern
with a variant without cells if there is no such line. -/
theorem parse_follows_grammar (text : String) :
    List.Forall₂ Reads ((Text.lines text.toList).map Text.trim) (linesOf text) ∧
    ((∃ c, parse text = .ok c) ↔ Admits [] (linesOf text) ∧ VariantsFilled (linesOf text)) ∧
    (∀ c, parse text = .ok c → c.Written (linesOf text)) ∧
    (∀ earlier line later, linesOf text = earlier ++ line :: later → Admits [] earlier →
      ¬ Admitted earlier line → ∃ flaw, Breaks earlier line flaw ∧
        parse text = .error (.catalogueSyntax (earlier.length + 1) flaw)) ∧
    (Admits [] (linesOf text) → ¬ VariantsFilled (linesOf text) → ∃ p, firstBare text = some p ∧
      parse text = .error (.catalogueSyntax (linesOf text).length (.emptyVariant p.name))) := by
  refine ⟨?_, ⟨?_, ?_⟩, fun c => written_of_parse, ?_, ?_⟩
  · rw [linesOf, List.forall₂_map_left_iff, List.forall₂_map_right_iff, List.forall₂_same]
    exact fun line _ => reads_ofText line
  · rintro ⟨c, hc⟩
    have hadmits : Admits [] (linesOf text) := by
      by_contra hnot
      obtain ⟨earlier, line, later, flaw, hlines, hearlier, hflaw⟩ := exists_first_break hnot
      rw [parse_of_breaks hlines hearlier hflaw] at hc
      cases hc
    refine ⟨hadmits, (firstBare_eq_none hadmits).mp ?_⟩
    rw [parse_of_admits hadmits] at hc
    cases hbare : firstBare text with
    | none => rfl
    | some p => simp [hbare] at hc
  · rintro ⟨hadmits, hfilled⟩
    exact ⟨_, by rw [parse_of_admits hadmits, (firstBare_eq_none hadmits).mpr hfilled]⟩
  · intro earlier line later hlines hearlier hnot
    obtain ⟨flaw, hflaw⟩ := (admitted_or_breaks earlier line).resolve_left hnot
    exact ⟨flaw, hflaw, parse_of_breaks hlines hearlier hflaw⟩
  · intro hadmits hnot
    cases hbare : firstBare text with
    | none => exact absurd ((firstBare_eq_none hadmits).mp hbare) hnot
    | some p => exact ⟨p, rfl, by rw [parse_of_admits hadmits, hbare]⟩

/-- An exclusion before the cells of a variant, and a variant after it. -/
def edgeText : String := "# corners\n### edge\n---\nexclude\n* /\n/\n---\n? *\n"

theorem parse_follows_grammar_edge : ∃ c, parse edgeText = .ok c ∧
    Admits [] (linesOf edgeText) ∧ VariantsFilled (linesOf edgeText) ∧ c.Written (linesOf edgeText) := by
  obtain ⟨-, haccepted, hwritten, -⟩ := parse_follows_grammar edgeText
  have hparse : parse edgeText = .ok ⟨(drawnPatterns edgeText).map DrawnPattern.pack⟩ := by decide +kernel
  obtain ⟨hadmits, hfilled⟩ := haccepted.mp ⟨_, hparse⟩
  exact ⟨_, hparse, hadmits, hfilled, hwritten _ hparse⟩

example : parse "###\n---\n*\n* x\n exclude me\n" = .error (.catalogueSyntax 4 .unknownCode) := by decide +kernel

end Catalogue
end HexGame
