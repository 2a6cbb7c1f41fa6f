import HexGame.Proofs.Pattern.Counting
import HexGame.Proofs.Pattern.Written

/-!
# Exchanging the colours

On a grid with the colours exchanged a template lies for one side exactly where it lay for the other. Red is
tried first, but a template with a stone in it never lies for both sides at one place (`not_agrees_both`), so
nobody is passed over: the boxes of such variants change their owners and nothing else (`boxes_exchange`). Each
of them is marked for the other side (`add_exchange`), and so the counts change places (`count_exchange`).
-/
namespace HexGame

namespace Row

variable {r : Row} {x i : Nat}

/-- The row with every stone in the other colour: the two bits of each cell change places. -/
def exchange (r : Row) : Row :=
  ((r &&& 0x5555555555555555) <<< 1) ||| ((r >>> 1) &&& 0x5555555555555555)

private theorem testBit_evenBits : ∀ i < 64, Nat.testBit 0x5555555555555555 i = decide (i % 2 = 0) := by
  decide

theorem testBit_exchange (hi : i < 64) :
    (exchange r).toNat.testBit i = r.toNat.testBit (if i % 2 = 0 then i + 1 else i - 1) := by
  have hone : (1 : UInt64).toNat % 64 = 1 := rfl
  have hmask : (0x5555555555555555 : UInt64).toNat = 0x5555555555555555 := rfl
  rw [exchange, UInt64.toNat_or, UInt64.toNat_shiftLeft, UInt64.toNat_and, UInt64.toNat_and,
    UInt64.toNat_shiftRight, hone, hmask, Nat.testBit_or, Nat.testBit_mod_two_pow, Nat.testBit_shiftLeft,
    Nat.testBit_and, Nat.testBit_and, Nat.testBit_shiftRight, testBit_evenBits i hi]
  rcases Nat.mod_two_eq_zero_or_one i with h | h
  · have hprevious : 1 ≤ i → ¬ (i - 1) % 2 = 0 := by omega
    by_cases hpos : 1 ≤ i
    · simp [testBit_evenBits (i - 1) (by omega), h, hprevious hpos, Nat.add_comm]
    · simp [hpos, h, Nat.add_comm]
  · have hpos : 1 ≤ i := by omega
    have hprevious : (i - 1) % 2 = 0 := by omega
    simp [testBit_evenBits (i - 1) (by omega), h, hi, hpos, hprevious]

theorem code_eq_iff {n : UInt64} (hn : n.toNat < 4) (hx : x < maxSize) : code r x = n ↔
    r.toNat.testBit (2 * x) = n.toNat.testBit 0 ∧ r.toNat.testBit (2 * x + 1) = n.toNat.testBit 1 := by
  rw [← UInt64.toNat_inj]
  constructor
  · intro h
    rw [← h, testBit_code hx, testBit_code hx]
    simp
  · rintro ⟨hlow, hhigh⟩
    apply Nat.eq_of_testBit_eq
    intro i
    rw [testBit_code hx]
    match i with
    | 0 => simpa using hlow
    | 1 => simpa using hhigh
    | i + 2 =>
      have hfour : 4 ≤ 2 ^ (i + 2) := Nat.pow_le_pow_right Nat.two_pos (Nat.le_add_left 2 i)
      simp [Nat.testBit_lt_two_pow (Nat.lt_of_lt_of_le hn hfour)]

theorem code_exchange_eq_iff {n m : UInt64} (hn : n.toNat < 4) (hm : m.toNat < 4)
    (hlow : m.toNat.testBit 0 = n.toNat.testBit 1) (hhigh : m.toNat.testBit 1 = n.toNat.testBit 0)
    (hx : x < maxSize) : code (exchange r) x = n ↔ code r x = m := by
  have hx' : x < 32 := hx
  rw [code_eq_iff hn hx, code_eq_iff hm hx, testBit_exchange (by omega), testBit_exchange (by omega), hlow, hhigh,
    if_pos (by omega), if_neg (by omega), Nat.add_sub_cancel, and_comm]

theorem code_exchange_eq_zero_iff (hx : x < maxSize) : code (exchange r) x = 0 ↔ code r x = 0 :=
  code_exchange_eq_iff (by decide) (by decide) rfl rfl hx

theorem code_exchange_eq_code_iff (k : Color) (hx : x < maxSize) :
    code (exchange r) x = k.code ↔ code r x = k.opponent.code := by
  cases k <;> exact code_exchange_eq_iff (by decide) (by decide) rfl rfl hx

end Row

namespace CellCode

variable {owner : Color} {code : CellCode} {r : Row} {x : Nat} {n : UInt64}

theorem admits_exchange_iff (hx : x < maxSize) :
    code.Admits owner (Row.code r.exchange x) ↔ code.Admits owner.opponent (Row.code r x) := by
  cases code with
  | empty => exact Row.code_exchange_eq_zero_iff hx
  | own => exact Row.code_exchange_eq_code_iff owner hx
  | opponent => exact Row.code_exchange_eq_code_iff owner.opponent hx
  | any => exact Iff.rfl

/-- The code asks for a stone. -/
def IsStone (code : CellCode) : Prop := code = own ∨ code = opponent

instance (code : CellCode) : Decidable code.IsStone := inferInstanceAs (Decidable (_ ∨ _))

theorem IsStone.not_admits_both (h : code.IsStone) (hred : code.Admits .red n) : ¬ code.Admits .blue n := by
  rcases h with rfl | rfl
  · intro hblue
    exact absurd (hred.symm.trans hblue) (by decide)
  · intro hblue
    exact absurd (hred.symm.trans hblue) (by decide)

end CellCode

namespace Drawing

variable {d : Drawing} {owner : Color} {grid : List Row} {x y : Nat}

/-- One cell at least of the drawing is a stone. -/
def HasStone (d : Drawing) : Prop := ∃ row ∈ d.rows, ∃ code ∈ row, code.IsStone

theorem cellCode_exchange (grid : List Row) (x y : Nat) :
    cellCode (grid.map Row.exchange) x y = Row.code ((grid[y]?.getD 0).exchange) x := by
  rw [cellCode, List.getElem?_map]
  cases grid[y]? <;> rfl

theorem agrees_exchange_iff (hgrid : grid.length ≤ maxSize) (hin : d.Inside grid x y) :
    d.Agrees owner (grid.map Row.exchange) x y ↔ d.Agrees owner.opponent grid x y := by
  refine forall₂_congr fun j hj => forall₂_congr fun k hk => ?_
  have hrow : d.rows[j].length ≤ d.width := length_le_width (List.getElem_mem hj)
  have hwidth := hin.1
  rw [cellCode_exchange]
  exact CellCode.admits_exchange_iff (by omega)

theorem not_agrees_both (hd : d.HasStone) (hred : d.Agrees .red grid x y) : ¬ d.Agrees .blue grid x y := by
  obtain ⟨row, hrow, code, hcode, hstone⟩ := hd
  obtain ⟨j, hj, rfl⟩ := List.mem_iff_getElem.mp hrow
  obtain ⟨k, hk, rfl⟩ := List.mem_iff_getElem.mp hcode
  exact fun hblue => hstone.not_admits_both (hred j hj k hk) (hblue j hj k hk)

/-- Where a drawing with a stone lies it lies for one side only, so it does not matter which is tried first. -/
theorem ownerAt_eq_some_iff (hd : d.HasStone) (hgrid : grid.length ≤ maxSize) (hin : d.Inside grid x y) :
    d.pack.ownerAt (grid.drop y) x = some owner ↔ d.Agrees owner grid x y := by
  rw [ownerAt_eq_some hgrid hin]
  refine and_iff_left_of_imp fun h hblue hred => not_agrees_both hd hred ?_
  rwa [hblue] at h

theorem ownerAt_exchange (hd : d.HasStone) (hgrid : grid.length ≤ maxSize) (hin : d.Inside grid x y) :
    d.pack.ownerAt ((grid.map Row.exchange).drop y) x = (d.pack.ownerAt (grid.drop y) x).map Color.opponent := by
  refine Option.ext fun owner => ?_
  have hgrid' : (grid.map Row.exchange).length ≤ maxSize := by rwa [List.length_map]
  have hin' : d.Inside (grid.map Row.exchange) x y := by rwa [Inside, List.length_map]
  rw [ownerAt_eq_some_iff hd hgrid' hin', agrees_exchange_iff hgrid hin, Option.map_eq_some_iff]
  constructor
  · intro h
    exact ⟨owner.opponent, (ownerAt_eq_some_iff hd hgrid hin).mpr h, Color.opponent_opponent owner⟩
  · rintro ⟨side, hside, rfl⟩
    rw [Color.opponent_opponent]
    exact (ownerAt_eq_some_iff hd hgrid hin).mp hside

end Drawing

/-- One cell at least of the variant is a stone. -/
def Variant.HasStone (v : Variant) : Prop := ∃ l ∈ v.lines, ∃ x < l.width, (l.codeAt x).IsStone

instance (v : Variant) : Decidable v.HasStone := by
  unfold Variant.HasStone
  infer_instance

theorem Drawing.Proper.hasStone {d : Drawing} (h : d.Proper) (hstone : d.pack.HasStone) : d.HasStone := by
  obtain ⟨line, hline, x, hx, hcode⟩ := hstone
  rw [Drawing.pack_lines] at hline
  obtain ⟨row, hrow, rfl⟩ := List.mem_map.mp hline
  rw [PackedLine.pack_width] at hx
  have hlength := h.length_le row hrow
  rw [PackedLine.codeAt_pack hlength (Nat.lt_of_lt_of_le hx hlength), List.getElem?_eq_getElem hx,
    Option.getD_some] at hcode
  exact ⟨row, hrow, _, List.getElem_mem hx, hcode⟩

/-! ## Boxes -/

/-- The box in the hands of the other side. -/
def Box.exchange (b : Box) : Box := { b with owner := b.owner.opponent }

theorem Drawing.boxes_exchange {d : Drawing} {grid : List Row} (hd : d.HasStone) (hgrid : grid.length ≤ maxSize) :
    d.pack.boxes (grid.map Row.exchange) = (d.pack.boxes grid).map Box.exchange := by
  unfold Variant.boxes
  dsimp only
  rw [List.length_map]
  split
  · rfl
  · rename_i hfits
    rw [List.map_flatMap]
    refine List.flatMap_congr fun y hy => ?_
    rw [List.map_filterMap]
    refine List.filterMap_congr fun x hx => ?_
    have hin : d.Inside grid x y := by
      rw [List.mem_range] at hx hy
      simp only [Drawing.pack_width, Drawing.pack_height] at hx hy hfits
      constructor <;> omega
    rw [ownerAt_exchange hd hgrid hin, Option.map_map, Option.map_map]
    rfl

/-! ## Counts -/

/-- The counts of the two sides change places. -/
def PatternCounts.exchange (n : PatternCounts) : PatternCounts := ⟨n.blue, n.red⟩

namespace Tally

variable {t : Tally} {rows : List Row} {i : Nat}

/-- The marks of the two sides change places. -/
def exchange (t : Tally) : Tally := ⟨t.blue, t.red⟩

theorem add_exchange (t : Tally) (b : Box) : t.exchange.add i b.exchange = (t.add i b).map exchange := by
  have hmarks (m : Marks) : m.add i b.exchange = m.add i b := rfl
  have howner : b.exchange.owner = b.owner.opponent := rfl
  unfold add
  rw [howner]
  cases b.owner
  · change t.red.add i b.exchange >>= _ = _
    rw [hmarks]
    cases t.red.add i b <;> rfl
  · change t.blue.add i b.exchange >>= _ = _
    rw [hmarks]
    cases t.blue.add i b <;> rfl

theorem addVariant_exchange {v : Variant} (hboxes : v.boxes (rows.map Row.exchange) = (v.boxes rows).map Box.exchange)
    (t : Tally) : t.exchange.addVariant (rows.map Row.exchange) i v = (t.addVariant rows i v).map exchange := by
  unfold addVariant
  rw [List.length_map, hboxes, List.foldlM_map]
  split
  · rfl
  · exact foldlM_hom exchange fun t b _ => t.add_exchange b

end Tally

namespace Catalogue

variable {c : Catalogue} {rows : List Row} {subset : Option (List Nat)}

/-- With a stone in every variant the exchange of the colours exchanges what is counted, and it is counted on
both grids or on none. -/
theorem count_exchange {text : String} (hparse : parse text = .ok c)
    (hstones : ∀ p ∈ c.patterns, ∀ v ∈ p.variants, v.HasStone) (hrows : rows.length ≤ maxSize) :
    c.count (rows.map Row.exchange) subset = (c.count rows subset).map PatternCounts.exchange := by
  obtain ⟨hpatterns, hproper⟩ := parse_eq_ok hparse
  have hboxes : ∀ s ∈ c.selection subset, ∀ v ∈ s.2.variants,
      v.boxes (rows.map Row.exchange) = (v.boxes rows).map Box.exchange := by
    intro s hs v hv
    have hp := List.mem_of_getElem? (mem_selection.mp hs).2
    have hstone := hstones _ hp v hv
    rw [hpatterns] at hp
    obtain ⟨drawn, hdrawn, hp⟩ := List.mem_map.mp hp
    rw [← hp] at hv
    obtain ⟨d, hd, rfl⟩ := List.mem_map.mp hv
    exact Drawing.boxes_exchange ((hproper drawn hdrawn d hd).hasStone hstone) hrows
  have hloop : (c.selection subset).foldlM (Tally.addPattern (rows.map Row.exchange)) (.blank c.size rows.length) =
      ((c.selection subset).foldlM (Tally.addPattern rows) (.blank c.size rows.length)).map Tally.exchange := by
    refine foldlM_hom (s := Tally.blank c.size rows.length) Tally.exchange fun t s hs => ?_
    exact foldlM_hom Tally.exchange fun t v hv => t.addVariant_exchange (hboxes s hs v hv)
  unfold count
  rw [List.length_map, hloop]
  cases (c.selection subset).foldlM (Tally.addPattern rows) (.blank c.size rows.length) <;> rfl

theorem count_exchange_hook : parse hookText = .ok hookCatalogue ∧
    (∀ p ∈ hookCatalogue.patterns, ∀ v ∈ p.variants, v.HasStone) ∧ [33, 0, 18].length ≤ maxSize ∧
    hookCatalogue.count ([33, 0, 18].map Row.exchange) (some [0]) = .ok ⟨[2, 0, 0, 0], [3, 0, 2, 3]⟩ := by
  have hparse : parse hookText = .ok hookCatalogue := by decide +kernel
  have hstones : ∀ p ∈ hookCatalogue.patterns, ∀ v ∈ p.variants, v.HasStone := by decide +kernel
  have hrows : [33, 0, 18].length ≤ maxSize := by decide
  exact ⟨hparse, hstones, hrows, (count_exchange hparse hstones hrows).trans (by decide +kernel)⟩

end Catalogue
end HexGame
