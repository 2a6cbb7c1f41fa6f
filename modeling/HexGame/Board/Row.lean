import HexGame.Color

/-!
# Packed rows

A row of cells is one word with two bits for each cell. The pattern matcher compares whole rows at
once, so the codes are part of the interface. `code_put` says that writing one cell leaves every
other cell alone.
-/
namespace HexGame

/-- The largest board, by the width of a word. -/
def maxSize : Nat := 32

namespace Color

def code : Color → UInt64
  | red => 1
  | blue => 2

/-- The stone that a two-bit code stands for; the fourth code stands for none. -/
def ofCode? (n : UInt64) : Option Color :=
  if n = 1 then some red else if n = 2 then some blue else none

@[simp] theorem ofCode?_code (c : Color) : ofCode? c.code = some c := by cases c <;> rfl

end Color

/-- Cell `x` of a row sits at the bits `2 * x` and `2 * x + 1`. -/
abbrev Row := UInt64

namespace Row

/-- The two bits of cell `x`, for `x` below 32. -/
def code (r : Row) (x : Nat) : UInt64 := (r >>> (2 * x).toUInt64) &&& 3

/-- The codes of the first `n` cells, one after another while the row is shifted out of its word. -/
def scan : Nat → Row → List UInt64
  | 0, _ => []
  | n + 1, r => (r &&& 3) :: scan n (r >>> 2)

/-- Writes a stone on an empty cell. -/
def put (r : Row) (x : Nat) (c : Color) : Row := r ||| (c.code <<< (2 * x).toUInt64)

/-- Every cell is empty, red or blue, and nothing lies beyond the width. -/
def Clean (width : Nat) (r : Row) : Prop :=
  ∀ x < maxSize, code r x ≠ 3 ∧ (width ≤ x → code r x = 0)

theorem toNat_shift {x : Nat} (hx : x < maxSize) :
    (2 * x).toUInt64.toNat % 64 = 2 * x := by
  have : x < 32 := hx
  simp
  omega

theorem toNat_code {r : Row} {x : Nat} (hx : x < maxSize) :
    (code r x).toNat = (r.toNat >>> (2 * x)) &&& 3 := by
  rw [code, UInt64.toNat_and, UInt64.toNat_shiftRight, toNat_shift hx]
  rfl

theorem testBit_code {r : Row} {x i : Nat} (hx : x < maxSize) :
    (code r x).toNat.testBit i = (decide (i < 2) && r.toNat.testBit (2 * x + i)) := by
  rw [toNat_code hx, Nat.testBit_and, Nat.testBit_shiftRight, show (3 : Nat) = 2 ^ 2 - 1 from rfl,
    Nat.testBit_two_pow_sub_one, Bool.and_comm]

private theorem testBit_put {r : Row} {x i : Nat} {c : Color} (hx : x < maxSize) (hi : i < 64) :
    (put r x c).toNat.testBit i =
      (r.toNat.testBit i || (decide (2 * x ≤ i) && c.code.toNat.testBit (i - 2 * x))) := by
  rw [put, UInt64.toNat_or, UInt64.toNat_shiftLeft, toNat_shift hx, Nat.testBit_or,
    Nat.testBit_mod_two_pow, Nat.testBit_shiftLeft]
  simp [hi]

private theorem testBit_color {c : Color} {i : Nat} (hi : 2 ≤ i) :
    c.code.toNat.testBit i = false := by
  apply Nat.testBit_lt_two_pow
  have h4 : 2 ^ 2 ≤ 2 ^ i := Nat.pow_le_pow_right (by decide) hi
  have : c.code.toNat < 4 := by cases c <;> decide
  omega

theorem code_put {r : Row} {x z : Nat} {c : Color} (hx : x < maxSize) (hz : z < maxSize) :
    code (put r x c) z = if z = x then code r z ||| c.code else code r z := by
  apply UInt64.toNat_inj.mp
  apply Nat.eq_of_testBit_eq
  intro i
  rw [testBit_code hz]
  by_cases hi : i < 2
  · have hx' : x < 32 := hx
    have hz' : z < 32 := hz
    rw [testBit_put hx (by omega)]
    split
    · rename_i hzx
      subst hzx
      rw [UInt64.toNat_or, Nat.testBit_or, testBit_code hz]
      simp [hi]
    · rename_i hzx
      rw [testBit_code hz]
      rcases Nat.lt_or_gt_of_ne hzx with h | h
      · have : ¬ 2 * x ≤ 2 * z + i := by omega
        simp [this]
      · have : 2 ≤ 2 * z + i - 2 * x := by omega
        simp [testBit_color this]
  · simp only [hi, decide_false, Bool.false_and]
    split
    · rw [UInt64.toNat_or, Nat.testBit_or, testBit_code hz, testBit_color (by omega)]
      simp [hi]
    · rw [testBit_code hz]
      simp [hi]

theorem clean_zero (width : Nat) : Clean width 0 := by
  intro x _
  simp [code]

theorem Clean.put {width : Nat} {r : Row} (h : Clean width r) {x : Nat} {c : Color}
    (hx : x < width) (hw : width ≤ maxSize) (h0 : code r x = 0) : Clean width (put r x c) := by
  intro z hz
  rw [code_put (Nat.lt_of_lt_of_le hx hw) hz]
  split
  · rename_i hzx
    subst hzx
    rw [h0]
    refine ⟨by cases c <;> decide, fun hwz => absurd hx (Nat.not_lt.mpr hwz)⟩
  · exact h z hz

theorem Clean.code_cases {width : Nat} {r : Row} (h : Clean width r) {x : Nat} (hx : x < maxSize) :
    code r x = 0 ∨ code r x = 1 ∨ code r x = 2 := by
  have h3 := (h x hx).1
  have hlt : (code r x).toNat < 4 := by
    rw [toNat_code hx]
    exact Nat.lt_of_le_of_lt Nat.and_le_right (by decide)
  have h3' : (code r x).toNat ≠ 3 := fun e => h3 (UInt64.toNat_inj.mp e)
  simp only [← UInt64.toNat_inj]
  simp
  omega

end Row
end HexGame
