import HexGame.Pattern.Template

/-!
# Packed lines and single cells

A line of a template is compared with a row in one step. Here the comparison is taken apart into cells: a
packed line fits a row exactly when each of its codes admits the cell below it (`fits_pack_iff`). Both sides
are words of two-bit codes, so they are compared code by code (`Row.eq_of_code`).
-/
namespace HexGame

namespace Row

variable {r s : Row} {x z : Nat}

theorem eq_of_code (h : ∀ z < maxSize, code r z = code s z) : r = s := by
  apply UInt64.toNat_inj.mp
  apply Nat.eq_of_testBit_eq
  intro i
  by_cases hi : i < 64
  · have hz : i / 2 < maxSize := by
      have : maxSize = 32 := rfl
      omega
    have hbits := congrArg (fun n : UInt64 => n.toNat.testBit (i % 2)) (h (i / 2) hz)
    simpa only [testBit_code hz, Nat.mod_lt i Nat.two_pos, Nat.div_add_mod, decide_true,
      Bool.true_and] using hbits
  · have hhigh (n : UInt64) : n.toNat.testBit i = false :=
      Nat.testBit_lt_two_pow (Nat.lt_of_lt_of_le n.toNat_lt (Nat.pow_le_pow_right (by decide) (by omega)))
    rw [hhigh, hhigh]

theorem code_and (hz : z < maxSize) : code (r &&& s) z = code r z &&& code s z := by
  apply UInt64.toNat_inj.mp
  apply Nat.eq_of_testBit_eq
  intro i
  simp only [testBit_code hz, UInt64.toNat_and, Nat.testBit_and]
  cases decide (i < 2) <;> simp

theorem code_or (hz : z < maxSize) : code (r ||| s) z = code r z ||| code s z := by
  apply UInt64.toNat_inj.mp
  apply Nat.eq_of_testBit_eq
  intro i
  simp only [testBit_code hz, UInt64.toNat_or, Nat.testBit_or]
  cases decide (i < 2) <;> simp

theorem code_shiftRight (hxz : x + z < maxSize) : code (r >>> (2 * x).toUInt64) z = code r (x + z) := by
  have hx : x < maxSize := by omega
  have hz : z < maxSize := by omega
  apply UInt64.toNat_inj.mp
  apply Nat.eq_of_testBit_eq
  intro i
  rw [testBit_code hz, testBit_code hxz, UInt64.toNat_shiftRight, toNat_shift hx, Nat.testBit_shiftRight,
    Nat.mul_add, Nat.add_assoc]

theorem code_shiftLeft {n : UInt64} (hn : n.toNat < 4) (hx : x < maxSize) (hz : z < maxSize) :
    code (n <<< (2 * x).toUInt64) z = if z = x then n else 0 := by
  have hx' : x < 32 := hx
  have hz' : z < 32 := hz
  have hhigh (j : Nat) (hj : 2 ≤ j) : n.toNat.testBit j = false :=
    Nat.testBit_lt_two_pow (Nat.lt_of_lt_of_le hn (Nat.pow_le_pow_right Nat.two_pos hj))
  apply UInt64.toNat_inj.mp
  apply Nat.eq_of_testBit_eq
  intro i
  rw [testBit_code hz, UInt64.toNat_shiftLeft, toNat_shift hx, Nat.testBit_mod_two_pow,
    Nat.testBit_shiftLeft]
  by_cases hi : i < 2
  · split
    · rename_i h
      subst h
      have : 2 * z + i < 64 := by omega
      simp [hi, this]
    · rename_i h
      rcases Nat.lt_or_gt_of_ne h with h | h
      · have : ¬ 2 * x ≤ 2 * z + i := by omega
        simp [this]
      · simp [hhigh (2 * z + i - 2 * x) (by omega)]
  · split
    · simp [hi, hhigh i (by omega)]
    · simp [hi]

@[simp] theorem code_zero (z : Nat) : code 0 z = 0 := by simp [code]

theorem code_and_three (r : Row) (z : Nat) : code r z &&& 3 = code r z := by
  rw [code, UInt64.and_assoc]
  rfl

end Row

namespace CellCode

variable {owner : Color} {code : CellCode} {n : UInt64}

/-- What a code asks of a cell when `owner` owns the template. Cells are given by their packed codes. -/
def Admits (owner : Color) : CellCode → UInt64 → Prop
  | empty, n => n = 0
  | own, n => n = owner.code
  | opponent, n => n = owner.opponent.code
  | any, _ => True

instance (owner : Color) (code : CellCode) (n : UInt64) : Decidable (code.Admits owner n) := by
  cases code <;> unfold Admits <;> infer_instance

/-- The bits of a cell that a code looks at. -/
def bits : CellCode → UInt64
  | any => 0
  | _ => 3

theorem bits_lt (code : CellCode) : code.bits.toNat < 4 := by cases code <;> decide

theorem valueFor_lt (owner : Color) (code : CellCode) : (code.valueFor owner).toNat < 4 := by
  cases code <;> cases owner <;> decide

theorem admits_iff (hn : n &&& 3 = n) : code.Admits owner n ↔ n &&& code.bits = code.valueFor owner := by
  cases code with
  | any => simp [Admits, bits, valueFor]
  | empty | own | opponent => simp only [Admits, bits, valueFor, hn]

end CellCode

namespace PackedLine

variable {codes : List CellCode} {owner : Color} {row : Row} {f : CellCode → UInt64} {x z : Nat}

/-- The word that holds one value for each code, from place `x` on. -/
def word (f : CellCode → UInt64) (x : Nat) : List CellCode → UInt64
  | [] => 0
  | code :: codes => word f (x + 1) codes ||| (f code <<< (2 * x).toUInt64)

theorem packFrom_mask (x : Nat) (codes : List CellCode) : (packFrom x codes).mask = word CellCode.bits x codes := by
  induction codes generalizing x with
  | nil => rfl
  | cons code codes ih => cases code <;> simp [packFrom, word, CellCode.bits, ih]

theorem packFrom_valueFor (owner : Color) (x : Nat) (codes : List CellCode) :
    (packFrom x codes).valueFor owner = word (CellCode.valueFor owner) x codes := by
  induction codes generalizing x with
  | nil => cases owner <;> rfl
  | cons code codes ih =>
    have hrest := ih (x + 1)
    cases owner <;> cases code <;> simp_all [packFrom, word, valueFor, CellCode.valueFor]

theorem packFrom_width (x : Nat) (codes : List CellCode) : (packFrom x codes).width = x + codes.length := by
  induction codes generalizing x with
  | nil => rfl
  | cons code codes ih =>
    have hrest := ih (x + 1)
    cases code <;> simp [packFrom, hrest] <;> omega

@[simp] theorem pack_width (codes : List CellCode) : (pack codes).width = codes.length := by
  rw [pack, packFrom_width, Nat.zero_add]

/-- Each value of a word stands at its own place. Places without a code hold the value of a code for any
cell. -/
theorem code_word (hf : ∀ code, (f code).toNat < 4) (hany : f .any = 0) (hx : x + codes.length ≤ maxSize)
    (hz : z < maxSize) :
    Row.code (word f x codes) z = if z < x then 0 else f (codes[z - x]?.getD .any) := by
  induction codes generalizing x with
  | nil => simp [word, hany]
  | cons code codes ih =>
    rw [List.length_cons] at hx
    rw [word, Row.code_or hz, ih (by omega), Row.code_shiftLeft (hf code) (by omega) hz]
    rcases Nat.lt_trichotomy z x with h | rfl | h
    · simp [h, Nat.lt_succ_of_lt h, Nat.ne_of_lt h]
    · simp
    · obtain ⟨k, rfl⟩ := Nat.exists_eq_add_of_lt h
      simp [show x + k + 1 - x = k + 1 by omega, show x + k + 1 - (x + 1) = k by omega,
        show ¬ x + k + 1 < x by omega, show ¬ x + k + 1 < x + 1 by omega, show x + k + 1 ≠ x by omega]

theorem fits_pack_iff (hx : x + codes.length ≤ maxSize) : (pack codes).fits owner row x = true ↔
    ∀ k (hk : k < codes.length), codes[k].Admits owner (Row.code row (x + k)) := by
  have hlen : 0 + codes.length ≤ maxSize := by omega
  have hmask (z : Nat) (hz : z < maxSize) := code_word CellCode.bits_lt rfl hlen hz
  have hvalue (z : Nat) (hz : z < maxSize) := code_word (CellCode.valueFor_lt owner) rfl hlen hz
  rw [fits, beq_iff_eq, pack, packFrom_mask, packFrom_valueFor]
  constructor
  · intro h k hk
    have hz : k < maxSize := by omega
    have hcell := congrArg (Row.code · k) h
    simp only [Row.code_and hz, Row.code_shiftRight (show x + k < maxSize by omega), hmask k hz, hvalue k hz,
      Nat.not_lt_zero, if_false, Nat.sub_zero, List.getElem?_eq_getElem hk, Option.getD_some] at hcell
    exact (CellCode.admits_iff (Row.code_and_three row (x + k))).mpr hcell
  · intro h
    apply Row.eq_of_code
    intro z hz
    rw [Row.code_and hz, hmask z hz, hvalue z hz]
    simp only [Nat.not_lt_zero, if_false, Nat.sub_zero]
    by_cases hk : z < codes.length
    · rw [Row.code_shiftRight (by omega), List.getElem?_eq_getElem hk]
      exact (CellCode.admits_iff (Row.code_and_three row (x + z))).mp (h z hk)
    · rw [List.getElem?_eq_none (by omega)]
      simp [CellCode.bits, CellCode.valueFor]

end PackedLine
end HexGame
