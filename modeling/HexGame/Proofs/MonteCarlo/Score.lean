import HexGame.MonteCarlo.Search
import HexGame.Proofs.Chain.SearchRun
import HexGame.Proofs.Negamax.FloatRank

/-!
# Scores of won games

The score of a won game is positive, be it weighted by the length of the game or not. Products, quotients and
sums of numbers without a sign have none (`Unsigned`). That a sum with one half is not rounded to zero is read
off the exponents (`exists_round`).
-/
namespace HexGame

theorem Board.empty_le (b : Board) : b.stoneCounts.empty ≤ b.size * b.size :=
  b.stones_add_empty ▸ Nat.le_add_left _ _

namespace FloatRank

open Float.Model Float.Model.UnpackedFloat

variable {a b : UnpackedFloat} {m : Nat} {e : Int} {acc : Accuracy}

/-- Numbers with a positive sign. -/
inductive Unsigned : UnpackedFloat → Prop where
  | infinity : Unsigned (.infinity .positive)
  | zero : Unsigned (.zero .positive)
  | finite {m : Nat} {e : Int} (hm : 0 < m) : Unsigned (.finite .positive m e hm)

theorem Unsigned.isNaN (h : Unsigned a) : a.isNaN = false := by
  cases h <;> rfl

/-! ## Rounding -/

theorem mantissa_shiftRight (em : ExtendedMantissa) (k : Nat) : (em >>> k).mantissa = em.mantissa / 2 ^ k := by
  induction k with
  | zero => exact (Nat.div_one _).symm
  | succ k ih =>
    show (ExtendedMantissa.shiftRightOne (em >>> k)).mantissa = _
    rw [ExtendedMantissa.shiftRightOne, ih, Nat.div_div_eq_div_mul, Nat.pow_succ]

theorem le_roundedMantissa (em : ExtendedMantissa) : em.mantissa ≤ em.roundedMantissa := by
  unfold ExtendedMantissa.roundedMantissa ExtendedMantissa.accuracy
  split <;> simp [Accuracy.roundToNearestEven]

theorem mantissa_ofMantissaAndAccuracy (m : Nat) (acc : Accuracy) :
    (ExtendedMantissa.ofMantissaAndAccuracy m acc).mantissa = m := by
  unfold ExtendedMantissa.ofMantissaAndAccuracy
  split <;> rfl

theorem Unsigned.roundWithAccuracy (m : Nat) (e : Int) (acc : Accuracy) :
    Unsigned (roundWithAccuracy Format.binary64 .positive m e acc) := by
  unfold UnpackedFloat.roundWithAccuracy
  dsimp only
  split
  · exact .zero
  · exact .finite _

/-- A mantissa that is shifted to the exponent of the format keeps one to 53 of its bits, if it stands for no
less than the smallest number. -/
theorem shiftToTargetExponent_spec (hm : 0 < m) (he : -1074 ≤ m.log2 + e) (acc : Accuracy) :
    0 < (shiftToTargetExponent Format.binary64 m e acc).1.mantissa ∧
      (shiftToTargetExponent Format.binary64 m e acc).1.mantissa < mantissaBound ∧
      -1074 ≤ (shiftToTargetExponent Format.binary64 m e acc).2 := by
  let k := (Format.binary64.targetExponent (totalExponent m e) - e).toNat
  have htarget : Format.binary64.targetExponent (totalExponent m e) = max (m.log2 + 1 + e - 53) (-1074) := rfl
  have hshift : (shiftToTargetExponent Format.binary64 m e acc).1.mantissa = m / 2 ^ k := by
    show (ExtendedMantissa.ofMantissaAndAccuracy m acc >>> k).mantissa = _
    rw [mantissa_shiftRight, mantissa_ofMantissaAndAccuracy]
  have hk : k = (max (m.log2 + 1 + e - 53 : Int) (-1074) - e).toNat := by rw [← htarget]
  rw [hshift]
  refine ⟨?_, ?_, ?_⟩
  · apply Nat.div_pos _ (Nat.two_pow_pos k)
    calc 2 ^ k ≤ 2 ^ m.log2 := Nat.pow_le_pow_right (by decide) (by omega)
      _ ≤ m := Nat.log2_self_le (by omega)
  · apply Nat.div_lt_of_lt_mul
    calc m < 2 ^ (m.log2 + 1) := Nat.lt_log2_self
      _ ≤ 2 ^ (k + 53) := Nat.pow_le_pow_right (by decide) (by omega)
      _ = 2 ^ k * mantissaBound := Nat.pow_add 2 k 53
  · show -1074 ≤ e + (k : Int)
    omega

theorem exists_roundWithAccuracy (hm : 0 < m) (he : -1074 ≤ m.log2 + e) (acc : Accuracy) :
    ∃ m' e' hm', roundWithAccuracy Format.binary64 .positive m e acc = .finite .positive m' e' hm' ∧
      m' < mantissaBound ∧ -1074 ≤ e' := by
  obtain ⟨hpos, hbound, hexp⟩ := shiftToTargetExponent_spec hm he acc
  have hround := le_roundedMantissa (shiftToTargetExponent Format.binary64 m e acc).1
  obtain ⟨hpos', hbound', hexp'⟩ := shiftToTargetExponent_spec (Nat.lt_of_lt_of_le hpos hround)
    (e := (shiftToTargetExponent Format.binary64 m e acc).2) (by omega) .exact
  refine ⟨_, _, hpos', ?_, hbound', hexp'⟩
  unfold roundWithAccuracy
  dsimp only
  rw [dif_neg (by omega)]

theorem exists_round (hm : 0 < m) (he : -1074 ≤ m.log2 + e) :
    ∃ m' e' hm', round Format.binary64 .positive m e = .finite .positive m' e' hm' ∧
      m' < mantissaBound ∧ -1074 ≤ e' := by
  let k := (e - Format.binary64.targetExponent (totalExponent m e)).toNat
  have hshift : m <<< k = m * 2 ^ k := Nat.shiftLeft_eq m k
  have hpos : 0 < m * 2 ^ k := Nat.mul_pos hm (Nat.two_pow_pos k)
  have hlog : m.log2 + k ≤ (m * 2 ^ k).log2 := by
    rw [Nat.le_log2 (by omega), Nat.pow_add]
    exact Nat.mul_le_mul_right _ (Nat.log2_self_le (by omega))
  have hround : round Format.binary64 .positive m e =
      roundWithAccuracy Format.binary64 .positive (m * 2 ^ k) (e - k) .exact := by
    rw [← hshift]
    rfl
  rw [hround]
  exact exists_roundWithAccuracy hpos (by omega) .exact

/-! ## Packing -/

theorem Unsigned.packComponents {exponent : BitVec 11} {mantissa : BitVec 52}
    (h : exponent = -1#_ → mantissa = 0#_) :
    Unsigned (unpack Format.binary64 (packComponents Format.binary64 .positive exponent mantissa)) := by
  simp only [UnpackedFloat.unpack, unpackExponent_packComponents, unpackMantissa_packComponents,
    unpackSign_packComponents, Sign.ofBitVec_toBitVec]
  split
  · rename_i he
    rw [if_pos (h he)]
    exact .infinity
  split
  · split
    · exact .zero
    · exact .finite _
  · exact .finite _

theorem Unsigned.pack (h : Unsigned a) : Unsigned (unpack Format.binary64 (pack Format.binary64 a)) := by
  cases h with
  | infinity => exact .packComponents fun _ => rfl
  | zero => exact .packComponents fun _ => rfl
  | finite hm =>
    unfold UnpackedFloat.pack
    dsimp only
    split
    · exact .packComponents fun _ => rfl
    rename_i hexp
    split
    · refine .packComponents fun h => absurd (congrArg BitVec.toNat h) ?_
      rw [BitVec.toNat_ofNat, Nat.mod_eq_of_lt (by omega)]
      exact fun h => hexp (by rw [h]; decide)
    · exact .packComponents fun h => absurd h (by decide)

theorem packComponents_ne_zero {exponent : BitVec 11} {mantissa : BitVec 52}
    (h : exponent = 0#_ → mantissa ≠ 0#_) :
    unpack Format.binary64 (packComponents Format.binary64 .positive exponent mantissa) ≠ .zero .positive := by
  simp only [UnpackedFloat.unpack, unpackExponent_packComponents, unpackMantissa_packComponents]
  split
  · split <;> simp
  split
  · rename_i he
    rw [dif_neg (h he)]
    simp
  · simp

theorem pack_ne_zero {hm : 0 < m} (hbound : m < mantissaBound) (he : -1074 ≤ e) :
    unpack Format.binary64 (pack Format.binary64 (.finite .positive m e hm)) ≠ .zero .positive := by
  unfold UnpackedFloat.pack
  dsimp only
  split
  · exact packComponents_ne_zero fun h => absurd h (by decide)
  rename_i hexp
  have hbias : ((Format.binary64.exponentBias : Int) + 52) = 1075 := rfl
  split
  · refine packComponents_ne_zero fun h => absurd (congrArg BitVec.toNat h) ?_
    rw [BitVec.toNat_ofNat, Nat.mod_eq_of_lt (by omega)]
    show (e + _ + 52).toNat ≠ 0
    omega
  · rename_i hlog
    have hlog : m.log2 + 1 ≠ 53 := hlog
    have hlt : m.log2 < 53 := (Nat.log2_lt (by omega)).mpr hbound
    have hsmall : m < 2 ^ 52 := (Nat.log2_lt (by omega)).mp (by omega)
    refine packComponents_ne_zero fun _ h => absurd (congrArg BitVec.toNat h) ?_
    rw [BitVec.toNat_ofNat, Nat.mod_eq_of_lt hsmall]
    show m ≠ 0
    omega

/-! ## Arithmetic -/

theorem Unsigned.finite_mul (h : Unsigned a) (hm : 0 < m) :
    Unsigned (mul Format.binary64 (.finite .positive m e hm) a) := by
  cases h with
  | infinity => exact .infinity
  | zero => exact .zero
  | finite _ => exact .roundWithAccuracy _ _ _

theorem Unsigned.mul_finite (h : Unsigned a) (hm : 0 < m) :
    Unsigned (mul Format.binary64 a (.finite .positive m e hm)) := by
  cases h with
  | infinity => exact .infinity
  | zero => exact .zero
  | finite _ => exact .roundWithAccuracy _ _ _

theorem Unsigned.div_finite (h : Unsigned a) (hm : 0 < m) :
    Unsigned (div Format.binary64 a (.finite .positive m e hm)) := by
  cases h with
  | infinity => exact .infinity
  | zero => exact .zero
  | finite _ => exact .roundWithAccuracy _ _ _

theorem Unsigned.ofNat (n : Nat) : Unsigned (UnpackedFloat.ofNat Format.binary64 n) := by
  unfold UnpackedFloat.ofNat UnpackedFloat.ofInt UnpackedFloat.normalize
  split
  · rename_i h
    have := Int.compare_eq_lt.mp h
    omega
  · exact .zero
  · exact .roundWithAccuracy _ _ _

theorem unpack_one :
    (Float.ofBits 0x3FF0000000000000).toModel.unpack = .finite .positive 0x10000000000000 (-52) (by decide) := by
  rfl

theorem unpack_half : (0.5 : Float).toModel.unpack = .finite .positive 0x10000000000000 (-53) (by decide) := by
  rfl

/-- Small numbers are read exactly, as a product with one. -/
theorem Unsigned.float_ofNat {n : Nat} (hn : n < 2 ^ 53) : Unsigned (Float.ofNat n).toModel.unpack := by
  have h : Float.ofNat n = n.toUInt64.toFloat * Float.ofBits 0x3FF0000000000000 := by
    show Float.ofScientific n false 0 = _
    rw [Float.ofScientific, dif_pos ⟨hn, by decide⟩]
    rfl
  have hfloat : Unsigned n.toUInt64.toFloat.toModel.unpack := (Unsigned.ofNat n.toUInt64.toNat).pack
  rw [h]
  show Unsigned (unpack Format.binary64 (UnpackedFloat.pack Format.binary64 (mul Format.binary64 _ _)))
  rw [unpack_one]
  exact (hfloat.mul_finite _).pack

theorem Unsigned.half_mul {v : Float} (h : Unsigned v.toModel.unpack) : Unsigned (0.5 * v).toModel.unpack := by
  show Unsigned (unpack Format.binary64 (UnpackedFloat.pack Format.binary64 (mul Format.binary64 _ _)))
  rw [unpack_half]
  exact (h.finite_mul _).pack

theorem Unsigned.float_div {v w : Float} {hm : 0 < m} (h : Unsigned v.toModel.unpack)
    (hw : w.toModel.unpack = .finite .positive m e hm) : Unsigned (v / w).toModel.unpack := by
  show Unsigned (unpack Format.binary64 (UnpackedFloat.pack Format.binary64 (div Format.binary64 _ _)))
  rw [hw]
  exact (h.div_finite hm).pack

theorem normalize_of_pos {s : Sign} (hm : 0 < m) :
    UnpackedFloat.normalize Format.binary64 m e s = round Format.binary64 .positive m e := by
  rw [UnpackedFloat.normalize, Int.compare_eq_gt.mpr (by omega)]
  rfl

/-- One half and a number without a sign make a positive number. -/
theorem half_add {hm : 0 < 0x10000000000000} (h : Unsigned a) :
    Unsigned (add Format.binary64 (.finite .positive 0x10000000000000 (-53) hm) a) ∧
      unpack Format.binary64 (pack Format.binary64
        (add Format.binary64 (.finite .positive 0x10000000000000 (-53) hm) a)) ≠ .zero .positive := by
  cases h with
  | infinity => exact ⟨.infinity, packComponents_ne_zero fun h => absurd h (by decide)⟩
  | zero => exact ⟨.finite hm, pack_ne_zero (by decide) (by decide)⟩
  | @finite m e hm' =>
    let low := min (-53) e
    let total := 0x10000000000000 * 2 ^ (-53 - low).toNat + m <<< (e - low).toNat
    have hle : 0x10000000000000 * 2 ^ (-53 - low).toNat ≤ total := Nat.le_add_right _ _
    have hpos : 0 < total := Nat.lt_of_lt_of_le (Nat.mul_pos hm (Nat.two_pow_pos _)) hle
    have hlog : 52 + (-53 - low).toNat ≤ total.log2 := by
      rw [Nat.le_log2 (by omega), Nat.pow_add]
      exact hle
    have hadd : add Format.binary64 (.finite .positive 0x10000000000000 (-53) hm) (.finite .positive m e hm') =
        UnpackedFloat.normalize Format.binary64 total low .positive := by
      rw [Int.natCast_add, ← Nat.shiftLeft_eq]
      rfl
    obtain ⟨m', e', hm', hround, hbound, he⟩ := exists_round (e := low) hpos (by omega)
    rw [hadd, normalize_of_pos hpos, hround]
    exact ⟨.finite hm', pack_ne_zero hbound he⟩

theorem rank_pos (h : Unsigned a) (hc : Canonical a) (h0 : a ≠ .zero .positive) : 0 < rank a := by
  cases h with
  | infinity => decide
  | zero => exact absurd rfl h0
  | finite hm =>
    obtain ⟨-, he, -⟩ := hc
    simp only [rank, Sign.apply, mantissaBound]
    omega

theorem zero_lt {v : Float} (h : Unsigned v.toModel.unpack) (h0 : v.toModel.unpack ≠ .zero .positive) :
    0 < v :=
  (lt_iff (by rfl) h.isNaN).mpr (rank_pos h (canonical_unpack _) h0)

theorem zero_lt_half_add {v : Float} (h : Unsigned v.toModel.unpack) : 0 < 0.5 + v := by
  have hunpack : (0.5 + v).toModel.unpack = unpack Format.binary64 (pack Format.binary64
      (add Format.binary64 (.finite .positive 0x10000000000000 (-53) (by decide)) v.toModel.unpack)) := by
    rw [← unpack_half]
    rfl
  obtain ⟨hsum, h0⟩ := half_add h
  exact zero_lt (hunpack ▸ hsum.pack) (hunpack ▸ h0)

theorem Unsigned.exists_finite (h : Unsigned a) (hfinite : a.isFinite = true) (hr : 0 < rank a) :
    ∃ m e hm, a = .finite .positive m e hm := by
  cases h with
  | infinity => simp [UnpackedFloat.isFinite] at hfinite
  | zero => exact absurd hr (Int.lt_irrefl 0)
  | finite hm => exact ⟨_, _, hm, rfl⟩

theorem neg_lt_zero {v : Float} (h : 0 < v) : -v < 0 := by
  have hv := (isNaN_of_lt h).2
  have hrank := (lt_iff (by rfl) hv).mp h
  have hzero : rank (0 : Float).toModel.unpack = 0 := by rfl
  refine (lt_iff ((isNaN_neg v).trans hv) (by rfl)).mpr ?_
  rw [unpack_neg, rank_neg]
  omega

theorem neg_neg (v : Float) : - -v = v := by
  apply eq_of_unpack
  rw [unpack_neg, unpack_neg]
  cases v.toModel.unpack with
  | notANumber => rfl
  | infinity s => cases s <;> rfl
  | zero s => cases s <;> rfl
  | finite s => cases s <;> rfl

end FloatRank

namespace MonteCarlo

open FloatRank Float.Model Float.Model.UnpackedFloat

/-- The number of cells of a board, as it divides scores. -/
theorem exists_unpack_cells {n : Nat} (h : 0 < n) (hn : n ≤ maxSize) :
    ∃ m e hm, (Float.ofNat (n * n)).toModel.unpack = .finite .positive m e hm := by
  have hcheck : ∀ n ∈ List.range 33, n = 0 ∨
      ((Float.ofNat (n * n)).isFinite = true ∧ 0 < Float.ofNat (n * n)) := by decide +kernel
  have hn : n < 33 := Nat.lt_succ_of_le hn
  obtain ⟨hfinite, hpos⟩ := (hcheck n (List.mem_range.mpr hn)).resolve_left (by omega)
  have hcells : n * n ≤ 32 * 32 := Nat.mul_le_mul (by omega) (by omega)
  have hunsigned : Unsigned (Float.ofNat (n * n)).toModel.unpack := .float_ofNat (by omega)
  exact hunsigned.exists_finite hfinite ((lt_iff (by rfl) hunsigned.isNaN).mp hpos)

theorem zero_lt_winScore (c : Config Float) (b : Board) : 0 < winScore c b := by
  unfold winScore
  split
  · have hempty : b.stoneCounts.empty < 2 ^ 53 := by
      have hle := b.empty_le
      have hsize : b.size * b.size ≤ 32 * 32 := Nat.mul_le_mul b.size_le b.size_le
      omega
    obtain ⟨m, e, hm, hcells⟩ := exists_unpack_cells b.size_pos b.size_le
    exact zero_lt_half_add ((Unsigned.float_ofNat hempty).half_mul.float_div hcells)
  · decide +kernel

end MonteCarlo
end HexGame
