import Mathlib
import HexGame.Proofs.Negamax.Rank

/-!
# Ranks of floating point numbers

Floating point numbers are compared by their exponents and then by their mantissas. This is right as long
as they are written as the format has them (`Canonical`): then a larger exponent outweighs every mantissa,
so that both make up one rank. Numbers are unpacked in this form, and negation changes the sign alone.
-/
namespace HexGame
namespace FloatRank

open Float.Model Float.Model.UnpackedFloat

variable {a b : UnpackedFloat} {s : Sign}

/-- A mantissa has 53 bits. -/
def mantissaBound : Nat := 0x20000000000000

/-- Where a number stands in the order; both zeros stand in the middle. -/
def rank : UnpackedFloat → Int
  | .infinity s => s.apply (2047 * mantissaBound)
  | .notANumber => 0
  | .zero _ => 0
  | .finite s m e _ => s.apply ((e + 1075) * mantissaBound + m)

/-- The mantissa has its highest bit unless the exponent is the least one. -/
def Canonical : UnpackedFloat → Prop
  | .finite _ m e _ => m < mantissaBound ∧ -1074 ≤ e ∧ e ≤ 971 ∧ (mantissaBound ≤ 2 * m ∨ e = -1074)
  | _ => True

theorem apply_neg (s : Sign) (n : Int) : (-s).apply n = -s.apply n := by
  cases s with
  | negative => exact (Int.neg_neg n).symm
  | positive => rfl

theorem rank_neg (a : UnpackedFloat) : rank a.neg = -rank a := by
  cases a with
  | infinity s => exact apply_neg s _
  | notANumber => rfl
  | zero s => rfl
  | finite s m e hm => exact apply_neg s _

theorem compare_finite {m₁ m₂ : Nat} {e₁ e₂ : Int} (h₁ : m₁ < mantissaBound) (h₂ : m₂ < mantissaBound) :
    (compare e₁ e₂).then (compare m₁ m₂) =
      compare ((e₁ + 1075) * mantissaBound + m₁) ((e₂ + 1075) * mantissaBound + m₂) := by
  unfold mantissaBound at *
  rcases Int.lt_trichotomy e₁ e₂ with h | rfl | h
  · rw [Int.compare_eq_lt.mpr h, Ordering.then_eq_lt.mpr (.inl rfl), Int.compare_eq_lt.mpr]
    omega
  · rw [Int.compare_eq_eq.mpr rfl, Ordering.eq_then]
    rcases Nat.lt_trichotomy m₁ m₂ with h | rfl | h
    · rw [Nat.compare_eq_lt.mpr h, Int.compare_eq_lt.mpr]
      omega
    · rw [Nat.compare_eq_eq.mpr rfl, Int.compare_eq_eq.mpr rfl]
    · rw [Nat.compare_eq_gt.mpr h, Int.compare_eq_gt.mpr]
      omega
  · rw [Int.compare_eq_gt.mpr h, Ordering.then_eq_gt.mpr (.inl rfl), Int.compare_eq_gt.mpr]
    omega

theorem compare_neg (x y : Int) : compare (-x) (-y) = compare y x := by
  simp only [compare, compareOfLessAndEq, Int.neg_lt_neg_iff, Int.neg_inj, eq_comm]

theorem compare_eq (ha : Canonical a) (hb : Canonical b) (hna : a.isNaN = false) (hnb : b.isNaN = false) :
    a.compare b = some (compare (rank a) (rank b)) := by
  rcases a with (_ | _) | _ | _ | ⟨_ | _, m₁, e₁, hm₁⟩ <;>
    rcases b with (_ | _) | _ | _ | ⟨_ | _, m₂, e₂, hm₂⟩ <;>
      simp only [UnpackedFloat.isNaN, Bool.true_eq_false, Canonical] at hna hnb ha hb <;>
        simp only [UnpackedFloat.compare, rank, Sign.apply, Option.some.injEq]
  case finite.negative.finite.negative =>
    rw [compare_neg, compare_finite ha.1 hb.1, Int.compare_swap]
  case finite.positive.finite.positive => exact compare_finite ha.1 hb.1
  all_goals first
    | rfl
    | (unfold mantissaBound at *; exact (Int.compare_eq_lt.mpr (by omega)).symm)
    | (unfold mantissaBound at *; exact (Int.compare_eq_gt.mpr (by omega)).symm)

/-! ## Packing -/

theorem toNat_mantissa (v : BitVec 52) : (1#1 ++ v).toNat = 0x10000000000000 + v.toNat := by
  rw [BitVec.toNat_append, ← Nat.shiftLeft_add_eq_or_of_lt v.isLt]
  rfl

theorem canonical_unpack (x : Float.Model) : Canonical x.unpack := by
  let bits : BitVec Format.binary64.numBits := x.toBits.toBitVec
  have hm : (unpackMantissa bits).toNat < 0x10000000000000 := (unpackMantissa bits).isLt
  have he : (unpackExponent bits).toNat < 2048 := (unpackExponent bits).isLt
  have hbias : ((Format.binary64.exponentBias : Int) + Format.binary64.mantissaBitsWithoutImplicit) = 1075 := rfl
  show Canonical (UnpackedFloat.unpack Format.binary64 bits)
  unfold UnpackedFloat.unpack
  rw [hbias]
  dsimp only
  split
  · split <;> trivial
  rename_i hfinite
  split
  · rename_i hzero
    split
    · trivial
    · rw [hzero]
      refine ⟨by unfold mantissaBound; omega, by simp, by simp, .inr (by simp)⟩
  · rename_i hnormal
    have hpos : (unpackExponent bits).toNat ≠ 0 := fun h => hnormal (BitVec.eq_of_toNat_eq h)
    have hmax : (unpackExponent bits).toNat ≠ 2047 := fun h => hfinite (BitVec.eq_of_toNat_eq h)
    refine ⟨?_, by omega, by omega, .inl ?_⟩
    · rw [toNat_mantissa]
      unfold mantissaBound
      omega
    · rw [toNat_mantissa]
      unfold mantissaBound
      omega

theorem unpack_packComponents_neg (s : Sign) (e : BitVec 11) (m : BitVec 52) :
    unpack Format.binary64 (packComponents Format.binary64 (-s) e m) =
      (unpack Format.binary64 (packComponents Format.binary64 s e m)).neg := by
  simp only [UnpackedFloat.unpack, unpackExponent_packComponents, unpackMantissa_packComponents,
    unpackSign_packComponents, Sign.ofBitVec_toBitVec]
  split
  · split <;> rfl
  split
  · split <;> rfl
  · rfl

theorem unpack_pack_neg (bits : BitVec Format.binary64.numBits) :
    unpack Format.binary64 (pack Format.binary64 (unpack Format.binary64 bits).neg) =
      (unpack Format.binary64 bits).neg := by
  by_cases hnan : unpack Format.binary64 bits = .notANumber
  · rw [hnan]
    exact unpack_packedNaN
  · have hbits := packComponents_unpackSign_unpackExponent_unpackMantissa bits
    have hvalid : Format.binary64.Valid (packComponents Format.binary64
        (-Sign.ofBitVec (unpackSign bits)) (unpackExponent bits) (unpackMantissa bits)) := by
      refine ⟨fun he hm => absurd ?_ hnan⟩
      rw [unpackExponent_packComponents] at he
      rw [unpackMantissa_packComponents] at hm
      simp only [UnpackedFloat.unpack, he, hm, if_true, if_false]
    rw [← hbits, ← unpack_packComponents_neg, pack_unpack_of_valid hvalid]

/-! ## Comparing and negating -/

theorem rank_le (h : Canonical a) : rank a ≤ 2047 * mantissaBound := by
  rcases a with (_ | _) | _ | _ | ⟨_ | _, m, e, hm⟩ <;>
    simp only [rank, Sign.apply, Canonical, mantissaBound] at h ⊢ <;> omega

variable {v w : Float}

theorem compare_float (hv : v.isNaN = false) (hw : w.isNaN = false) :
    v.toModel.unpack.compare w.toModel.unpack =
      some (compare (rank v.toModel.unpack) (rank w.toModel.unpack)) :=
  compare_eq (canonical_unpack _) (canonical_unpack _) hv hw

theorem lt_iff (hv : v.isNaN = false) (hw : w.isNaN = false) :
    v < w ↔ rank v.toModel.unpack < rank w.toModel.unpack := by
  have h : v < w ↔ (v.toModel.unpack.compare w.toModel.unpack == some .lt) = true := decide_eq_true_iff
  rw [h, compare_float hv hw, beq_iff_eq, Option.some.injEq, Int.compare_eq_lt]

theorem le_iff (hv : v.isNaN = false) (hw : w.isNaN = false) :
    v ≤ w ↔ rank v.toModel.unpack ≤ rank w.toModel.unpack := by
  have h : v ≤ w ↔ (v.toModel.unpack.compare w.toModel.unpack).any (·.isLE) = true := decide_eq_true_iff
  rw [h, compare_float hv hw, Option.any_some, Int.isLE_compare]

theorem isNaN_of_compare {o : Ordering} (h : a.compare b = some o) : a.isNaN = false ∧ b.isNaN = false := by
  cases a <;> cases b <;> simp_all [UnpackedFloat.compare, UnpackedFloat.isNaN]

theorem isNaN_of_lt (h : v < w) : v.isNaN = false ∧ w.isNaN = false := by
  have hcompare : (v.toModel.unpack.compare w.toModel.unpack == some .lt) = true := decide_eq_true_iff.mp h
  exact isNaN_of_compare (beq_iff_eq.mp hcompare)

theorem isNaN_of_le (h : v ≤ w) : v.isNaN = false ∧ w.isNaN = false := by
  have hcompare : (v.toModel.unpack.compare w.toModel.unpack).any (·.isLE) = true := decide_eq_true_iff.mp h
  cases ho : v.toModel.unpack.compare w.toModel.unpack with
  | none => simp [ho] at hcompare
  | some o => exact isNaN_of_compare ho

theorem lt_irrefl (v : Float) : ¬ v < v := fun h =>
  have hv := (isNaN_of_lt h).1
  Int.lt_irrefl _ ((lt_iff hv hv).mp h)

theorem lt_trans {u : Float} (h : u < v) (h' : v < w) : u < w := by
  obtain ⟨hu, hv⟩ := isNaN_of_lt h
  have hw := (isNaN_of_lt h').2
  exact (lt_iff hu hw).mpr (Int.lt_trans ((lt_iff hu hv).mp h) ((lt_iff hv hw).mp h'))

theorem lt_of_lt_of_le {u : Float} (h : u < v) (h' : v ≤ w) : u < w := by
  obtain ⟨hu, hv⟩ := isNaN_of_lt h
  have hw := (isNaN_of_le h').2
  exact (lt_iff hu hw).mpr (Int.lt_of_lt_of_le ((lt_iff hu hv).mp h) ((le_iff hv hw).mp h'))

theorem le_of_not_lt (hv : v.isNaN = false) (hw : w.isNaN = false) (h : ¬ v < w) : w ≤ v :=
  (le_iff hw hv).mpr (Int.not_lt.mp (mt (lt_iff hv hw).mpr h))

theorem beq_iff (hv : v.isNaN = false) (hw : w.isNaN = false) :
    (v == w) = true ↔ rank v.toModel.unpack = rank w.toModel.unpack := by
  show (v.toModel.unpack.compare w.toModel.unpack == some .eq) = true ↔ _
  rw [compare_float hv hw, beq_iff_eq, Option.some.injEq, Int.compare_eq_eq]

theorem unpack_neg (v : Float) : (-v).toModel.unpack = v.toModel.unpack.neg :=
  unpack_pack_neg v.toModel.toBits.toBitVec

theorem isNaN_neg (v : Float) : (-v).isNaN = v.isNaN := by
  show (-v).toModel.unpack.isNaN = v.toModel.unpack.isNaN
  rw [unpack_neg]
  cases v.toModel.unpack <;> rfl

theorem unpack_won : (GameValue.won : Float).toModel.unpack = .infinity .positive := by
  rfl

theorem unpack_even : (GameValue.even : Float).toModel.unpack = .zero .positive := by
  rfl

theorem unpack_lost : (GameValue.lost : Float).toModel.unpack = .infinity .negative := by
  rw [GameValue.lost, unpack_neg, unpack_won]
  rfl

/-! ## Infinities -/

theorem eq_of_unpack (h : v.toModel.unpack = w.toModel.unpack) : v = w := by
  have hbits : v.toModel.toBits.toBitVec = w.toModel.toBits.toBitVec := by
    rw [← pack_unpack_of_valid v.toModel.valid, ← pack_unpack_of_valid w.toModel.valid]
    exact congrArg (UnpackedFloat.pack Format.binary64) h
  obtain ⟨⟨x, hx⟩⟩ := v
  obtain ⟨⟨y, hy⟩⟩ := w
  obtain rfl : x = y := UInt64.toBitVec_inj.mp hbits
  rfl

theorem eq_infinity (h : Canonical a) (hr : rank a = rank (.infinity s)) : a = .infinity s := by
  rcases a with (_ | _) | _ | _ | ⟨_ | _, m, e, hm⟩ <;> cases s <;>
    simp only [rank, Sign.apply, Canonical, mantissaBound] at h hr ⊢ <;> omega

theorem eq_of_rank (hw : w.toModel.unpack = .infinity s)
    (h : rank v.toModel.unpack = rank w.toModel.unpack) : v = w := by
  rw [hw] at h
  exact eq_of_unpack ((eq_infinity (canonical_unpack _) h).trans hw.symm)

end FloatRank

/-- The numbers among the floating point numbers. -/
def floatRanking : Ranking Float where
  IsNumber v := v.isNaN = false
  rank v := FloatRank.rank v.toModel.unpack
  lt_iff hv hw := decide_eq_true_iff.trans (FloatRank.lt_iff hv hw)
  le_iff hv hw := decide_eq_true_iff.trans (FloatRank.le_iff hv hw)
  neg {v} hv := by
    rw [FloatRank.isNaN_neg, hv]
  rank_neg {v} _ := by
    rw [FloatRank.unpack_neg, FloatRank.rank_neg]
  won := by
    show (GameValue.won : Float).toModel.unpack.isNaN = false
    rw [FloatRank.unpack_won]
    rfl
  even := by
    show (GameValue.even : Float).toModel.unpack.isNaN = false
    rw [FloatRank.unpack_even]
    rfl
  rank_le_won {v} _ := by
    rw [FloatRank.unpack_won]
    exact FloatRank.rank_le (FloatRank.canonical_unpack v.toModel)
  won_pos := by
    rw [FloatRank.unpack_won]
    decide

namespace floatRanking

variable {v : Float}

theorem rank_eq_won_iff : floatRanking.rank v = floatRanking.rank GameValue.won ↔ v = GameValue.won :=
  ⟨FloatRank.eq_of_rank FloatRank.unpack_won, fun h => by rw [h]⟩

theorem rank_eq_lost_iff : floatRanking.rank v = floatRanking.rank GameValue.lost ↔ v = GameValue.lost :=
  ⟨FloatRank.eq_of_rank FloatRank.unpack_lost, fun h => by rw [h]⟩

end floatRanking

theorem FloatRank.isFinite_iff {v : Float} : v.isFinite = true ↔ v.isNaN = false ∧ v.isInf = false := by
  show v.toModel.unpack.isFinite = true ↔ v.toModel.unpack.isNaN = false ∧ v.toModel.unpack.isInf = false
  cases v.toModel.unpack <;>
    simp [Float.Model.UnpackedFloat.isFinite, Float.Model.UnpackedFloat.isNaN, Float.Model.UnpackedFloat.isInf]

theorem FloatRank.isInf_iff {v : Float} : v.isInf = true ↔ v = GameValue.won ∨ v = GameValue.lost := by
  have hinf : v.isInf = v.toModel.unpack.isInf := rfl
  constructor
  · intro h
    rw [hinf] at h
    cases hv : v.toModel.unpack with
    | infinity s =>
      cases s with
      | positive => exact .inl (eq_of_unpack (hv.trans unpack_won.symm))
      | negative => exact .inr (eq_of_unpack (hv.trans unpack_lost.symm))
    | _ => simp [hv, Float.Model.UnpackedFloat.isInf] at h
  · rw [hinf]
    rintro (rfl | rfl)
    · rw [unpack_won]
      rfl
    · rw [unpack_lost]
      rfl

end HexGame
