import Mathlib
import DualRail.Proofs.Doubles
import DualRail.Proofs.NearestDouble

/-!
Sums and products of doubles beside those of numbers. An operation is done with all bits and rounded
once; the result is off by the last bit of the greatest doubles at most, on the right side of zero,
or it is infinite because the exact result lies at the greatest double or beyond. That bound is
coarse, but it is the same everywhere and all that matters where doubles overflow.
-/

namespace DualRail.Double

open Float.Model

open Float.Model.UnpackedFloat (Sign Accuracy ExtendedMantissa)

def kept (u : UnpackedFloat) : UnpackedFloat :=
  UnpackedFloat.unpack .binary64 (UnpackedFloat.pack .binary64 u)

def Canonical (u : UnpackedFloat) : Prop :=
  ∀ s m e hm, u = .finite s m e hm → Decimal.IsDouble m e

theorem unpackSign_packComponents {spec : Format} (s : Sign)
    (exponent : BitVec spec.exponentBits) (mantissa : BitVec spec.mantissaBitsWithoutImplicit) :
    Sign.ofBitVec (UnpackedFloat.unpackSign
      (UnpackedFloat.packComponents spec s exponent mantissa)) = s := by
  have h : UnpackedFloat.unpackSign (UnpackedFloat.packComponents spec s exponent mantissa) =
      s.toBitVec := by
    ext i hi
    obtain rfl : i = 0 := by omega
    simp [UnpackedFloat.unpackSign, UnpackedFloat.packComponents, BitVec.getLsbD_append,
      BitVec.getElem_append]
  rw [h]
  cases s <;> rfl

theorem exponentBias_eq : Format.binary64.exponentBias = 1023 := by decide

theorem kept_notANumber : kept .notANumber = .notANumber := UnpackedFloat.unpack_packedNaN

theorem kept_zero (s : Sign) : kept (.zero s) = .zero s := UnpackedFloat.unpack_packedZero

theorem unpack_packedInfinity (s : Sign) :
    UnpackedFloat.unpack .binary64 (UnpackedFloat.packedInfinity .binary64 s) = .infinity s := by
  have hsign := @unpackSign_packComponents .binary64 s (-1#11) 0#52
  unfold UnpackedFloat.unpack UnpackedFloat.packedInfinity
  simp only [UnpackedFloat.unpackExponent_packComponents,
    UnpackedFloat.unpackMantissa_packComponents, if_true]
  exact congrArg _ hsign

theorem kept_infinity (s : Sign) : kept (.infinity s) = .infinity s := unpack_packedInfinity s

theorem pack_finite (s : Sign) {m : Nat} {e : Int} (hm : 0 < m) :
    UnpackedFloat.pack .binary64 (.finite s m e hm) =
      if 2048 ≤ (e + 1075).toNat + 1 then UnpackedFloat.packedInfinity .binary64 s
      else if m.log2 + 1 = 53 then
        UnpackedFloat.packComponents .binary64 s (BitVec.ofNat 11 (e + 1075).toNat)
          (BitVec.ofNat 52 m)
      else UnpackedFloat.packComponents .binary64 s 0#11 (BitVec.ofNat 52 m) := by
  have hbias : e + (Format.binary64.exponentBias : Int) + (52 : Nat) = e + 1075 := by
    rw [exponentBias_eq]
    omega
  rw [UnpackedFloat.pack]
  simp only
  rw [hbias]
  rfl

theorem kept_of_large (s : Sign) {m : Nat} {e : Int} (hm : 0 < m) (he : 972 ≤ e) :
    kept (.finite s m e hm) = .infinity s := by
  rw [kept, pack_finite, if_pos (by omega)]
  exact unpack_packedInfinity s

theorem kept_of_isDouble (s : Sign) {m : Nat} {e : Int} (hm : 0 < m) (h : Decimal.IsDouble m e) :
    kept (.finite s m e hm) = .finite s m e hm := by
  have hlt := h.lt
  have hlow := h.low
  have hhigh := h.high
  rw [Decimal.hidden_eq] at hlt
  rw [kept, pack_finite, if_neg (by omega)]
  by_cases hfull : Decimal.hidden ≤ m
  · rw [Decimal.hidden_eq] at hfull
    have hlog : m.log2 = 52 := by
      rw [Nat.log2_eq_iff (by omega)]
      exact ⟨by norm_num; omega, by norm_num; omega⟩
    have hfield : (BitVec.ofNat 11 (e + 1075).toNat).toNat = (e + 1075).toNat := by
      rw [BitVec.toNat_ofNat, Nat.mod_eq_of_lt]
      omega
    have hone : BitVec.ofNat 11 (e + 1075).toNat ≠ -1#11 := by
      intro heq
      have hnat := congrArg BitVec.toNat heq
      rw [hfield, show (-1#11).toNat = 2047 by decide] at hnat
      omega
    have hzero : BitVec.ofNat 11 (e + 1075).toNat ≠ 0#11 := by
      intro heq
      have hnat := congrArg BitVec.toNat heq
      rw [hfield, show (0#11).toNat = 0 by decide] at hnat
      omega
    have hmantissa : (1#1 ++ BitVec.ofNat 52 m).toNat = m := by
      rw [BitVec.toNat_append, ← Nat.shiftLeft_add_eq_or_of_lt (BitVec.ofNat 52 m).isLt,
        BitVec.toNat_ofNat, Nat.shiftLeft_eq]
      norm_num
      omega
    have hexponent : ((BitVec.ofNat 11 (e + 1075).toNat).toNat : Int) -
        ((Format.binary64.exponentBias : Int) + (52 : Nat)) = e := by
      rw [hfield, exponentBias_eq]
      omega
    rw [if_pos (by omega)]
    unfold UnpackedFloat.unpack
    simp only [UnpackedFloat.unpackExponent_packComponents,
      UnpackedFloat.unpackMantissa_packComponents, unpackSign_packComponents]
    rw [if_neg hone, if_neg hzero]
    simp only [hmantissa, hexponent]
  · have hmin : e = -1074 := h.full.resolve_left hfull
    rw [Decimal.hidden_eq] at hfull
    have hlog : m.log2 + 1 ≠ 53 := by
      have hlt := (Nat.log2_lt (n := m) (k := 52) (by omega)).mpr (by norm_num; omega)
      omega
    have hmantissa : (BitVec.ofNat 52 m).toNat = m := by
      rw [BitVec.toNat_ofNat, Nat.mod_eq_of_lt (by norm_num; omega)]
    have hnonzero : BitVec.ofNat 52 m ≠ 0#52 := by
      intro heq
      have hnat := congrArg BitVec.toNat heq
      rw [hmantissa, show (0#52).toNat = 0 by decide] at hnat
      omega
    have hexponent : ((0#11).toNat : Int) -
        ((Format.binary64.exponentBias : Int) + (52 : Nat)) + 1 = e := by
      rw [exponentBias_eq, hmin]
      rfl
    rw [if_neg hlog]
    unfold UnpackedFloat.unpack
    simp only [UnpackedFloat.unpackExponent_packComponents,
      UnpackedFloat.unpackMantissa_packComponents, unpackSign_packComponents]
    rw [if_neg (by decide), if_pos trivial, dif_neg hnonzero]
    simp only [hmantissa, hexponent]

theorem kept_of_canonical {u : UnpackedFloat} (hu : Canonical u) : kept u = u := by
  cases u with
  | notANumber => exact kept_notANumber
  | infinity s => exact kept_infinity s
  | zero s => exact kept_zero s
  | finite s m e hm => exact kept_of_isDouble s hm (hu s m e hm rfl)

theorem canonical_unpack (b : BitVec 64) : Canonical (UnpackedFloat.unpack .binary64 b) := by
  intro s m e hm h
  unfold UnpackedFloat.unpack at h
  simp only [exponentBias_eq] at h
  have hlt : (@UnpackedFloat.unpackMantissa .binary64 b).toNat < 4503599627370496 :=
    (@UnpackedFloat.unpackMantissa .binary64 b).isLt
  split at h
  · split at h <;> cases h
  · rename_i hone
    split at h
    · rename_i hzero
      split at h
      · cases h
      · injection h with _ hmantissa hexponent
        have hmin : e = -1074 := by
          rw [← hexponent, hzero]
          rfl
        refine ⟨hm, ?_, by omega, by omega, .inr hmin⟩
        rw [← hmantissa, Decimal.hidden_eq]
        omega
    · rename_i hzero
      injection h with _ hmantissa hexponent
      have hfield : (@UnpackedFloat.unpackExponent .binary64 b).toNat < 2048 :=
        (@UnpackedFloat.unpackExponent .binary64 b).isLt
      have hfull : (@UnpackedFloat.unpackExponent .binary64 b).toNat ≠ 2047 :=
        fun heq => hone (BitVec.eq_of_toNat_eq heq)
      have hempty : (@UnpackedFloat.unpackExponent .binary64 b).toNat ≠ 0 :=
        fun heq => hzero (BitVec.eq_of_toNat_eq heq)
      have hm' : m = 4503599627370496 + (@UnpackedFloat.unpackMantissa .binary64 b).toNat := by
        rw [← hmantissa, BitVec.toNat_append,
          ← Nat.shiftLeft_add_eq_or_of_lt (@UnpackedFloat.unpackMantissa .binary64 b).isLt]
        rfl
      refine ⟨hm, ?_, by omega, by omega, .inl ?_⟩
      · rw [Decimal.hidden_eq]
        omega
      · rw [Decimal.hidden_eq]
        omega

theorem canonical_value (x : Float) : Canonical (value x) := canonical_unpack _

theorem mantissa_shiftRight (em : ExtendedMantissa) (k : Nat) :
    (em >>> k).mantissa = em.mantissa / 2 ^ k := by
  change (k.repeat ExtendedMantissa.shiftRightOne em).mantissa = _
  induction k with
  | zero => rw [Nat.repeat, pow_zero, Nat.div_one]
  | succ k ih =>
    rw [Nat.repeat, ExtendedMantissa.shiftRightOne, ih, Nat.div_div_eq_div_mul, pow_succ]

theorem mantissa_ofMantissaAndAccuracy (m : Nat) (a : Accuracy) :
    (ExtendedMantissa.ofMantissaAndAccuracy m a).mantissa = m := by
  cases a with
  | exact => rfl
  | inexact o => cases o <;> rfl

theorem roundedMantissa_bounds (em : ExtendedMantissa) :
    em.mantissa ≤ em.roundedMantissa ∧ em.roundedMantissa ≤ em.mantissa + 1 := by
  obtain ⟨m, round, sticky⟩ := em
  cases round with
  | false =>
    cases sticky with
    | false => exact ⟨le_rfl, Nat.le_succ m⟩
    | true => exact ⟨le_rfl, Nat.le_succ m⟩
  | true =>
    cases sticky with
    | false =>
      exact ⟨Nat.le_add_right _ _,
        Nat.add_le_add_left (Nat.le_of_lt_succ (Nat.mod_lt m two_pos)) m⟩
    | true => exact ⟨Nat.le_succ m, le_rfl⟩

/-- The exponent of the last bit that a double for `m * 2 ^ e` has. -/
def lastExponent (m : Nat) (e : Int) : Int := max ((m.log2 : Int) + e - 52) (-1074)

theorem lastExponent_ge (m : Nat) (e : Int) : -1074 ≤ lastExponent m e := le_max_right _ _

theorem targetExponent_eq (m : Nat) (e : Int) :
    Format.binary64.targetExponent (totalExponent m e) = lastExponent m e := by
  have hmin : Format.binary64.minExponent = -1074 := by decide
  have hbits : Format.binary64.mantissaBits = 53 := by decide
  rw [Format.targetExponent, totalExponent, hmin, hbits, lastExponent]
  congr 1
  omega

theorem shiftToTargetExponent_eq (m : Nat) (e : Int) (a : Accuracy) :
    UnpackedFloat.shiftToTargetExponent .binary64 m e a =
      (ExtendedMantissa.ofMantissaAndAccuracy m a >>> (lastExponent m e - e).toNat,
        e + (lastExponent m e - e).toNat) := by
  rw [UnpackedFloat.shiftToTargetExponent, UnpackedFloat.shiftToExponent, targetExponent_eq]

theorem mantissa_shiftToTargetExponent (m : Nat) (e : Int) (a : Accuracy) :
    (UnpackedFloat.shiftToTargetExponent .binary64 m e a).1.mantissa =
      m / 2 ^ (lastExponent m e - e).toNat := by
  rw [shiftToTargetExponent_eq, mantissa_shiftRight, mantissa_ofMantissaAndAccuracy]

theorem div_lt_of_lastExponent (m : Nat) (e : Int) :
    m / 2 ^ (lastExponent m e - e).toNat < 2 * Decimal.hidden := by
  have hle : m.log2 + 1 ≤ (lastExponent m e - e).toNat + 53 := by
    unfold lastExponent
    omega
  rw [Nat.div_lt_iff_lt_mul (by positivity)]
  calc m < 2 ^ (m.log2 + 1) := Nat.lt_log2_self
    _ ≤ 2 ^ ((lastExponent m e - e).toNat + 53) := Nat.pow_le_pow_right two_pos hle
    _ = 2 * Decimal.hidden * 2 ^ (lastExponent m e - e).toNat := by
        rw [pow_add, Decimal.hidden_eq, Nat.mul_comm]
        norm_num

theorem settle_cases {c : Nat} {t : Int} (hc : c ≤ 2 * Decimal.hidden) (ht : -1074 ≤ t) :
    ∃ c' t', (UnpackedFloat.shiftToTargetExponent .binary64 c t .exact).1.mantissa = c' ∧
      (UnpackedFloat.shiftToTargetExponent .binary64 c t .exact).2 = t' ∧
      ((c' = c ∧ t' = t ∧ c < 2 * Decimal.hidden) ∨
        (c' = Decimal.hidden ∧ t' = t + 1 ∧ c = 2 * Decimal.hidden)) := by
  refine ⟨_, _, rfl, rfl, ?_⟩
  rw [mantissa_shiftToTargetExponent, shiftToTargetExponent_eq]
  by_cases hlt : c < 2 * Decimal.hidden
  · left
    have hlog : c.log2 ≤ 52 := by
      by_cases hzero : c = 0
      · rw [hzero]
        decide
      · have := (Nat.log2_lt (k := 53) hzero).mpr hlt
        omega
    have hshift : (lastExponent c t - t).toNat = 0 := by
      unfold lastExponent
      omega
    rw [hshift, pow_zero, Nat.div_one]
    exact ⟨rfl, by simp, hlt⟩
  · right
    obtain rfl : c = 2 * Decimal.hidden := by omega
    have hlog : (2 * Decimal.hidden).log2 = 53 := by decide +kernel
    have hshift : (lastExponent (2 * Decimal.hidden) t - t).toNat = 1 := by
      unfold lastExponent
      omega
    rw [hshift, pow_one]
    exact ⟨by decide, by simp, rfl⟩

/-- What rounding does to `m * 2 ^ e`: its coefficient goes up by one at most. -/
theorem round_cases (s : Sign) (m : Nat) (e : Int) (a : Accuracy) {t : Int}
    (ht : t = e + (lastExponent m e - e).toNat) :
    ∃ c, m / 2 ^ (lastExponent m e - e).toNat ≤ c ∧
      c ≤ m / 2 ^ (lastExponent m e - e).toNat + 1 ∧
      ((c = 0 ∧ UnpackedFloat.roundWithAccuracy .binary64 s m e a = .zero s) ∨
        (∃ hc : 0 < c, c < 2 * Decimal.hidden ∧
          UnpackedFloat.roundWithAccuracy .binary64 s m e a = .finite s c t hc) ∨
        (∃ hc : 0 < Decimal.hidden, c = 2 * Decimal.hidden ∧
          UnpackedFloat.roundWithAccuracy .binary64 s m e a =
            .finite s Decimal.hidden (t + 1) hc)) := by
  have hbounds := roundedMantissa_bounds (UnpackedFloat.shiftToTargetExponent .binary64 m e a).1
  have hexp : (UnpackedFloat.shiftToTargetExponent .binary64 m e a).2 = t := by
    rw [shiftToTargetExponent_eq, ht]
  rw [mantissa_shiftToTargetExponent] at hbounds
  have hlow : -1074 ≤ t := by
    have := lastExponent_ge m e
    omega
  have hlt := div_lt_of_lastExponent m e
  refine ⟨_, hbounds.1, hbounds.2, ?_⟩
  obtain ⟨c', t', hc', ht', hcases⟩ := settle_cases
    (c := (UnpackedFloat.shiftToTargetExponent .binary64 m e a).1.roundedMantissa) (by omega) hlow
  have hround : UnpackedFloat.roundWithAccuracy .binary64 s m e a =
      if h : c' = 0 then .zero s else .finite s c' t' (Nat.pos_of_ne_zero h) := by
    subst hc' ht'
    rw [UnpackedFloat.roundWithAccuracy]
    simp only [hexp]
  rw [hround]
  rcases hcases with ⟨rfl, rfl, hlt⟩ | ⟨rfl, rfl, heq⟩
  · by_cases hzero : (UnpackedFloat.shiftToTargetExponent .binary64 m e a).1.roundedMantissa = 0
    · rw [dif_pos hzero]
      exact .inl ⟨hzero, rfl⟩
    · rw [dif_neg hzero]
      exact .inr (.inl ⟨Nat.pos_of_ne_zero hzero, hlt, rfl⟩)
  · rw [dif_neg (by decide)]
    exact .inr (.inr ⟨by decide, heq, rfl⟩)

def number : UnpackedFloat → ℚ
  | .finite s m e _ => s.apply m * ((2 : Nat) : ℚ) ^ e
  | _ => 0

theorem number_finite (s : Sign) {m : Nat} (e : Int) (hm : 0 < m) :
    number (.finite s m e hm) = s.apply m * (2 : ℚ) ^ e := by
  rw [number, Nat.cast_ofNat]

theorem number_zero (s : Sign) : number (.zero s) = 0 := rfl

def unit : ℚ := ((2 : Nat) : ℚ) ^ (971 : Int)

theorem unit_eq : unit = (2 : ℚ) ^ (971 : Int) := by rw [unit, Nat.cast_ofNat]

theorem unit_pos : 0 < unit := by
  rw [unit_eq]
  positivity

def greatest : ℚ := ((9007199254740991 : Nat) : ℚ) * unit

theorem greatest_eq : greatest = 9007199254740991 * unit := by rw [greatest, Nat.cast_ofNat]

theorem greatest_pos : 0 < greatest := by
  rw [greatest_eq]
  exact mul_pos (by norm_num) unit_pos

theorem greatest_le : greatest ≤ (2 : ℚ) ^ (1024 : Int) := by
  have hpow : (2 : ℚ) ^ (1024 : Int) = 9007199254740992 * 2 ^ (971 : Int) := by
    rw [show (1024 : Int) = 53 + 971 by norm_num, zpow_add₀ (by norm_num)]
    norm_num
  rw [hpow, greatest_eq, unit_eq]
  exact mul_le_mul_of_nonneg_right (by norm_num) (by positivity)

theorem two_zpow_le {a b : Int} (h : a ≤ b) : (2 : ℚ) ^ a ≤ 2 ^ b :=
  zpow_le_zpow_right₀ (by norm_num) h

def HasMagnitude (s : Sign) (w : ℚ) (u : UnpackedFloat) : Prop :=
  (u = .zero s ∧ w = 0) ∨ ∃ c t hc, u = .finite s c t hc ∧ w = c * ((2 : Nat) : ℚ) ^ t

section Magnitudes

variable {s : Sign} {w : ℚ} {u : UnpackedFloat}

theorem HasMagnitude.nonneg (h : HasMagnitude s w u) : 0 ≤ w := by
  rcases h with ⟨_, rfl⟩ | ⟨c, t, _, _, rfl⟩
  · exact le_rfl
  · positivity

theorem HasMagnitude.isFinite (h : HasMagnitude s w u) : u.isFinite = true := by
  rcases h with ⟨rfl, _⟩ | ⟨c, t, _, rfl, _⟩
  · rfl
  · rfl

theorem HasMagnitude.number_positive (h : HasMagnitude .positive w u) : number u = w := by
  rcases h with ⟨rfl, rfl⟩ | ⟨c, t, hc, rfl, rfl⟩
  · rfl
  · rw [number, Sign.apply, Int.cast_natCast]

theorem HasMagnitude.number_negative (h : HasMagnitude .negative w u) : number u = -w := by
  rcases h with ⟨rfl, rfl⟩ | ⟨c, t, hc, rfl, rfl⟩
  · rw [neg_zero]
    rfl
  · rw [number, Sign.apply, Int.cast_neg, Int.cast_natCast, neg_mul]

end Magnitudes

theorem abs_sub_le_of_div {m c k : Nat} {e t : Int} (ht : t = e + k) (hlow : m / 2 ^ k ≤ c)
    (hhigh : c ≤ m / 2 ^ k + 1) : |(c : ℚ) * 2 ^ t - m * 2 ^ e| ≤ 2 ^ t := by
  have hpow : (2 : ℚ) ^ t = 2 ^ k * 2 ^ e := by
    rw [ht, zpow_add₀ (by norm_num), zpow_natCast, mul_comm]
  have hmod := Nat.div_add_mod m (2 ^ k)
  have hlt := Nat.mod_lt m (show 2 ^ k > 0 by positivity)
  have hlow' : 2 ^ k * (m / 2 ^ k) ≤ 2 ^ k * c := Nat.mul_le_mul_left _ hlow
  have hhigh' : 2 ^ k * c ≤ 2 ^ k * (m / 2 ^ k) + 2 ^ k := by
    rw [← Nat.mul_succ]
    exact Nat.mul_le_mul_left _ hhigh
  have hbelow : (m : ℚ) ≤ 2 ^ k * c + 2 ^ k := by
    exact_mod_cast (by omega : m ≤ 2 ^ k * c + 2 ^ k)
  have habove : (2 : ℚ) ^ k * c ≤ m + 2 ^ k := by
    exact_mod_cast (by omega : 2 ^ k * c ≤ m + 2 ^ k)
  have hpos : (0 : ℚ) < 2 ^ e := by positivity
  rw [hpow, abs_le]
  constructor <;> nlinarith

theorem hidden_le_of_lastExponent {m : Nat} (hm : 0 < m) {e : Int} (he : e ≤ lastExponent m e)
    (hlarge : -1074 < lastExponent m e) :
    Decimal.hidden ≤ m / 2 ^ (lastExponent m e - e).toNat ∧
      (2 : ℚ) ^ (lastExponent m e + 52) ≤ m * 2 ^ e := by
  have hlast : lastExponent m e = (m.log2 : Int) + e - 52 := by
    unfold lastExponent at hlarge ⊢
    omega
  have hlog : 2 ^ m.log2 ≤ m := Nat.log2_self_le hm.ne'
  have hshift : m.log2 = 52 + (lastExponent m e - e).toNat := by omega
  constructor
  · rw [Nat.le_div_iff_mul_le (by positivity), Decimal.hidden_eq]
    calc 4503599627370496 * 2 ^ (lastExponent m e - e).toNat
        = 2 ^ m.log2 := by
          rw [hshift, pow_add]
          norm_num
      _ ≤ m := hlog
  · have hpow : (2 : ℚ) ^ (lastExponent m e + 52) = ((2 ^ m.log2 : Nat) : ℚ) * 2 ^ e := by
      rw [hlast, Nat.cast_pow, Nat.cast_ofNat, ← zpow_natCast, ← zpow_add₀ (by norm_num)]
      congr 1
      omega
    have hcast : ((2 ^ m.log2 : Nat) : ℚ) ≤ m := by exact_mod_cast hlog
    rw [hpow]
    exact mul_le_mul_of_nonneg_right hcast (by positivity)

/-- Rounding a positive number: the result is off by the last bit of the greatest doubles at most,
or it is infinite because the number lies at the greatest double or beyond. -/
theorem round_magnitude (s : Sign) {m : Nat} (hm : 0 < m) {e : Int} (he : e ≤ lastExponent m e)
    {u : UnpackedFloat} (hu : u = kept (UnpackedFloat.roundWithAccuracy .binary64 s m e .exact)) :
    (∃ w, HasMagnitude s w u ∧ |w - m * 2 ^ e| ≤ unit) ∨
      (u = .infinity s ∧ greatest ≤ m * 2 ^ e) := by
  obtain ⟨c, hlow, hhigh, hcases⟩ := round_cases s m e .exact rfl
  have ht : e + ((lastExponent m e - e).toNat : Int) = lastExponent m e := by omega
  have herror := abs_sub_le_of_div ht.symm hlow hhigh
  rw [ht] at hcases
  have hmin := lastExponent_ge m e
  have hfull : Decimal.hidden ≤ c ∨ lastExponent m e = -1074 := by
    by_cases hlarge : -1074 < lastExponent m e
    · exact .inl ((hidden_le_of_lastExponent hm he hlarge).1.trans hlow)
    · exact .inr (by omega)
  rcases hcases with ⟨rfl, hround⟩ | ⟨hc, hlt, hround⟩ | ⟨hc, rfl, hround⟩
  · -- nothing is left of a small number
    have hsmall : lastExponent m e = -1074 := hfull.resolve_left (by decide)
    refine .inl ⟨0, .inl ⟨?_, rfl⟩, ?_⟩
    · rw [hu, hround, kept_zero]
    · rw [Nat.cast_zero, zero_mul] at herror
      rw [unit_eq]
      exact herror.trans (two_zpow_le (by omega))
  · by_cases hover : lastExponent m e ≤ 971
    · refine .inl ⟨c * 2 ^ lastExponent m e, .inr ⟨c, _, hc, ?_, by rw [Nat.cast_ofNat]⟩, ?_⟩
      · rw [hu, hround]
        exact kept_of_isDouble s hc ⟨hc, hlt, hmin, hover, hfull⟩
      · rw [unit_eq]
        exact herror.trans (two_zpow_le hover)
    · refine .inr ⟨?_, ?_⟩
      · rw [hu, hround]
        exact kept_of_large s hc (by omega)
      · have hbig := (hidden_le_of_lastExponent hm he (by omega)).2
        exact greatest_le.trans ((two_zpow_le (by omega)).trans hbig)
  · -- the coefficient has become one bit longer
    have hcarry : ((2 * Decimal.hidden : Nat) : ℚ) * 2 ^ lastExponent m e =
        Decimal.hidden * 2 ^ (lastExponent m e + 1) := by
      rw [zpow_add₀ (by norm_num)]
      push_cast
      ring
    by_cases hover : lastExponent m e + 1 ≤ 971
    · rw [hcarry] at herror
      refine .inl ⟨Decimal.hidden * 2 ^ (lastExponent m e + 1),
        .inr ⟨_, _, hc, ?_, by rw [Nat.cast_ofNat]⟩, ?_⟩
      · rw [hu, hround]
        exact kept_of_isDouble s hc ⟨hc, by decide, by omega, hover, .inl le_rfl⟩
      · rw [unit_eq]
        exact herror.trans (two_zpow_le (by omega))
    · refine .inr ⟨?_, ?_⟩
      · rw [hu, hround]
        exact kept_of_large s hc (by omega)
      · have hunit : unit ≤ 2 ^ lastExponent m e := by
          rw [unit_eq]
          exact two_zpow_le (by omega)
        have hbelow := (abs_le.mp herror).2
        rw [Decimal.hidden_eq] at hbelow
        push_cast at hbelow
        rw [greatest_eq]
        linarith

/-- A double for a number: next to it and on the same side of zero, or infinite because the number
lies at the greatest double or beyond. -/
inductive Approximates (u : UnpackedFloat) (q : ℚ) : Prop where
  | near (finite : u.isFinite = true) (error : |number u - q| ≤ unit)
      (nonneg : 0 ≤ q → 0 ≤ number u) (nonpos : q ≤ 0 → number u ≤ 0)
  | above (infinite : u = .infinity .positive) (large : greatest ≤ q)
  | below (infinite : u = .infinity .negative) (large : q ≤ -greatest)

theorem approximates_number {u : UnpackedFloat} (hu : u.isFinite = true) :
    Approximates u (number u) := by
  refine .near hu ?_ id id
  rw [sub_self, abs_zero]
  exact unit_pos.le

theorem approximates_zero (s : Sign) : Approximates (kept (.zero s)) 0 := by
  rw [kept_zero]
  exact approximates_number (u := .zero s) rfl

theorem approximates_roundWithAccuracy (s : Sign) {m : Nat} (hm : 0 < m) {e : Int}
    (he : e ≤ lastExponent m e) :
    Approximates (kept (UnpackedFloat.roundWithAccuracy .binary64 s m e .exact))
      (s.apply m * 2 ^ e) := by
  have hpos : (0 : ℚ) < m * 2 ^ e := by positivity
  cases s with
  | positive =>
    rw [Sign.apply, Int.cast_natCast]
    rcases round_magnitude .positive hm he rfl with ⟨w, hw, herror⟩ | ⟨hinfinite, hlarge⟩
    · refine .near hw.isFinite ?_ (fun _ => ?_) fun hq => absurd hpos (not_lt.mpr hq)
      · rwa [hw.number_positive]
      · rw [hw.number_positive]
        exact hw.nonneg
    · exact .above hinfinite hlarge
  | negative =>
    rw [Sign.apply, Int.cast_neg, Int.cast_natCast, neg_mul]
    rcases round_magnitude .negative hm he rfl with ⟨w, hw, herror⟩ | ⟨hinfinite, hlarge⟩
    · refine .near hw.isFinite ?_ (fun hq => ?_) fun _ => ?_
      · rwa [hw.number_negative, sub_neg_eq_add, neg_add_eq_sub, abs_sub_comm]
      · linarith
      · rw [hw.number_negative]
        linarith [hw.nonneg]
    · exact .below hinfinite (by linarith)

theorem apply_mul (s t : Sign) (a b : Int) : (s * t).apply (a * b) = s.apply a * t.apply b := by
  cases s with
  | negative =>
    cases t with
    | negative => exact (neg_mul_neg a b).symm
    | positive => exact (neg_mul a b).symm
  | positive =>
    cases t with
    | negative => exact (mul_neg a b).symm
    | positive => rfl

theorem lastExponent_mul {m m' : Nat} {e e' : Int} (h : Decimal.IsDouble m e)
    (h' : Decimal.IsDouble m' e') : e + e' ≤ lastExponent (m * m') (e + e') := by
  have hlog : Decimal.hidden ≤ m ∨ Decimal.hidden ≤ m' → 52 ≤ (m * m').log2 := by
    intro hfull
    rw [Nat.le_log2 (Nat.mul_pos h.pos h'.pos).ne']
    rcases hfull with hfull | hfull
    · exact hfull.trans (Nat.le_mul_of_pos_right m h'.pos)
    · exact hfull.trans (Nat.le_mul_of_pos_left m' h.pos)
  unfold lastExponent
  rcases h.full with hfull | hmin
  · have := hlog (.inl hfull)
    omega
  · rcases h'.full with hfull' | hmin'
    · have := hlog (.inr hfull')
      omega
    · omega

section Operations

variable {u v : UnpackedFloat}

theorem approximates_mul (hu : u.isFinite = true) (hv : v.isFinite = true) (hcu : Canonical u)
    (hcv : Canonical v) :
    Approximates (kept (UnpackedFloat.mul .binary64 u v)) (number u * number v) := by
  cases u with
  | notANumber => cases hu
  | infinity s => cases hu
  | zero s =>
    rw [number_zero, zero_mul]
    cases v with
    | notANumber => cases hv
    | infinity t => cases hv
    | zero t => exact approximates_zero _
    | finite t m e hm => exact approximates_zero _
  | finite s m e hm =>
    cases v with
    | notANumber => cases hv
    | infinity t => cases hv
    | zero t =>
      rw [number_zero, mul_zero]
      exact approximates_zero _
    | finite t m' e' hm' =>
      have hround := approximates_roundWithAccuracy (s * t) (Nat.mul_pos hm hm')
        (lastExponent_mul (hcu s m e hm rfl) (hcv t m' e' hm' rfl))
      have hnumber : ((s * t).apply (m * m' : Nat) : ℚ) * 2 ^ (e + e') =
          number (.finite s m e hm) * number (.finite t m' e' hm') := by
        rw [number_finite, number_finite, zpow_add₀ (by norm_num), Nat.cast_mul, apply_mul]
        push_cast
        ring
      rw [← hnumber]
      exact hround

theorem log2_shiftLeft {m : Nat} (hm : 0 < m) (k : Nat) : (m <<< k).log2 = m.log2 + k := by
  rw [Nat.shiftLeft_eq, Nat.log2_eq_iff (by positivity)]
  constructor
  · rw [pow_add]
    exact Nat.mul_le_mul_right _ (Nat.log2_self_le hm.ne')
  · rw [show m.log2 + k + 1 = m.log2 + 1 + k by omega, pow_add]
    exact Nat.mul_lt_mul_of_pos_right Nat.lt_log2_self (by positivity)

theorem apply_shiftLeft (s : Sign) (m k : Nat) (e : Int) :
    (s.apply (m <<< k : Nat) : ℚ) * 2 ^ (e - k) = s.apply m * 2 ^ e := by
  have hshift : ((m <<< k : Nat) : ℚ) * 2 ^ (e - k) = m * 2 ^ e := by
    rw [Nat.shiftLeft_eq, Nat.cast_mul, Nat.cast_pow, Nat.cast_ofNat, zpow_sub₀ (by norm_num),
      zpow_natCast]
    field_simp
  cases s with
  | positive => rw [Sign.apply, Sign.apply, Int.cast_natCast, Int.cast_natCast, hshift]
  | negative =>
    rw [Sign.apply, Sign.apply, Int.cast_neg, Int.cast_neg, Int.cast_natCast, Int.cast_natCast,
      neg_mul, hshift, neg_mul]

theorem approximates_round (s : Sign) {m : Nat} (hm : 0 < m) (e : Int) :
    Approximates (kept (UnpackedFloat.round .binary64 s m e)) (s.apply m * 2 ^ e) := by
  have hpos : 0 < m <<< (e - lastExponent m e).toNat := by
    rw [Nat.shiftLeft_eq]
    positivity
  have hlast : lastExponent (m <<< (e - lastExponent m e).toNat)
      (e - (e - lastExponent m e).toNat) = lastExponent m e := by
    rw [lastExponent, log2_shiftLeft hm]
    unfold lastExponent
    omega
  have hround := approximates_roundWithAccuracy s hpos
    (e := e - (e - lastExponent m e).toNat) (by rw [hlast]; omega)
  rw [apply_shiftLeft] at hround
  rw [UnpackedFloat.round, targetExponent_eq]
  exact hround

theorem approximates_normalize (n : Int) (e : Int) :
    Approximates (kept (UnpackedFloat.normalize .binary64 n e .positive)) (n * 2 ^ e) := by
  rw [UnpackedFloat.normalize]
  cases hsign : compare n 0 with
  | lt =>
    have hneg : n < 0 := by rwa [compare_lt_iff_lt] at hsign
    have hround := approximates_round .negative (m := (-n).toNat) (by omega) e
    rw [Sign.apply, Int.toNat_of_nonneg (by omega), neg_neg] at hround
    exact hround
  | eq =>
    have hzero : n = 0 := by rwa [compare_eq_iff_eq] at hsign
    rw [hzero, Int.cast_zero, zero_mul]
    exact approximates_zero _
  | gt =>
    have hpos : 0 < n := by rwa [compare_gt_iff_gt] at hsign
    have hround := approximates_round .positive (m := n.toNat) (by omega) e
    rw [Sign.apply, Int.toNat_of_nonneg (by omega)] at hround
    exact hround

theorem approximates_add (hu : u.isFinite = true) (hv : v.isFinite = true) (hcu : Canonical u)
    (hcv : Canonical v) :
    Approximates (kept (UnpackedFloat.add .binary64 u v)) (number u + number v) := by
  cases u with
  | notANumber => cases hu
  | infinity s => cases hu
  | zero s =>
    rw [number_zero, zero_add]
    cases v with
    | notANumber => cases hv
    | infinity t => cases hv
    | zero t =>
      rw [number_zero]
      change Approximates (kept (if s == t then .zero s else .zero .positive)) 0
      split
      · exact approximates_zero _
      · exact approximates_zero _
    | finite t m e hm =>
      change Approximates (kept (.finite t m e hm)) _
      rw [kept_of_canonical hcv]
      exact approximates_number hv
  | finite s m e hm =>
    cases v with
    | notANumber => cases hv
    | infinity t => cases hv
    | zero t =>
      rw [number_zero, add_zero]
      change Approximates (kept (.finite s m e hm)) _
      rw [kept_of_canonical hcu]
      exact approximates_number hu
    | finite t m' e' hm' =>
      have hsum := approximates_normalize
        (s.apply (m <<< (e - min e e').toNat : Nat) + t.apply (m' <<< (e' - min e e').toNat : Nat))
        (min e e')
      have hleft := apply_shiftLeft s m (e - min e e').toNat e
      have hright := apply_shiftLeft t m' (e' - min e e').toNat e'
      rw [show e - ((e - min e e').toNat : Int) = min e e' by omega] at hleft
      rw [show e' - ((e' - min e e').toNat : Int) = min e e' by omega] at hright
      rw [Int.cast_add, add_mul, hleft, hright] at hsum
      rw [number_finite, number_finite]
      exact hsum

end Operations

end DualRail.Double
