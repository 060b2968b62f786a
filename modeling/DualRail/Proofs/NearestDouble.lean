import Mathlib
import DualRail.Decimal.Digits

/-!
Rounding to the nearest double. A quotient stands for a rational number, and scaling, comparing and
rounding do to that number what their names say. Every number in the basin of a double, the interval
between the midpoints to its neighbours, is rounded to that double.
-/

namespace DualRail.Decimal

namespace Ratio

def value (r : Ratio) : ℚ := r.num / r.den

section Values

variable {r s : Ratio} {base : Nat}

theorem den_scale_pos (hb : 0 < base) (hr : 0 < r.den) (k : Int) : 0 < (r.scale base k).den := by
  cases k with
  | ofNat n => exact hr
  | negSucc n => exact Nat.mul_pos hr (Nat.pow_pos hb)

theorem value_scale (hb : 0 < base) (k : Int) (r : Ratio) :
    (r.scale base k).value = r.value * (base : ℚ) ^ k := by
  have hbase : (base : ℚ) ≠ 0 := by exact_mod_cast hb.ne'
  cases k with
  | ofNat n =>
    simp only [scale, value, Nat.pow_eq, Nat.cast_mul, Nat.cast_pow, Int.ofNat_eq_natCast,
      zpow_natCast]
    ring
  | negSucc n =>
    simp only [scale, value, Nat.pow_eq, Nat.cast_mul, Nat.cast_pow, zpow_negSucc]
    rw [div_mul_eq_div_div, div_eq_mul_inv (_ / _)]

theorem value_scale_nat (hb : 0 < base) (k : Int) (n : Nat) :
    (scale base k ⟨n, 1⟩).value = n * (base : ℚ) ^ k := by
  rw [value_scale hb, value, Nat.cast_one, div_one]

theorem lt_iff (hr : 0 < r.den) (hs : 0 < s.den) : r.lt s = true ↔ r.value < s.value := by
  have hr' : (0 : ℚ) < r.den := by exact_mod_cast hr
  have hs' : (0 : ℚ) < s.den := by exact_mod_cast hs
  rw [value, value, div_lt_div_iff₀ hr' hs', lt, decide_eq_true_eq]
  exact_mod_cast Iff.rfl

theorem le_iff (hr : 0 < r.den) (hs : 0 < s.den) : r.le s = true ↔ r.value ≤ s.value := by
  have hr' : (0 : ℚ) < r.den := by exact_mod_cast hr
  have hs' : (0 : ℚ) < s.den := by exact_mod_cast hs
  rw [value, value, div_le_div_iff₀ hr' hs', le, decide_eq_true_eq]
  exact_mod_cast Iff.rfl

theorem num_pos (h : 0 < r.value) : 0 < r.num := by
  by_contra hzero
  rw [value, Nat.eq_zero_of_not_pos hzero, Nat.cast_zero, zero_div] at h
  exact lt_irrefl 0 h

theorem exists_fraction (hr : 0 < r.den) :
    ∃ f : ℚ, r.value = ((r.num / r.den : Nat) : ℚ) + f ∧ 0 ≤ f ∧ f < 1 ∧
      (2 * (r.num % r.den) < r.den ↔ 2 * f < 1) ∧ (r.den < 2 * (r.num % r.den) ↔ 1 < 2 * f) := by
  have hr' : (0 : ℚ) < r.den := by exact_mod_cast hr
  have hsplit : (r.num : ℚ) =
      ((r.num / r.den : Nat) : ℚ) * r.den + ((r.num % r.den : Nat) : ℚ) := by
    exact_mod_cast (Nat.div_add_mod' r.num r.den).symm
  refine ⟨((r.num % r.den : Nat) : ℚ) / r.den, ?_, by positivity, ?_, ?_, ?_⟩
  · rw [value, hsplit, add_div, mul_div_cancel_right₀ _ hr'.ne']
  · rw [div_lt_one hr']
    exact_mod_cast Nat.mod_lt _ hr
  · rw [← mul_div_assoc, div_lt_one hr']
    exact_mod_cast Iff.rfl
  · rw [← mul_div_assoc, one_lt_div hr']
    exact_mod_cast Iff.rfl

theorem round_cases (hr : 0 < r.den) :
    (r.value < r.round + 1 / 2 ∧ (r.round : ℚ) - 1 / 2 < r.value) ∨
      (r.round % 2 = 0 ∧ (r.value = r.round + 1 / 2 ∨ r.value = r.round - 1 / 2)) := by
  obtain ⟨f, hf, hzero, hone, hless, hmore⟩ := exists_fraction hr
  unfold round
  simp only
  rw [hf]
  generalize r.num / r.den = q
  by_cases hlow : 2 * f < 1
  · rw [if_pos (hless.mpr hlow)]
    exact .inl ⟨by linarith, by linarith⟩
  · rw [if_neg (mt hless.mp hlow)]
    by_cases hhigh : 1 < 2 * f
    · rw [if_pos (hmore.mpr hhigh)]
      push_cast
      exact .inl ⟨by linarith, by linarith⟩
    · rw [if_neg (mt hmore.mp hhigh)]
      have hhalf : f = 1 / 2 := by linarith
      rcases Nat.mod_two_eq_zero_or_one q with heven | hodd
      · rw [heven, Nat.add_zero]
        exact .inr ⟨heven, .inl (by rw [hhalf])⟩
      · rw [hodd]
        push_cast
        exact .inr ⟨by omega, .inr (by rw [hhalf]; ring)⟩

theorem round_bounds (hr : 0 < r.den) :
    (r.round : ℚ) - 1 / 2 ≤ r.value ∧ r.value ≤ r.round + 1 / 2 := by
  rcases round_cases hr with ⟨hlow, hhigh⟩ | ⟨-, hmid | hmid⟩ <;> constructor <;> linarith

/-- A number within half a unit of `n` is rounded to `n`, a midpoint only if `n` is even. -/
theorem round_eq {n : Nat} (hr : 0 < r.den) (hlow : (n : ℚ) - 1 / 2 ≤ r.value)
    (hhigh : r.value ≤ n + 1 / 2)
    (hodd : n % 2 = 1 → (n : ℚ) - 1 / 2 < r.value ∧ r.value < n + 1 / 2) : r.round = n := by
  obtain ⟨hround, hround'⟩ := round_bounds hr
  -- Both lie within half a unit, so they are at most one apart.
  have hle : (r.round : ℚ) ≤ (n + 1 : Nat) := by push_cast; linarith
  have hge : (n : ℚ) ≤ (r.round + 1 : Nat) := by push_cast; linarith
  have hle' : r.round ≤ n + 1 := by exact_mod_cast hle
  have hge' : n ≤ r.round + 1 := by exact_mod_cast hge
  by_contra hne
  have hapart : r.round = n + 1 ∨ n = r.round + 1 := by omega
  -- One apart, the number is the midpoint between them, and only one of them is even.
  have hmid : r.value = n + 1 / 2 ∨ r.value = n - 1 / 2 := by
    rcases hapart with h | h
    · left
      rw [h] at hround
      push_cast at hround
      linarith
    · right
      rw [h] at hlow ⊢
      push_cast at hlow ⊢
      linarith
  have heven : n % 2 = 0 := by
    by_contra hn
    obtain ⟨h₁, h₂⟩ := hodd (by omega)
    rcases hmid with h | h <;> linarith
  rcases round_cases hr with ⟨h₁, h₂⟩ | ⟨hzero, -⟩
  · rcases hapart with h | h
    · rw [h] at h₁ h₂
      push_cast at h₁ h₂
      rcases hmid with h' | h' <;> linarith
    · have hn : (n : ℚ) = r.round + 1 := by exact_mod_cast h
      rcases hmid with h' | h' <;> linarith
  · omega

end Values

section Powers

variable {r : Ratio} {base : Nat}

theorem digitCount_bounds (hb : 1 < base) {n : Nat} (hn : 0 < n) :
    base ^ (digitCount base n - 1) ≤ n ∧ n < base ^ digitCount base n := by
  have hpos : 0 < digitCount base n := Nat.length_toDigits_pos
  constructor
  · by_contra hlt
    by_cases hone : digitCount base n = 1
    · rw [hone, Nat.sub_self, pow_zero] at hlt
      omega
    · have hle := (Nat.length_toDigits_le_iff hb (show 0 < digitCount base n - 1 by omega)).mpr
        (Nat.not_le.mp hlt)
      change digitCount base n ≤ _ at hle
      omega
  · exact (Nat.length_toDigits_le_iff hb hpos).mp (Nat.le_refl _)

theorem zpow_unique (hb : 1 < base) {v : ℚ} {a b : Int} (ha : (base : ℚ) ^ a ≤ v)
    (ha' : v < (base : ℚ) ^ (a + 1)) (hb' : (base : ℚ) ^ b ≤ v) (hb'' : v < (base : ℚ) ^ (b + 1)) :
    a = b := by
  have hbase : (1 : ℚ) < base := by exact_mod_cast hb
  have h₁ : a < b + 1 := (zpow_lt_zpow_iff_right₀ hbase).mp (ha.trans_lt hb'')
  have h₂ : b < a + 1 := (zpow_lt_zpow_iff_right₀ hbase).mp (hb'.trans_lt ha')
  omega

theorem value_bounds (hb : 1 < base) {i j : Nat} (hi : base ^ i ≤ r.num)
    (hi' : r.num < base ^ (i + 1)) (hj : base ^ j ≤ r.den) (hj' : r.den < base ^ (j + 1)) :
    (base : ℚ) ^ ((i : Int) - j - 1) ≤ r.value ∧ r.value < (base : ℚ) ^ ((i : Int) - j + 1) := by
  have hbase : (0 : ℚ) < base := by exact_mod_cast Nat.zero_lt_of_lt hb
  have hden : (0 : ℚ) < r.den := by exact_mod_cast Nat.lt_of_lt_of_le (Nat.pow_pos (by omega)) hj
  have hnum : (base : ℚ) ^ (i : Int) ≤ r.num := by rw [zpow_natCast]; exact_mod_cast hi
  have hnum' : (r.num : ℚ) < (base : ℚ) ^ ((i : Int) + 1) := by exact_mod_cast hi'
  have hden' : (base : ℚ) ^ (j : Int) ≤ r.den := by rw [zpow_natCast]; exact_mod_cast hj
  have hden'' : (r.den : ℚ) < (base : ℚ) ^ ((j : Int) + 1) := by exact_mod_cast hj'
  unfold value
  constructor
  · rw [le_div_iff₀ hden]
    calc (base : ℚ) ^ ((i : Int) - j - 1) * r.den
        ≤ (base : ℚ) ^ ((i : Int) - j - 1) * (base : ℚ) ^ ((j : Int) + 1) := by gcongr
      _ = (base : ℚ) ^ (i : Int) := by rw [← zpow_add₀ hbase.ne']; congr 1; ring
      _ ≤ r.num := hnum
  · rw [div_lt_iff₀ hden]
    calc (r.num : ℚ) < (base : ℚ) ^ ((i : Int) + 1) := hnum'
      _ = (base : ℚ) ^ ((i : Int) - j + 1) * (base : ℚ) ^ (j : Int) := by
        rw [← zpow_add₀ hbase.ne']; congr 1; ring
      _ ≤ (base : ℚ) ^ ((i : Int) - j + 1) * r.den := by gcongr

/-- An exponent that is right or one too great is settled by one comparison. -/
theorem settled_exponent (hb : 1 < base) (hr : 0 < r.den) {e : Int}
    (hlow : (base : ℚ) ^ (e - 1) ≤ r.value) (hhigh : r.value < (base : ℚ) ^ (e + 1)) {t : Int}
    (ht : t = if (r.scale base (-e)).num < (r.scale base (-e)).den then e - 1 else e) :
    (base : ℚ) ^ t ≤ r.value ∧ r.value < (base : ℚ) ^ (t + 1) := by
  have hbase : (0 : ℚ) < base := by exact_mod_cast Nat.zero_lt_of_lt hb
  have hden := den_scale_pos (Nat.zero_lt_of_lt hb) hr (-e)
  have hden' : (0 : ℚ) < (r.scale base (-e)).den := by exact_mod_cast hden
  have htest : (r.scale base (-e)).num < (r.scale base (-e)).den ↔ r.value < (base : ℚ) ^ e := by
    have hone : (r.scale base (-e)).num < (r.scale base (-e)).den ↔
        (r.scale base (-e)).value < 1 := by
      rw [value, div_lt_one hden']
      exact_mod_cast Iff.rfl
    rw [hone, value_scale (Nat.zero_lt_of_lt hb), zpow_neg, ← div_eq_mul_inv,
      div_lt_one (zpow_pos hbase e)]
  by_cases h : r.value < (base : ℚ) ^ e
  · rw [if_pos (htest.mpr h)] at ht
    subst ht
    exact ⟨hlow, by rwa [Int.sub_add_cancel]⟩
  · rw [if_neg (mt htest.mp h)] at ht
    subst ht
    exact ⟨not_lt.mp h, hhigh⟩

theorem magnitude_bounds (hb : 1 < base) (hn : 0 < r.num) (hr : 0 < r.den) :
    (base : ℚ) ^ r.magnitude base ≤ r.value ∧ r.value < (base : ℚ) ^ (r.magnitude base + 1) := by
  obtain ⟨hi, hi'⟩ := digitCount_bounds hb hn
  obtain ⟨hj, hj'⟩ := digitCount_bounds hb hr
  have hpos : 0 < digitCount base r.num := Nat.length_toDigits_pos
  have hpos' : 0 < digitCount base r.den := Nat.length_toDigits_pos
  rw [← Nat.sub_add_cancel hpos] at hi'
  rw [← Nat.sub_add_cancel hpos'] at hj'
  obtain ⟨hlow, hhigh⟩ := value_bounds hb hi hi' hj hj'
  have he : ((digitCount base r.num - 1 : Nat) : Int) - (digitCount base r.den - 1 : Nat) =
      (digitCount base r.num : Int) - digitCount base r.den := by omega
  rw [he] at hlow hhigh
  exact settled_exponent hb hr hlow hhigh rfl

end Powers

end Ratio

theorem nearestMagnitude_eq {r : Ratio} (hn : 0 < r.num) (hr : 0 < r.den) {top : Int}
    (hlow : (2 : ℚ) ^ top ≤ r.value) (hhigh : r.value < (2 : ℚ) ^ (top + 1)) :
    nearestMagnitude r =
      let exponent := Max.max (top - 52) (-1074)
      let bits := (exponent + 1074).toNat * hidden + (r.scale 2 (-exponent)).round
      if bits < 2047 * hidden then some bits else none := by
  obtain ⟨h₁, h₂⟩ := @Ratio.value_bounds r 2 (by decide) _ _ (Nat.log2_self_le hn.ne')
    Nat.lt_log2_self (Nat.log2_self_le hr.ne') Nat.lt_log2_self
  obtain ⟨h₃, h₄⟩ := Ratio.settled_exponent (by decide) hr h₁ h₂ rfl
  have htop := @Ratio.zpow_unique 2 (by decide) _ _ _ h₃ h₄ hlow hhigh
  unfold nearestMagnitude
  rw [if_neg hn.ne']
  simp only
  rw [htop]

theorem value_magnitudeOf (n : Nat) (e : Int) : (magnitudeOf n e).value = n * (2 : ℚ) ^ e :=
  Ratio.value_scale_nat (by decide) e n

theorem den_magnitudeOf_pos (n : Nat) (e : Int) : 0 < (magnitudeOf n e).den :=
  Ratio.den_scale_pos (by decide) Nat.zero_lt_one e

structure IsDouble (coefficient : Nat) (exponent : Int) : Prop where
  pos : 0 < coefficient
  lt : coefficient < 2 * hidden
  low : -1074 ≤ exponent
  high : exponent ≤ 971
  full : hidden ≤ coefficient ∨ exponent = -1074

/-- How far the basin of a double reaches down, in quarters of the last bit. -/
def lowerReach (coefficient : Nat) (exponent : Int) : Nat :=
  if coefficient = hidden && (-1074 : Int) < exponent then 1 else 2

/-- The number, measured in the last bit of the double, is in the basin of the double. -/
structure InBasin (coefficient : Nat) (exponent : Int) (v : ℚ) : Prop where
  low : (coefficient : ℚ) - lowerReach coefficient exponent / 4 ≤ v / 2 ^ exponent
  high : v / 2 ^ exponent ≤ coefficient + 1 / 2
  odd : coefficient % 2 = 1 →
    (coefficient : ℚ) - 1 / 2 < v / 2 ^ exponent ∧ v / 2 ^ exponent < coefficient + 1 / 2

section Basins

variable {c : Nat} {e : Int} {v : ℚ}

theorem hidden_eq : hidden = 4503599627370496 := rfl

theorem lowerReach_cases (c : Nat) (e : Int) :
    lowerReach c e = 2 ∨ lowerReach c e = 1 ∧ c = hidden ∧ -1074 < e := by
  unfold lowerReach
  split
  · rename_i h
    rw [Bool.and_eq_true, decide_eq_true_eq, decide_eq_true_eq] at h
    exact .inr ⟨rfl, h⟩
  · exact .inl rfl

theorem InBasin.half (h : InBasin c e v) : (c : ℚ) - 1 / 2 ≤ v / 2 ^ e := by
  have hlow := h.low
  rcases lowerReach_cases c e with heq | ⟨heq, -⟩ <;> rw [heq] at hlow <;> push_cast at hlow <;>
    linarith

theorem InBasin.pos (hc : IsDouble c e) (h : InBasin c e v) : 0 < v := by
  have htwo : (0 : ℚ) < 2 ^ e := zpow_pos (by norm_num) e
  have hone : (1 : ℚ) ≤ c := by exact_mod_cast hc.pos
  have hhalf := h.half
  have hpos : 0 < v / 2 ^ e := by linarith
  exact (div_pos_iff_of_pos_right htwo).mp hpos

theorem InBasin.coefficient_pos (hc : IsDouble c e) {n : Nat} {k : Int}
    (h : InBasin c e (n * 10 ^ k)) : 0 < n := by
  by_contra hzero
  have hpos := h.pos hc
  rw [Nat.eq_zero_of_not_pos hzero, Nat.cast_zero, zero_mul] at hpos
  exact lt_irrefl 0 hpos

theorem contains_basin_iff {r : Ratio} (hr : 0 < r.den) (hc : 0 < c) :
    (Digits.basin c e).contains r = true ↔ InBasin c e r.value := by
  have htwo : (0 : ℚ) < 2 ^ e := zpow_pos (by norm_num) e
  have hquarter : (2 : ℚ) ^ (e - 2) = 2 ^ e / 4 := by
    rw [zpow_sub₀ (by norm_num)]
    norm_num
  have hreach : lowerReach c e ≤ 4 * c := by
    rcases lowerReach_cases c e with h | ⟨h, -⟩ <;> rw [h] <;> omega
  have hlow : (Digits.basin c e).low.value = ((c : ℚ) - lowerReach c e / 4) * 2 ^ e := by
    change (magnitudeOf (4 * c - lowerReach c e) (e - 2)).value = _
    rw [value_magnitudeOf, hquarter, Nat.cast_sub hreach]
    push_cast
    ring
  have hhigh : (Digits.basin c e).high.value = ((c : ℚ) + 1 / 2) * 2 ^ e := by
    change (magnitudeOf (4 * c + 2) (e - 2)).value = _
    rw [value_magnitudeOf, hquarter]
    push_cast
    ring
  have hlow' : 0 < (Digits.basin c e).low.den := den_magnitudeOf_pos _ _
  have hhigh' : 0 < (Digits.basin c e).high.den := den_magnitudeOf_pos _ _
  have hclosed : (Digits.basin c e).closed = (c % 2 == 0) := rfl
  unfold Digits.Basin.contains
  rcases Nat.mod_two_eq_zero_or_one c with heven | hodd
  · rw [hclosed, if_pos (by rw [heven]; rfl), Bool.and_eq_true, Ratio.le_iff hlow' hr,
      Ratio.le_iff hr hhigh', hlow, hhigh, ← le_div_iff₀ htwo, ← div_le_iff₀ htwo]
    constructor
    · rintro ⟨h₁, h₂⟩
      exact ⟨h₁, h₂, fun h => absurd h (by omega)⟩
    · intro h
      exact ⟨h.low, h.high⟩
  · -- A power of two is even, so the basin of an odd coefficient reaches half a bit down.
    have hreach' : lowerReach c e = 2 := by
      rcases lowerReach_cases c e with h | ⟨-, h, -⟩
      · exact h
      · rw [h, hidden_eq] at hodd
        omega
    rw [hclosed, if_neg (by rw [hodd]; decide), Bool.and_eq_true, Ratio.lt_iff hlow' hr,
      Ratio.lt_iff hr hhigh', hlow, hhigh, ← lt_div_iff₀ htwo, ← div_lt_iff₀ htwo, hreach']
    constructor
    · rintro ⟨h₁, h₂⟩
      refine ⟨?_, h₂.le, fun _ => ⟨?_, h₂⟩⟩
      · rw [hreach']
        exact h₁.le
      · push_cast at h₁
        linarith
    · intro h
      obtain ⟨h₁, h₂⟩ := h.odd hodd
      refine ⟨?_, h₂⟩
      push_cast
      linarith

theorem zpow_add_fiftytwo (e : Int) : (2 : ℚ) ^ (e + 52) = hidden * 2 ^ e := by
  rw [zpow_add₀ (by norm_num), hidden_eq]
  norm_num
  ring

theorem value_scale_div (r : Ratio) (e k : Int) :
    (r.scale 2 (-k)).value = r.value / 2 ^ e * 2 ^ (e - k) := by
  rw [Ratio.value_scale (by decide), zpow_sub₀ (by norm_num), zpow_neg]
  have htwo : (2 : ℚ) ^ e ≠ 0 := (zpow_pos (by norm_num) e).ne'
  push_cast
  field_simp

/-- The exponent that rounding picks is that of the double, or for a number below the least double
of a range, the one below it. -/
theorem InBasin.top (hc : IsDouble c e) (h : InBasin c e v) {top : Int} (hlow : (2 : ℚ) ^ top ≤ v)
    (hhigh : v < (2 : ℚ) ^ (top + 1)) :
    Max.max (top - 52) (-1074) = e ∨
      (Max.max (top - 52) (-1074) = e - 1 ∧ -1074 < e ∧ c = hidden ∧ v / 2 ^ e < hidden) := by
  have htwo : (0 : ℚ) < 2 ^ e := zpow_pos (by norm_num) e
  have hlt : (c : ℚ) + 1 ≤ 2 * hidden := by exact_mod_cast hc.lt
  have hupper : top < e + 1 + 52 := by
    rw [← zpow_lt_zpow_iff_right₀ (by norm_num : (1 : ℚ) < 2)]
    refine hlow.trans_lt ?_
    rw [zpow_add_fiftytwo, zpow_add_one₀ (by norm_num), mul_comm (2 ^ e), ← mul_assoc,
      ← div_lt_iff₀ htwo]
    have := h.high
    linarith
  rcases lt_or_ge v (2 ^ (e + 52)) with hless | hge
  · rcases hc.full with hfull | hleast
    · have hfull' : (hidden : ℚ) ≤ c := by exact_mod_cast hfull
      have hshare : v / 2 ^ e < hidden := by rwa [div_lt_iff₀ htwo, ← zpow_add_fiftytwo]
      -- Half a bit below the number the coefficient is still that of the range's least double.
      have hcoef : c = hidden := by
        have hc' : (c : ℚ) < (hidden + 1 : Nat) := by
          have := h.half
          push_cast
          linarith
        have := Nat.cast_lt.mp hc'
        omega
      have hupper' : top < e + 52 := by
        rw [← zpow_lt_zpow_iff_right₀ (by norm_num : (1 : ℚ) < 2)]
        exact hlow.trans_lt hless
      have hlower : e - 1 + 52 < top + 1 := by
        rw [← zpow_lt_zpow_iff_right₀ (by norm_num : (1 : ℚ) < 2)]
        refine lt_of_le_of_lt ?_ hhigh
        rw [zpow_add_fiftytwo, zpow_sub_one₀ (by norm_num), mul_comm (2 ^ e), ← mul_assoc,
          ← le_div_iff₀ htwo]
        have := h.half
        rw [hcoef, hidden_eq] at this
        rw [hidden_eq]
        push_cast at this ⊢
        linarith
      rcases hc.low.eq_or_lt with heq | hlt'
      · left
        omega
      · right
        exact ⟨by omega, hlt', hcoef, hshare⟩
    · left
      omega
  · left
    have hlower : e + 52 < top + 1 := by
      rw [← zpow_lt_zpow_iff_right₀ (by norm_num : (1 : ℚ) < 2)]
      exact hge.trans_lt hhigh
    have := hc.low
    omega

/-- Every number in the basin of a double is rounded to that double. -/
theorem nearestMagnitude_of_inBasin {r : Ratio} (hc : IsDouble c e) (hr : 0 < r.den)
    (h : InBasin c e r.value) :
    nearestMagnitude r = some ((e + 1074).toNat * hidden + c) := by
  have hpos := h.pos hc
  have hn := Ratio.num_pos hpos
  obtain ⟨top, hlow, hhigh⟩ := exists_mem_Ico_zpow hpos (by norm_num : (1 : ℚ) < 2)
  rw [nearestMagnitude_eq hn hr hlow hhigh]
  simp only
  have hden (k : Int) : 0 < (r.scale 2 (-k)).den := Ratio.den_scale_pos (by decide) hr _
  have hbits : (e + 1074).toNat * hidden + c < 2047 * hidden := by
    have hlt := hc.lt
    have hhigh := hc.high
    rw [hidden_eq] at hlt ⊢
    omega
  rcases h.top hc hlow hhigh with hexp | ⟨hexp, he, hcoef, hless⟩
  · have hvalue : (r.scale 2 (-e)).value = r.value / 2 ^ e := by
      rw [value_scale_div r e e, Int.sub_self, zpow_zero, mul_one]
    have hround : (r.scale 2 (-e)).round = c :=
      Ratio.round_eq (hden e) (hvalue ▸ h.half) (hvalue ▸ h.high) (hvalue ▸ h.odd)
    rw [hexp, hround, if_pos hbits]
  · have hvalue : (r.scale 2 (-(e - 1))).value = r.value / 2 ^ e * 2 := by
      rw [value_scale_div r e (e - 1), sub_sub_cancel, zpow_one]
    have hquarter : (hidden : ℚ) - 1 / 4 ≤ r.value / 2 ^ e := by
      have hlow := h.low
      rwa [lowerReach, hcoef, if_pos (by simpa using he), Nat.cast_one] at hlow
    -- In the finer range the double is the carry to the next power of two.
    have hround : (r.scale 2 (-(e - 1))).round = 2 * hidden := by
      refine Ratio.round_eq (hden (e - 1)) ?_ ?_ fun hodd => absurd hodd (by omega)
      all_goals
        rw [hvalue]
        push_cast
        linarith
    have hcarry : (e - 1 + 1074).toNat * hidden + 2 * hidden = (e + 1074).toNat * hidden + c := by
      rw [hcoef, hidden_eq]
      omega
    rw [hexp, hround, hcarry, if_pos hbits]

end Basins

end DualRail.Decimal
