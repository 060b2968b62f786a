import Mathlib
import DualRail.Proofs.DoubleRounding

/-!
Bounds that survive overflow. A double is at least a number if it is positively infinite or finite
and not below it; it is within a number if it is finite and not beyond it on either side, or
infinite and the number is at the greatest double or beyond. Sums keep both, with an error of one
unit, and what is within some number is a number itself. The length of a vector is no number exactly
if neither side is infinite and one of them is no number.
-/

namespace DualRail.Double

open Float.Model

open Float.Model.UnpackedFloat (Sign)

variable {x y : Float} {b c q : ℚ}

theorem value_add : value (x + y) = kept (UnpackedFloat.add .binary64 (value x) (value y)) := rfl

theorem canonical_neg {u : UnpackedFloat} (h : Canonical u) : Canonical u.neg := by
  intro s m e hm hu
  cases u with
  | notANumber => cases hu
  | infinity t => cases hu
  | zero t => cases hu
  | finite t m' e' hm' =>
    cases hu
    exact h t m e hm rfl

theorem value_neg : value (-x) = (value x).neg :=
  kept_of_canonical (canonical_neg (canonical_value x))

theorem sub_eq_add (u v : UnpackedFloat) :
    UnpackedFloat.sub .binary64 u v = UnpackedFloat.add .binary64 u v.neg := by
  have hsign : ∀ (s : Sign) (n : Int), (-s).apply n = -s.apply n := by
    intro s n
    cases s with
    | negative => exact (neg_neg n).symm
    | positive => rfl
  cases u with
  | notANumber => rfl
  | infinity s => cases v <;> rfl
  | zero s => cases v <;> rfl
  | finite s m e hm =>
    cases v with
    | notANumber => rfl
    | infinity t => rfl
    | zero t => rfl
    | finite t m' e' hm' =>
      simp only [UnpackedFloat.sub, UnpackedFloat.add, UnpackedFloat.neg, hsign, sub_eq_add_neg]

theorem value_sub : value (x - y) = value (x + -y) := by
  rw [value_add, value_neg, ← sub_eq_add]
  rfl

theorem isFinite_iff_value : Quantity.isFinite x = true ↔ (value x).isFinite = true := by
  rw [isFinite_iff]
  change (value x).isNaN = false ∧ (value x).isInf = false ↔ _
  cases value x with
  | notANumber => exact iff_of_false (fun h => Bool.noConfusion h.1) Bool.false_ne_true
  | infinity s => exact iff_of_false (fun h => Bool.noConfusion h.2) Bool.false_ne_true
  | zero s => exact iff_of_true ⟨rfl, rfl⟩ rfl
  | finite s m e hm => exact iff_of_true ⟨rfl, rfl⟩ rfl

theorem isFinite_cases (h : Quantity.isFinite x = true) :
    (∃ s, value x = .zero s) ∨ ∃ s m e hm, value x = .finite s m e hm := by
  rw [isFinite_iff_value] at h
  cases hv : value x with
  | notANumber =>
    rw [hv] at h
    cases h
  | infinity s =>
    rw [hv] at h
    cases h
  | zero s => exact .inl ⟨s, rfl⟩
  | finite s m e hm => exact .inr ⟨s, m, e, hm, rfl⟩

theorem isInf_iff : x.isInf = true ↔ ∃ s, value x = .infinity s := by
  change (value x).isInf = true ↔ _
  cases value x with
  | notANumber => exact iff_of_false Bool.false_ne_true nofun
  | infinity s => exact iff_of_true rfl ⟨s, rfl⟩
  | zero s => exact iff_of_false Bool.false_ne_true nofun
  | finite s m e hm => exact iff_of_false Bool.false_ne_true nofun

theorem beq_zero_iff : (x == 0) = true ↔ ∃ s, value x = .zero s := by
  change ((value x).compare (.zero .positive) == some .eq) = true ↔ _
  cases value x with
  | notANumber => exact iff_of_false Bool.false_ne_true nofun
  | infinity s => cases s <;> exact iff_of_false Bool.false_ne_true nofun
  | zero s => exact iff_of_true rfl ⟨s, rfl⟩
  | finite s m e hm => cases s <;> exact iff_of_false Bool.false_ne_true nofun

theorem isNaN_add_of_left (h : x.isNaN = true) : (x + y).isNaN = true := by
  rw [isNaN_iff] at h ⊢
  rw [value_add, h]
  exact kept_notANumber

theorem isNaN_add_of_right (h : y.isNaN = true) : (x + y).isNaN = true := by
  rw [isNaN_iff] at h ⊢
  have hadd : UnpackedFloat.add .binary64 (value x) .notANumber = .notANumber := by
    cases value x with
    | notANumber => rfl
    | infinity s => rfl
    | zero s => rfl
    | finite s m e hm => rfl
  rw [value_add, h, hadd]
  exact kept_notANumber

theorem isNaN_neg (h : x.isNaN = true) : (-x).isNaN = true := by
  rw [isNaN_iff] at h ⊢
  rw [value_neg, h]
  rfl

theorem isNaN_sub_iff : (x - y).isNaN = true ↔ (x + -y).isNaN = true := by
  rw [isNaN_iff, isNaN_iff, value_sub]

def toRat (x : Float) : ℚ := number (value x)

theorem number_neg (u : UnpackedFloat) : number u.neg = -number u := by
  cases u with
  | notANumber => exact neg_zero.symm
  | infinity s => exact neg_zero.symm
  | zero s => exact neg_zero.symm
  | finite s m e hm =>
    cases s with
    | positive =>
      change (((-(m : Int) : Int)) : ℚ) * _ = -(((m : Int) : ℚ) * _)
      rw [Int.cast_neg, neg_mul]
    | negative =>
      change ((m : Int) : ℚ) * _ = -(((-(m : Int) : Int) : ℚ) * _)
      rw [Int.cast_neg, neg_mul, neg_neg]

theorem toRat_neg : toRat (-x) = -toRat x := by
  rw [toRat, value_neg, number_neg, toRat]

theorem isFinite_neg (h : Quantity.isFinite x = true) : Quantity.isFinite (-x) = true := by
  rw [isFinite_iff_value, value_neg]
  rcases isFinite_cases h with ⟨s, hv⟩ | ⟨s, m, e, hm, hv⟩
  · rw [hv]
    rfl
  · rw [hv]
    rfl

theorem toRat_le_greatest (h : Quantity.isFinite x = true) : toRat x ≤ greatest := by
  rw [toRat]
  rcases isFinite_cases h with ⟨s, hv⟩ | ⟨s, m, e, hm, hv⟩
  · rw [hv, number_zero]
    exact greatest_pos.le
  · have hdouble := canonical_value x s m e hm hv
    have hlt := hdouble.lt
    rw [Decimal.hidden_eq] at hlt
    have hm' : (m : ℚ) ≤ 9007199254740991 := by exact_mod_cast (by omega : m ≤ 9007199254740991)
    have hmagnitude : (m : ℚ) * 2 ^ e ≤ greatest := by
      rw [greatest_eq, unit_eq]
      exact mul_le_mul hm' (two_zpow_le hdouble.high) (by positivity) (by norm_num)
    rw [hv, number_finite]
    cases s with
    | positive =>
      rw [Sign.apply, Int.cast_natCast]
      exact hmagnitude
    | negative =>
      rw [Sign.apply, Int.cast_neg, Int.cast_natCast, neg_mul]
      have hpos : (0 : ℚ) < m * 2 ^ e := by positivity
      linarith

theorem add_approximates (hx : Quantity.isFinite x = true) (hy : Quantity.isFinite y = true) :
    Approximates (value (x + y)) (toRat x + toRat y) :=
  approximates_add (isFinite_iff_value.mp hx) (isFinite_iff_value.mp hy) (canonical_value x)
    (canonical_value y)

theorem mul_approximates (hx : Quantity.isFinite x = true) (hy : Quantity.isFinite y = true) :
    Approximates (value (x * y)) (toRat x * toRat y) :=
  approximates_mul (isFinite_iff_value.mp hx) (isFinite_iff_value.mp hy) (canonical_value x)
    (canonical_value y)

theorem add_infinity_of_isFinite {s : Sign} (hx : value x = .infinity s)
    (hy : Quantity.isFinite y = true) :
    value (x + y) = .infinity s ∧ value (y + x) = .infinity s := by
  rw [value_add, value_add, hx]
  rcases isFinite_cases hy with ⟨t, hv⟩ | ⟨t, m, e, hm, hv⟩
  · rw [hv]
    exact ⟨kept_infinity s, kept_infinity s⟩
  · rw [hv]
    exact ⟨kept_infinity s, kept_infinity s⟩

inductive AtLeast (x : Float) (b : ℚ) : Prop where
  | infinite (value_eq : value x = .infinity .positive)
  | finite (isFinite : Quantity.isFinite x = true) (le : b ≤ toRat x)

theorem AtLeast.mono (h : AtLeast x b) (hle : c ≤ b) : AtLeast x c := by
  cases h with
  | infinite hx => exact .infinite hx
  | finite hx hb => exact .finite hx (hle.trans hb)

theorem AtLeast.congr (h : AtLeast x b) (hy : value y = value x) : AtLeast y b := by
  cases h with
  | infinite hx => exact .infinite (hy.trans hx)
  | finite hx hb =>
    rw [isFinite_iff_value, ← hy] at hx
    rw [toRat, ← hy] at hb
    exact .finite (isFinite_iff_value.mpr hx) hb

theorem Approximates.atLeast (h : Approximates (value x) q) (hq : -greatest < q) :
    AtLeast x (q - unit) := by
  cases h with
  | near hx herror _ _ =>
    refine .finite (isFinite_iff_value.mpr hx) ?_
    have := (abs_le.mp herror).1
    rw [toRat]
    linarith
  | above hx _ => exact .infinite hx
  | below _ hlarge => exact absurd hq (not_lt.mpr hlarge)

theorem Approximates.atLeast_zero (h : Approximates (value x) q) (hq : 0 ≤ q) : AtLeast x 0 := by
  cases h with
  | near hx _ hnonneg _ => exact .finite (isFinite_iff_value.mpr hx) (hnonneg hq)
  | above hx _ => exact .infinite hx
  | below _ hlarge =>
    linarith [greatest_pos]

theorem AtLeast.add_infinite (h : AtLeast x b) (hy : value y = .infinity .positive) :
    value (x + y) = .infinity .positive ∧ value (y + x) = .infinity .positive := by
  cases h with
  | infinite hx =>
    rw [value_add, value_add, hx, hy]
    exact ⟨kept_infinity .positive, kept_infinity .positive⟩
  | finite hx _ => exact (add_infinity_of_isFinite hy hx).symm

theorem AtLeast.add (hx : AtLeast x b) (hy : AtLeast y c) (h : -greatest < b + c) :
    AtLeast (x + y) (b + c - unit) := by
  cases hx with
  | infinite hinfinite => exact .infinite (hy.add_infinite hinfinite).2
  | finite hfx hbx =>
    cases hy with
    | infinite hinfinite => exact .infinite ((AtLeast.finite hfx hbx).add_infinite hinfinite).1
    | finite hfy hcy =>
      exact ((add_approximates hfx hfy).atLeast (by linarith)).mono (by linarith)

theorem AtLeast.sub (hx : AtLeast x b) (hy : AtLeast (-y) c) (h : -greatest < b + c) :
    AtLeast (x - y) (b + c - unit) := (hx.add hy h).congr value_sub

theorem square_of_not_finite (h : x.isNaN = false) (hx : ¬ Quantity.isFinite x = true) :
    value (x * x) = .infinity .positive ∧ value (-(x * -x)) = .infinity .positive := by
  obtain ⟨s, hs⟩ : ∃ s, value x = .infinity s := by
    rw [isFinite_iff, not_and, Bool.not_eq_false] at hx
    exact isInf_iff.mp (hx h)
  have hneg : value (x * -x) = kept (UnpackedFloat.mul .binary64 (value x) (value (-x))) := rfl
  have hpos : value (x * x) = kept (UnpackedFloat.mul .binary64 (value x) (value x)) := rfl
  rw [value_neg, hneg, hpos, value_neg, hs]
  cases s with
  | positive =>
    exact ⟨kept_infinity .positive, congrArg UnpackedFloat.neg (kept_infinity .negative)⟩
  | negative =>
    exact ⟨kept_infinity .positive, congrArg UnpackedFloat.neg (kept_infinity .negative)⟩

theorem Approximates.neg {u : UnpackedFloat} (h : Approximates u q) : Approximates u.neg (-q) := by
  cases h with
  | near hu herror hnonneg hnonpos =>
    refine .near ?_ ?_ (fun hq => ?_) fun hq => ?_
    · cases u with
      | notANumber => cases hu
      | infinity s => cases hu
      | zero s => rfl
      | finite s m e hm => rfl
    · rwa [number_neg, neg_sub_neg, abs_sub_comm]
    · rw [number_neg]
      exact neg_nonneg.mpr (hnonpos (neg_nonneg.mp hq))
    · rw [number_neg]
      exact neg_nonpos.mpr (hnonneg (neg_nonpos.mp hq))
  | above hu hlarge => exact .below (by rw [hu]; rfl) (neg_le_neg hlarge)
  | below hu hlarge => exact .above (by rw [hu]; rfl) (le_neg_of_le_neg hlarge)

/-- The square of a finite double, and for the others more than a sum of squares can be that does
not overflow. -/
def weight (x : Float) : ℚ :=
  if Quantity.isFinite x = true then toRat x * toRat x else greatest + greatest

theorem weight_of_isFinite (h : Quantity.isFinite x = true) : weight x = toRat x * toRat x :=
  if_pos h

theorem weight_nonneg (x : Float) : 0 ≤ weight x := by
  unfold weight
  split
  · exact mul_self_nonneg _
  · exact add_nonneg greatest_pos.le greatest_pos.le

theorem isFinite_of_weight_lt (h : weight x < greatest + greatest) :
    Quantity.isFinite x = true := by
  by_contra hx
  rw [weight, if_neg hx] at h
  exact lt_irrefl _ h

theorem weight_of_zero (h : (x == 0) = true) : weight x = 0 := by
  obtain ⟨s, hs⟩ := beq_zero_iff.mp h
  have hx : Quantity.isFinite x = true := isFinite_iff_value.mpr (by rw [hs]; rfl)
  rw [weight_of_isFinite hx, toRat, hs, number_zero, mul_zero]

theorem atLeast_weight (h : x.isNaN = false) : AtLeast (x * x) (weight x - unit) := by
  by_cases hx : Quantity.isFinite x = true
  · rw [weight_of_isFinite hx]
    refine (mul_approximates hx hx).atLeast ?_
    linarith [greatest_pos, mul_self_nonneg (toRat x)]
  · exact .infinite (square_of_not_finite h hx).1

theorem atLeast_weight_neg (h : x.isNaN = false) : AtLeast (-(x * -x)) (weight x - unit) := by
  by_cases hx : Quantity.isFinite x = true
  · have hproduct := (mul_approximates hx (isFinite_neg hx)).neg
    rw [toRat_neg, mul_neg, neg_neg, ← value_neg] at hproduct
    rw [weight_of_isFinite hx]
    refine hproduct.atLeast ?_
    linarith [greatest_pos, mul_self_nonneg (toRat x)]
  · exact .infinite (square_of_not_finite h hx).2

/-- Not beyond the bound on either side, where an infinite double needs a bound at the greatest
double or beyond. -/
inductive Within (x : Float) (b : ℚ) : Prop where
  | infinite (s : Sign) (value_eq : value x = .infinity s) (large : greatest ≤ b)
  | finite (isFinite : Quantity.isFinite x = true) (le : |toRat x| ≤ b)

theorem Within.mono (h : Within x b) (hle : b ≤ c) : Within x c := by
  cases h with
  | infinite s hx hlarge => exact .infinite s hx (hlarge.trans hle)
  | finite hx hb => exact .finite hx (hb.trans hle)

theorem Within.congr (h : Within x b) (hy : value y = value x) : Within y b := by
  cases h with
  | infinite s hx hlarge => exact .infinite s (hy.trans hx) hlarge
  | finite hx hb =>
    rw [isFinite_iff_value, ← hy] at hx
    rw [toRat, ← hy] at hb
    exact .finite (isFinite_iff_value.mpr hx) hb

theorem Within.isNaN (h : Within x b) : x.isNaN = false := by
  cases h with
  | infinite s hx _ =>
    rw [isNaN_eq_false_iff, hx]
    exact nofun
  | finite hx _ => exact (isFinite_iff.mp hx).1

theorem Within.neg (h : Within x b) : Within (-x) b := by
  cases h with
  | infinite s hx hlarge =>
    refine .infinite (-s) ?_ hlarge
    rw [value_neg, hx]
    rfl
  | finite hx hb =>
    refine .finite (isFinite_neg hx) ?_
    rwa [toRat_neg, abs_neg]

theorem Approximates.within (h : Approximates (value x) q) : Within x (|q| + unit) := by
  have hunit := unit_pos
  cases h with
  | near hx herror _ _ =>
    refine .finite (isFinite_iff_value.mpr hx) ?_
    have := abs_sub_abs_le_abs_sub (toRat x) q
    have : |toRat x - q| ≤ unit := herror
    linarith
  | above hx hlarge => exact .infinite _ hx (by linarith [le_abs_self q])
  | below hx hlarge => exact .infinite _ hx (by linarith [neg_abs_le q])

theorem within_mul (hx : Quantity.isFinite x = true) (hy : Quantity.isFinite y = true) :
    Within (x * y) (|toRat x| * |toRat y| + unit) := by
  rw [← abs_mul]
  exact (mul_approximates hx hy).within

/-- Two doubles are not both infinite if their bounds are not both at the greatest double. -/
theorem Within.add (hx : Within x b) (hy : Within y c) (h : b + c < greatest + greatest) :
    Within (x + y) (b + c + unit) := by
  have hunit := unit_pos
  cases hx with
  | infinite s hvx hb =>
    cases hy with
    | infinite t hvy hc => linarith
    | finite hfy hc =>
      exact .infinite s (add_infinity_of_isFinite hvx hfy).1 (by linarith [abs_nonneg (toRat y)])
  | finite hfx hb =>
    cases hy with
    | infinite t hvy hc =>
      exact .infinite t (add_infinity_of_isFinite hvy hfx).2 (by linarith [abs_nonneg (toRat x)])
    | finite hfy hc =>
      exact (add_approximates hfx hfy).within.mono (by linarith [abs_add_le (toRat x) (toRat y)])

theorem Within.sub (hx : Within x b) (hy : Within y c) (h : b + c < greatest + greatest) :
    Within (x - y) (b + c + unit) := (hx.add hy.neg h).congr value_sub

theorem isNaN_sub_of_isFinite (hx : Quantity.isFinite x = true) (hy : Quantity.isFinite y = true) :
    (x - y).isNaN = false := by
  rw [Bool.eq_false_iff, ne_eq, isNaN_sub_iff, Bool.not_eq_true]
  exact (add_approximates hx (isFinite_neg hy)).within.isNaN

theorem value_infinity : value (Decimal.infinity false) = .infinity .positive := rfl

theorem isNaN_infinity : (Decimal.infinity false).isNaN = false := by
  rw [isNaN_eq_false_iff, value_infinity]
  exact nofun

theorem lt_infinity (h : Quantity.isFinite x = true) : x < Decimal.infinity false := by
  rw [lt_iff, value_infinity]
  rcases isFinite_cases h with ⟨s, hv⟩ | ⟨s, m, e, hm, hv⟩
  · rw [hv]
    rfl
  · rw [hv]
    cases s <;> rfl

theorem isNaN_mul_of_finite {s : Sign} {m : Nat} {e : Int} {hm : 0 < m}
    (hx : value x = .finite s m e hm) (hy : y.isNaN = false) : (x * y).isNaN = false := by
  rw [isNaN_eq_false_iff] at hy ⊢
  rw [value_mul, hx]
  refine unpack_pack_ne_notANumber ?_
  cases hv : value y with
  | notANumber => exact absurd hv hy
  | infinity t => exact nofun
  | zero t => exact nofun
  | finite t m' e' hm' => exact round_ne_notANumber _ _ _ _

theorem isNaN_div_of_finite {s : Sign} {m : Nat} {e : Int} {hm : 0 < m}
    (hy : value y = .finite s m e hm) (hx : Quantity.isFinite x = true) :
    (x / y).isNaN = false := by
  rw [isNaN_eq_false_iff]
  change kept (UnpackedFloat.div .binary64 (value x) (value y)) ≠ _
  rw [hy]
  refine unpack_pack_ne_notANumber ?_
  rcases isFinite_cases hx with ⟨t, hv⟩ | ⟨t, m', e', hm', hv⟩
  · rw [hv]
    exact nofun
  · rw [hv]
    exact round_ne_notANumber _ _ _ _

theorem atLeast_square (h : x.isNaN = false) : AtLeast (x * x) 0 := by
  by_cases hx : Quantity.isFinite x = true
  · exact (mul_approximates hx hx).atLeast_zero (mul_self_nonneg _)
  · exact .infinite (square_of_not_finite h hx).1

theorem isNaN_sqrt (h : AtLeast x 0) : x.sqrt.isNaN = false := by
  rw [isNaN_eq_false_iff]
  change kept (UnpackedFloat.sqrt .binary64 (value x)) ≠ _
  refine unpack_pack_ne_notANumber ?_
  cases h with
  | infinite hx =>
    rw [hx]
    exact nofun
  | finite hx hle =>
    rcases isFinite_cases hx with ⟨s, hv⟩ | ⟨s, m, e, hm, hv⟩
    · rw [hv]
      exact nofun
    · rw [hv]
      cases s with
      | positive => exact round_ne_notANumber _ _ _ _
      | negative =>
        rw [toRat, hv, number_finite, Sign.apply, Int.cast_neg, Int.cast_natCast] at hle
        have hpos : (0 : ℚ) < m * 2 ^ e := by positivity
        linarith

theorem atLeast_one : AtLeast 1 0 := by
  obtain ⟨m, e, hm, hvalue⟩ := value_one
  refine .finite (isFinite_iff_value.mpr (by rw [hvalue]; rfl)) ?_
  rw [toRat, hvalue, number_finite, Sign.apply, Int.cast_natCast]
  positivity

theorem isFinite_abs (h : Quantity.isFinite x = true) : Quantity.isFinite x.abs = true := by
  rw [isFinite_iff_value]
  change (kept (value x).abs).isFinite = true
  rcases isFinite_cases h with ⟨s, hv⟩ | ⟨s, m, e, hm, hv⟩
  · rw [hv, UnpackedFloat.abs, kept_zero]
    rfl
  · rw [hv, UnpackedFloat.abs, kept_of_isDouble _ _ (canonical_value x s m e hm hv)]
    rfl

theorem isNaN_length {big small : Float} (hbig : Quantity.isFinite big = true)
    (hsmall : Quantity.isFinite small = true) (hzero : ¬ (big == 0) = true) :
    (big * (1 + small / big * (small / big)).sqrt).isNaN = false := by
  obtain ⟨s, m, e, hm, hvalue⟩ :=
    (isFinite_cases hbig).resolve_left (hzero ∘ beq_zero_iff.mpr)
  have hsquare := atLeast_square (isNaN_div_of_finite hvalue hsmall)
  refine isNaN_mul_of_finite hvalue (isNaN_sqrt ?_)
  cases hsquare with
  | infinite hinfinite => exact .infinite (atLeast_one.add_infinite hinfinite).1
  | finite hfinite hle =>
    cases atLeast_one with
    | infinite hone => cases hone
    | finite hone hone' =>
      exact (add_approximates hone hfinite).atLeast_zero (add_nonneg hone' hle)

/-- A length is infinite as soon as one side is, and otherwise it is a number if both sides are. -/
theorem isNaN_floatHypot_iff : (floatHypot x y).isNaN = true ↔
    (x.isInf = false ∧ y.isInf = false) ∧ (x.isNaN = true ∨ y.isNaN = true) := by
  unfold floatHypot
  by_cases hinf : (x.isInf || y.isInf) = true
  · rw [if_pos hinf, isNaN_infinity]
    refine iff_of_false Bool.false_ne_true fun h => ?_
    rw [h.1.1, h.1.2] at hinf
    cases hinf
  · rw [if_neg hinf]
    rw [Bool.not_eq_true, Bool.or_eq_false_iff] at hinf
    by_cases hnan : (x.isNaN || y.isNaN) = true
    · rw [if_pos hnan]
      exact iff_of_true (by decide +kernel) ⟨hinf, by simpa using hnan⟩
    · rw [if_neg hnan]
      rw [Bool.not_eq_true, Bool.or_eq_false_iff] at hnan
      have hx := isFinite_abs (isFinite_iff.mpr ⟨hnan.1, hinf.1⟩)
      have hy := isFinite_abs (isFinite_iff.mpr ⟨hnan.2, hinf.2⟩)
      refine iff_of_false ?_ (by rw [hnan.1, hnan.2]; simp)
      rw [Bool.not_eq_true]
      simp only
      by_cases hlt : x.abs < y.abs
      · simp only [hlt, if_true]
        split
        · decide +kernel
        · rename_i hzero
          exact isNaN_length hy hx hzero
      · simp only [hlt, if_false]
        split
        · decide +kernel
        · rename_i hzero
          exact isNaN_length hx hy hzero

theorem isInf_of_not_lt {eps : Float} (heps : Quantity.isFinite eps = true)
    (h : ¬ eps < floatHypot x y) : x.isInf = false ∧ y.isInf = false := by
  by_contra hnot
  have hinf : (x.isInf || y.isInf) = true := by
    rw [← Bool.not_eq_false, Bool.or_eq_false_iff]
    exact hnot
  rw [floatHypot, if_pos hinf] at h
  exact h (lt_infinity heps)

end DualRail.Double
