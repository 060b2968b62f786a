import Mathlib
import DualRail.Quantity

/-!
Doubles that need not be numbers. A double that is not a number passes no comparison, so a check
that a value is not outside some range lets it through; of numbers such a check does what it says. A
product is a number if its left factor is one and its right factor is finite, and it is none if one
of them is none.
-/

namespace DualRail.Double

open Float.Model

/-- What the bits of a double stand for. -/
def value (x : Float) : UnpackedFloat := x.toModel.unpack

theorem isNaN_iff {x : Float} : x.isNaN = true ↔ value x = .notANumber := UnpackedFloat.isNaN_iff

theorem isNaN_eq_false_iff {x : Float} : x.isNaN = false ↔ value x ≠ .notANumber := by
  rw [← Bool.not_eq_true, isNaN_iff]

theorem full_exponent_iff {x : Float} :
    @UnpackedFloat.unpackExponent .binary64 x.toBits.toBitVec = -1#11 ↔
      x.toBits.toNat / Decimal.hidden % 2048 = 2047 := by
  rw [UnpackedFloat.unpackExponent_def, ← BitVec.toNat_inj, BitVec.extractLsb'_toNat,
    Nat.shiftRight_eq_div_pow]
  rfl

theorem isFinite_iff_field {x : Float} :
    Quantity.isFinite x = true ↔ x.toBits.toNat / Decimal.hidden % 2048 ≠ 2047 := by
  change Decimal.isFinite x = true ↔ _
  unfold Decimal.isFinite Decimal.Parts.ofFloat
  simp only
  by_cases hfield : x.toBits.toNat / Decimal.hidden % 2048 = 2047
  · rw [if_pos hfield]
    refine iff_of_false ?_ (not_not.mpr hfield)
    by_cases hfraction : x.toBits.toNat % Decimal.hidden = 0
    · rw [if_pos hfraction]
      exact Bool.false_ne_true
    · rw [if_neg hfraction]
      exact Bool.false_ne_true
  · rw [if_neg hfield]
    refine iff_of_true ?_ hfield
    by_cases hsmall : x.toBits.toNat / Decimal.hidden % 2048 = 0
    · rw [if_pos hsmall]
    · rw [if_neg hsmall]

theorem isFinite_iff {x : Float} :
    Quantity.isFinite x = true ↔ x.isNaN = false ∧ x.isInf = false := by
  have hunpack : value x = UnpackedFloat.unpack .binary64 x.toBits.toBitVec := rfl
  rw [isFinite_iff_field, ne_eq, ← full_exponent_iff]
  change _ ↔ (value x).isNaN = false ∧ (value x).isInf = false
  rw [hunpack, UnpackedFloat.unpack]
  by_cases hfull : @UnpackedFloat.unpackExponent .binary64 x.toBits.toBitVec = -1#11
  · refine iff_of_false (not_not.mpr hfull) ?_
    simp only [hfull, if_true]
    split
    · exact fun h => Bool.noConfusion h.2
    · exact fun h => Bool.noConfusion h.1
  · refine iff_of_true hfull ?_
    simp only [hfull, if_false]
    split
    · split
      · exact ⟨rfl, rfl⟩
      · exact ⟨rfl, rfl⟩
    · exact ⟨rfl, rfl⟩

theorem le_iff {x y : Float} : x ≤ y ↔ (value x).le (value y) = true := by
  change decide ((value x).le (value y) = true) = true ↔ _
  rw [decide_eq_true_eq]

theorem lt_iff {x y : Float} : x < y ↔ (value x).lt (value y) = true := by
  change decide ((value x).lt (value y) = true) = true ↔ _
  rw [decide_eq_true_eq]

theorem compare_notANumber (u : UnpackedFloat) : u.compare .notANumber = none := by
  cases u with
  | infinity sign => rfl
  | notANumber => rfl
  | zero sign => rfl
  | finite sign m e hm => rfl

theorem not_lt_of_isNaN {x y : Float} (h : y.isNaN = true) : ¬ x < y := by
  rw [isNaN_iff] at h
  rw [lt_iff, h, UnpackedFloat.lt, compare_notANumber]
  decide

theorem compare_number {u v : UnpackedFloat} (hu : u ≠ .notANumber) (hv : v ≠ .notANumber) :
    ∃ o, u.compare v = some o ∧ v.compare u = some o.swap := by
  have hsign : ∀ s t : UnpackedFloat.Sign, compare t s = (compare s t).swap := by
    intro s t
    cases s <;> cases t <;> rfl
  cases u with
  | notANumber => exact absurd rfl hu
  | infinity s =>
    cases v with
    | notANumber => exact absurd rfl hv
    | infinity t => exact ⟨_, rfl, congrArg some (hsign s t)⟩
    | zero t => cases s <;> exact ⟨_, rfl, rfl⟩
    | finite t m e hm => cases s <;> cases t <;> exact ⟨_, rfl, rfl⟩
  | zero s =>
    cases v with
    | notANumber => exact absurd rfl hv
    | infinity t => cases t <;> exact ⟨_, rfl, rfl⟩
    | zero t => exact ⟨_, rfl, rfl⟩
    | finite t m e hm => cases t <;> exact ⟨_, rfl, rfl⟩
  | finite s m e hm =>
    cases v with
    | notANumber => exact absurd rfl hv
    | infinity t => cases s <;> cases t <;> exact ⟨_, rfl, rfl⟩
    | zero t => cases s <;> exact ⟨_, rfl, rfl⟩
    | finite t m' e' hm' =>
      have hswap : (compare e' e).then (compare m' m) =
          ((compare e e').then (compare m m')).swap := by
        rw [Ordering.swap_then, Int.compare_swap, Nat.compare_swap]
      cases s with
      | negative =>
        cases t with
        | negative => exact ⟨_, rfl, congrArg some (congrArg Ordering.swap hswap)⟩
        | positive => exact ⟨_, rfl, rfl⟩
      | positive =>
        cases t with
        | negative => exact ⟨_, rfl, rfl⟩
        | positive => exact ⟨_, rfl, congrArg some hswap⟩

theorem lt_of_not_le {x y : Float} (hx : x.isNaN = false) (hy : y.isNaN = false)
    (h : ¬ x ≤ y) : y < x := by
  rw [isNaN_eq_false_iff] at hx hy
  obtain ⟨o, hxy, hyx⟩ := compare_number hx hy
  rw [le_iff, UnpackedFloat.le, hxy] at h
  rw [lt_iff, UnpackedFloat.lt, hyx]
  cases o with
  | lt => exact absurd rfl h
  | eq => exact absurd rfl h
  | gt => rfl

theorem le_of_not_lt {x y : Float} (hx : x.isNaN = false) (hy : y.isNaN = false)
    (h : ¬ y < x) : x ≤ y := by
  rw [isNaN_eq_false_iff] at hx hy
  obtain ⟨o, hxy, hyx⟩ := compare_number hx hy
  rw [lt_iff, UnpackedFloat.lt, hyx] at h
  rw [le_iff, UnpackedFloat.le, hxy]
  cases o with
  | lt => rfl
  | eq => rfl
  | gt => exact absurd rfl h

theorem not_le_of_lt {x y : Float} (h : y < x) : ¬ x ≤ y := by
  have hx : x.isNaN = false := Bool.eq_false_iff.mpr fun hx => not_lt_of_isNaN hx h
  have hy : value y ≠ .notANumber := by
    intro hy
    rw [lt_iff, UnpackedFloat.lt, hy] at h
    cases h
  obtain ⟨o, hxy, hyx⟩ := compare_number (isNaN_eq_false_iff.mp hx) hy
  rw [lt_iff, UnpackedFloat.lt, hyx] at h
  rw [le_iff, UnpackedFloat.le, hxy]
  cases o with
  | lt => cases h
  | eq => cases h
  | gt => exact Bool.false_ne_true

def InRange (x : Float) : Prop := ¬ x ≤ 0 ∧ ¬ 1 < x

variable {x y : Float}

theorem check_eq_false_iff : (Quantity.le x 0 || Quantity.lt 1 x) = false ↔ InRange x := by
  rw [Bool.or_eq_false_iff]
  exact ⟨fun h => ⟨of_decide_eq_false h.1, of_decide_eq_false h.2⟩,
    fun h => ⟨decide_eq_false h.1, decide_eq_false h.2⟩⟩

/-- The check says of numbers what it should. -/
theorem InRange.number_iff (h : InRange x) : x.isNaN = false ↔ 0 < x ∧ x ≤ 1 := by
  constructor
  · intro hx
    exact ⟨lt_of_not_le hx rfl h.1, le_of_not_lt hx rfl h.2⟩
  · rintro ⟨hpos, _⟩
    rw [← Bool.not_eq_true]
    exact fun hx => not_lt_of_isNaN hx hpos

theorem inRange_iff (hx : x.isNaN = false) : InRange x ↔ 0 < x ∧ x ≤ 1 := by
  constructor
  · exact fun h => h.number_iff.mp hx
  · rintro ⟨hpos, hone⟩
    exact ⟨not_le_of_lt hpos, fun hlt => not_le_of_lt hlt hone⟩

theorem value_one : ∃ m e hm, value 1 = .finite .positive m e hm := ⟨_, _, _, rfl⟩

theorem InRange.finite (h : InRange x) (hx : x.isNaN = false) :
    ∃ s m e hm, value x = .finite s m e hm := by
  obtain ⟨hzero, hone⟩ := h
  obtain ⟨m, e, hm, hvalue⟩ := value_one
  rw [le_iff] at hzero
  rw [lt_iff, hvalue] at hone
  cases hv : value x with
  | notANumber => exact absurd hv (isNaN_eq_false_iff.mp hx)
  | zero s =>
    rw [hv] at hzero
    exact absurd rfl hzero
  | infinity s =>
    cases s with
    | negative =>
      rw [hv] at hzero
      exact absurd rfl hzero
    | positive =>
      rw [hv] at hone
      exact absurd rfl hone
  | finite s m e hm => exact ⟨s, m, e, hm, rfl⟩

theorem value_mul : value (x * y) = UnpackedFloat.unpack .binary64
    (UnpackedFloat.pack .binary64 (UnpackedFloat.mul .binary64 (value x) (value y))) := rfl

theorem round_ne_notANumber (sign : UnpackedFloat.Sign) (m : Nat) (e : Int)
    (accuracy : UnpackedFloat.Accuracy) :
    UnpackedFloat.roundWithAccuracy .binary64 sign m e accuracy ≠ .notANumber := by
  unfold UnpackedFloat.roundWithAccuracy
  simp only
  split
  · exact nofun
  · exact nofun

theorem components_of_notANumber {sign : UnpackedFloat.Sign} {exponent : BitVec 11}
    {mantissa : BitVec 52}
    (h : UnpackedFloat.unpack .binary64
      (UnpackedFloat.packComponents .binary64 sign exponent mantissa) = .notANumber) :
    exponent = -1#11 ∧ mantissa ≠ 0#52 := by
  unfold UnpackedFloat.unpack at h
  simp only [UnpackedFloat.unpackExponent_packComponents,
    UnpackedFloat.unpackMantissa_packComponents] at h
  by_cases hexp : exponent = -1#11
  · refine ⟨hexp, fun hman => ?_⟩
    rw [if_pos hexp, if_pos hman] at h
    cases h
  · rw [if_neg hexp] at h
    split at h
    · split at h <;> cases h
    · cases h

theorem unpack_pack_ne_notANumber {v : UnpackedFloat} (hv : v ≠ .notANumber) :
    UnpackedFloat.unpack .binary64 (UnpackedFloat.pack .binary64 v) ≠ .notANumber := by
  intro h
  have hinfinity : ∀ s, UnpackedFloat.unpack .binary64
      (UnpackedFloat.packedInfinity .binary64 s) ≠ .notANumber :=
    fun s hs => (components_of_notANumber hs).2 rfl
  cases v with
  | notANumber => exact hv rfl
  | infinity s => exact hinfinity s h
  | zero s =>
    change UnpackedFloat.unpack .binary64 (UnpackedFloat.packedZero .binary64 s) = _ at h
    rw [UnpackedFloat.unpack_packedZero] at h
    cases h
  | finite s m e hm =>
    unfold UnpackedFloat.pack at h
    simp only at h
    split at h
    · exact hinfinity s h
    · rename_i hsmall
      split at h
      · have hexp := congrArg BitVec.toNat (components_of_notANumber h).1
        rw [BitVec.toNat_ofNat, show (-1#11).toNat = 2047 by decide] at hexp
        omega
      · exact absurd (components_of_notANumber h).1 (by decide)

theorem isNaN_mul_of_left (h : x.isNaN = true) : (x * y).isNaN = true := by
  rw [isNaN_iff] at h ⊢
  rw [value_mul, h]
  exact UnpackedFloat.unpack_packedNaN

theorem isNaN_mul_of_right (h : y.isNaN = true) : (x * y).isNaN = true := by
  rw [isNaN_iff] at h ⊢
  have hmul : UnpackedFloat.mul .binary64 (value x) .notANumber = .notANumber := by
    cases value x with
    | notANumber => rfl
    | infinity s => rfl
    | zero s => rfl
    | finite s m e hm => rfl
  rw [value_mul, h, hmul]
  exact UnpackedFloat.unpack_packedNaN

/-- A factor that passes the range check spoils a product only by being no number itself. -/
theorem isNaN_mul_iff (hy : InRange y) :
    (x * y).isNaN = true ↔ x.isNaN = true ∨ y.isNaN = true := by
  constructor
  · intro h
    by_contra hnone
    rw [not_or, Bool.not_eq_true, Bool.not_eq_true] at hnone
    obtain ⟨s, m, e, hm, hvalue⟩ := hy.finite hnone.2
    have hx := isNaN_eq_false_iff.mp hnone.1
    rw [isNaN_iff, value_mul, hvalue] at h
    refine unpack_pack_ne_notANumber ?_ h
    cases hv : value x with
    | notANumber => exact absurd hv hx
    | infinity t => exact nofun
    | zero t => exact nofun
    | finite t m' e' hm' => exact round_ne_notANumber _ _ _ _
  · rintro (h | h)
    · exact isNaN_mul_of_left h
    · exact isNaN_mul_of_right h

/-- A product of factors that pass the range check is a number exactly if all of them are. -/
theorem isNaN_product_iff {xs : List Float} (hxs : ∀ x ∈ xs, InRange x) (start : Float) :
    (xs.foldl (· * ·) start).isNaN = true ↔
      start.isNaN = true ∨ ∃ x ∈ xs, x.isNaN = true := by
  induction xs generalizing start with
  | nil => simp
  | cons x xs ih =>
    obtain ⟨hx, hrest⟩ := List.forall_mem_cons.mp hxs
    rw [List.foldl_cons, ih hrest, isNaN_mul_iff hx, List.exists_mem_cons_iff, or_assoc]

end DualRail.Double
