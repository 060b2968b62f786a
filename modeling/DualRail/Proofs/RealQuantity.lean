import Mathlib
import DualRail.Catalog.Standard
import DualRail.Proofs.ExactMatrix

/-!
The real numbers as quantities. Read over them, amplitudes are the complex numbers, and matrix
arithmetic is exact.
-/

namespace DualRail

open Classical in
noncomputable instance : Quantity ℝ where
  beq x y := decide (x = y)
  ofNat n := n
  le x y := decide (x ≤ y)
  lt x y := decide (x < y)
  isFinite _ := true
  pi := Real.pi
  cos := Real.cos
  sin := Real.sin
  acos := Real.arccos
  sqrt := Real.sqrt
  hypot x y := Real.sqrt (x ^ 2 + y ^ 2)
  shortest _ := ""
  significant _ _ := ""

section Tests

variable {x y : ℝ}

theorem real_le_iff : Quantity.le x y = true ↔ x ≤ y := decide_eq_true_iff

theorem real_lt_iff : Quantity.lt x y = true ↔ x < y := decide_eq_true_iff

theorem real_beq_iff : (x == y) = true ↔ x = y := decide_eq_true_iff

end Tests

section Functions

@[simp] theorem real_ofNat (n : Nat) : (Quantity.ofNat n : ℝ) = n := rfl

@[simp] theorem real_pi : (Quantity.pi : ℝ) = Real.pi := by rfl

@[simp] theorem real_cos (x : ℝ) : Quantity.cos x = Real.cos x := by rfl

@[simp] theorem real_sin (x : ℝ) : Quantity.sin x = Real.sin x := by rfl

@[simp] theorem real_acos (x : ℝ) : Quantity.acos x = Real.arccos x := by rfl

@[simp] theorem real_sqrt (x : ℝ) : Quantity.sqrt x = Real.sqrt x := by rfl

end Functions

namespace Amplitude

def toComplex (z : Amplitude ℝ) : ℂ := ⟨z.re, z.im⟩

theorem toComplex_injective : Function.Injective toComplex := by
  rintro ⟨a, b⟩ ⟨c, d⟩ h
  have h₁ := congrArg Complex.re h
  have h₂ := congrArg Complex.im h
  simp only [toComplex] at h₁ h₂
  rw [h₁, h₂]

noncomputable instance : Neg (Amplitude ℝ) := ⟨Amplitude.neg⟩

noncomputable instance : ExactScalar (Amplitude ℝ) :=
  { (inferInstance : Scalar (Amplitude ℝ)) with
    neg := Neg.neg
    nsmul := nsmulRec
    zsmul := zsmulRec
    add_assoc := fun a b c => toComplex_injective (add_assoc a.toComplex b.toComplex c.toComplex)
    zero_add := fun a => toComplex_injective (zero_add a.toComplex)
    add_zero := fun a => toComplex_injective (add_zero a.toComplex)
    add_comm := fun a b => toComplex_injective (add_comm a.toComplex b.toComplex)
    left_distrib := fun a b c => toComplex_injective
      (mul_add a.toComplex b.toComplex c.toComplex)
    right_distrib := fun a b c => toComplex_injective
      (add_mul a.toComplex b.toComplex c.toComplex)
    zero_mul := fun a => toComplex_injective (zero_mul a.toComplex)
    mul_zero := fun a => toComplex_injective (mul_zero a.toComplex)
    mul_assoc := fun a b c => toComplex_injective (mul_assoc a.toComplex b.toComplex c.toComplex)
    one_mul := fun a => toComplex_injective (one_mul a.toComplex)
    mul_one := fun a => toComplex_injective (mul_one a.toComplex)
    neg_add_cancel := fun a => toComplex_injective (neg_add_cancel a.toComplex)
    mul_comm := fun a b => toComplex_injective (mul_comm a.toComplex b.toComplex)
    isZero_iff := fun a => by
      obtain ⟨x, y⟩ := a
      change ((x == 0) && (y == 0)) = true ↔ (⟨x, y⟩ : Amplitude ℝ) = ⟨0, 0⟩
      rw [Bool.and_eq_true, real_beq_iff, real_beq_iff, Amplitude.mk.injEq] }

noncomputable def complexHom : Amplitude ℝ →+* ℂ where
  toFun := toComplex
  map_one' := rfl
  map_mul' _ _ := rfl
  map_zero' := rfl
  map_add' _ _ := rfl

@[simp] theorem toComplex_ofReal (x : ℝ) : (ofReal x).toComplex = x := by rfl

@[simp] theorem toComplex_i : (i : Amplitude ℝ).toComplex = Complex.I := by rfl

@[simp] theorem toComplex_neg (z : Amplitude ℝ) : z.neg.toComplex = -z.toComplex := by rfl

@[simp] theorem toComplex_mul (z w : Amplitude ℝ) :
    (z * w).toComplex = z.toComplex * w.toComplex := by rfl

@[simp] theorem toComplex_cis (x : ℝ) : (cis x).toComplex = Complex.exp (x * Complex.I) := by
  apply Complex.ext
  · rw [Complex.exp_ofReal_mul_I_re]
    rfl
  · rw [Complex.exp_ofReal_mul_I_im]
    rfl

end Amplitude

end DualRail
