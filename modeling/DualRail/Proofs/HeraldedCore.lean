import DualRail.Proofs.ControlledGates
import DualRail.Proofs.HeraldedState

/-!
The photons of a heralded controlled gate. Its core mixes the rails of `1` of both qubits with two
modes that hold a photon each. Where these show a photon each again, the photons of the qubits come
out as they went in, and two of them change sign; a beam splitter before and behind the core on the
target turns the change of sign into an exchange.
-/

namespace DualRail

open MvPolynomial

namespace Standard

noncomputable def fourModes (a b c d : ℕ) : Fin 4 →₀ ℕ :=
  Finsupp.equivFunOnFinite.symm ![a, b, c, d]

theorem fourModes_sub (a b c d : ℕ) :
    fourModes a b c d - Finsupp.single 0 1 = fourModes (a - 1) b c d ∧
    fourModes a b c d - Finsupp.single 1 1 = fourModes a (b - 1) c d ∧
    fourModes a b c d - Finsupp.single 2 1 = fourModes a b (c - 1) d ∧
    fourModes a b c d - Finsupp.single 3 1 = fourModes a b c (d - 1) := by
  refine ⟨?_, ?_, ?_, ?_⟩ <;> ext i <;> fin_cases i <;> simp [fourModes]

theorem coeff_fourModes_mul (k : Fin 4 → ℂ) (a b c d : ℕ) (Q : MvPolynomial (Fin 4) ℂ) :
    coeff (fourModes a b c d) ((∑ i, C (k i) * X i) * Q) =
      (if a = 0 then 0 else k 0 * coeff (fourModes (a - 1) b c d) Q) +
      (if b = 0 then 0 else k 1 * coeff (fourModes a (b - 1) c d) Q) +
      (if c = 0 then 0 else k 2 * coeff (fourModes a b (c - 1) d) Q) +
      (if d = 0 then 0 else k 3 * coeff (fourModes a b c (d - 1)) Q) := by
  obtain ⟨h₀, h₁, h₂, h₃⟩ := fourModes_sub a b c d
  have hterm : ∀ i, coeff (fourModes a b c d) (C (k i) * X i * Q) =
      if fourModes a b c d i = 0 then 0
      else k i * coeff (fourModes a b c d - Finsupp.single i 1) Q := by
    intro i
    rw [mul_assoc, coeff_C_mul, coeff_X_mul', mul_ite, mul_zero]
    simp only [Finsupp.mem_support_iff, ne_eq, ite_not]
  rw [Finset.sum_mul, coeff_sum, Fin.sum_univ_four, hterm, hterm, hterm, hterm, h₀, h₁, h₂, h₃]
  rfl

theorem monomial_fourModes (y z : Fin 2) :
    (monomial (fourModes y 1 1 z) 1 : MvPolynomial (Fin 4) ℂ) =
      X 0 ^ (y : ℕ) * (X 3 ^ (z : ℕ) * (X 1 * (X 2 * 1))) := by
  rw [monomial_eq, C_1, one_mul, Finsupp.prod_fintype _ _ fun i => pow_zero _, Fin.prod_univ_four]
  change X 0 ^ (y : ℕ) * X 1 ^ 1 * X 2 ^ 1 * X 3 ^ (z : ℕ) = _
  ring

theorem coeff_fourModes_one : coeff (fourModes 0 0 0 0) (1 : MvPolynomial (Fin 4) ℂ) = 1 := by
  have hzero : fourModes 0 0 0 0 = 0 := by
    ext i
    fin_cases i <;> rfl
  rw [hzero, coeff_zero_one]

theorem propagate_fourModes (G : Matrix (Fin 4) (Fin 4) ℂ) (y z : Fin 2) :
    propagate G (monomial (fourModes y 1 1 z) 1) =
      (∑ i, C (G i 0) * X i) ^ (y : ℕ) * ((∑ i, C (G i 3) * X i) ^ (z : ℕ) *
        ((∑ i, C (G i 1) * X i) * ((∑ i, C (G i 2) * X i) * 1))) := by
  simp only [monomial_fourModes, map_mul, map_pow, map_one, propagate_X]

/-- Where the heralds show one photon each, the photons of the qubits come out as they went in, and
two of them change sign. -/
theorem coeff_heraldCore (y z : Fin 2) {a d : ℕ} (h : a + d = y + z) :
    coeff (fourModes a 1 1 d) (propagate heraldCore (monomial (fourModes y 1 1 z) 1)) =
      if a = y ∧ d = z then heraldFactor * (if y = 1 ∧ z = 1 then -1 else 1) else 0 := by
  have htwo := rootTwo_mul_self
  have hsix := rootSix_mul_self
  have hss := strong_mul_self
  have hww := weak_mul_self
  have hsw := strong_mul_weak
  have hone := coeff_fourModes_one
  rw [propagate_fourModes]
  fin_cases y <;> fin_cases z
  · obtain ⟨rfl, rfl⟩ : a = 0 ∧ d = 0 := by simpa using h
    simp [-mul_one, coeff_fourModes_mul, heraldCore, heraldFactor, hone]
    grind
  · obtain ⟨rfl, rfl⟩ | ⟨rfl, rfl⟩ : (a = 0 ∧ d = 1) ∨ (a = 1 ∧ d = 0) := by
      simp at h
      omega
    all_goals
      simp [-mul_one, coeff_fourModes_mul, heraldCore, heraldFactor, hone]
      grind
  · obtain ⟨rfl, rfl⟩ | ⟨rfl, rfl⟩ : (a = 0 ∧ d = 1) ∨ (a = 1 ∧ d = 0) := by
      simp at h
      omega
    all_goals
      simp [-mul_one, coeff_fourModes_mul, heraldCore, heraldFactor, hone]
      grind
  · obtain ⟨rfl, rfl⟩ | ⟨rfl, rfl⟩ | ⟨rfl, rfl⟩ :
        (a = 0 ∧ d = 2) ∨ (a = 1 ∧ d = 1) ∨ (a = 2 ∧ d = 0) := by
      simp at h
      omega
    all_goals
      simp [-mul_one, coeff_fourModes_mul, heraldCore, heraldFactor, hone]
      grind

theorem fourModes_inj {a b c d a' b' c' d' : ℕ} :
    fourModes a b c d = fourModes a' b' c' d' ↔ a = a' ∧ b = b' ∧ c = c' ∧ d = d' := by
  rw [fourModes, fourModes, EmbeddingLike.apply_eq_iff_eq]
  simp

theorem agreeOn_heraldCore (y z : Fin 2) :
    AgreeOn {1, 2} (fun _ => 1) (propagate heraldCore (monomial (fourModes y 1 1 z) 1))
      (C (heraldFactor * if y = 1 ∧ z = 1 then -1 else 1) * monomial (fourModes y 1 1 z) 1) := by
  intro u hu
  obtain ⟨a, d, rfl⟩ : ∃ a d, u = fourModes a 1 1 d := by
    refine ⟨u 0, u 3, ?_⟩
    ext i
    fin_cases i
    · rfl
    · exact hu 1 (by simp)
    · exact hu 2 (by simp)
    · rfl
  rw [coeff_C_mul, coeff_monomial, mul_ite, mul_one, mul_zero]
  by_cases hsum : a + d = y + z
  · rw [coeff_heraldCore y z hsum]
    refine if_congr ?_ rfl rfl
    rw [fourModes_inj]
    omega
  · have hne : fourModes y 1 1 z ≠ fourModes a 1 1 d := by
      rw [ne_eq, fourModes_inj]
      omega
    rw [if_neg hne]
    by_contra hcoeff
    have hcount := photons_conserved hcoeff
    simp only [Fin.sum_univ_four] at hcount
    change a + 1 + 1 + d = y + 1 + 1 + z at hcount
    omega

/-- The photons of a heralded gate: one on each of two ancillas, one on the rail of the bit `y` of
the control and one on that of the bit `z` of the target. -/
noncomputable def eightModes (y z : Fin 2) : Fin 8 →₀ ℕ :=
  Finsupp.equivFunOnFinite.symm ![0, 1, 1 - y, y, 1 - z, z, 0, 1]

def coreModes : Fin 4 → Fin 8 := ![3, 1, 7, 5]

def heraldModes : Set (Fin 8) := {0, 1, 6, 7}

def heraldCounts : Fin 8 → ℕ := ![0, 1, 0, 0, 0, 0, 0, 1]

theorem eightModes_herald (y z : Fin 2) {i : Fin 8} (hi : i ∈ heraldModes) :
    eightModes y z i = heraldCounts i := by
  rcases hi with rfl | rfl | rfl | rfl <;> simp [eightModes, heraldCounts]

/-- Under the heralds, the matrix acts as `A` on the target if the control is `1`. -/
structure HeraldsControlled (W : Matrix (Fin 8) (Fin 8) ℂ) (A : Matrix (Fin 2) (Fin 2) ℂ) :
    Prop where
  agree : ∀ y z : Fin 2, AgreeOn heraldModes heraldCounts
    (propagate W (monomial (eightModes y z) 1))
    (C heraldFactor * ∑ b, C ((if y = 1 then A else 1) b z) * monomial (eightModes y b) 1)

theorem eightModes_coreModes (y z : Fin 2) (i : Fin 4) :
    eightModes y z (coreModes i) = fourModes y 1 1 z i := by
  fin_cases i <;> simp [eightModes, fourModes, coreModes]

/-- The core between its ancillas and the rails of `1` is a controlled change of sign. -/
theorem heraldsControlled_core {W : Matrix (Fin 8) (Fin 8) ℂ}
    (h : ActsOn W coreModes heraldCore) : HeraldsControlled W !![1, 0; 0, -1] := by
  refine ⟨fun y z => ?_⟩
  have hlocal : AgreeOn {1, 2} (heraldCounts ∘ coreModes)
      (propagate heraldCore (monomial (fourModes y 1 1 z) 1))
      (C (heraldFactor * if y = 1 ∧ z = 1 then -1 else 1) * monomial (fourModes y 1 1 z) 1) := by
    refine (agreeOn_heraldCore y z).congr fun i hi => ?_
    rcases hi with rfl | rfl
    · rfl
    · rfl
  have hagree := h.agreeOn_monomial (eightModes_coreModes y z) hlocal
  rw [map_mul, rename_C, mul_assoc,
    rename_mul_besides h.injective (eightModes_coreModes y z) fun _ _ => rfl] at hagree
  have hsum : ∑ b, C ((if y = 1 then !![1, 0; 0, -1] else (1 : Matrix (Fin 2) (Fin 2) ℂ)) b z) *
      monomial (eightModes y b) (1 : ℂ) =
      C (if y = 1 ∧ z = 1 then -1 else 1) * monomial (eightModes y z) 1 := by
    rw [Fin.sum_univ_two]
    obtain rfl | rfl : y = 0 ∨ y = 1 := by omega
    all_goals obtain rfl | rfl : z = 0 ∨ z = 1 := by omega
    all_goals simp
  rw [hsum, ← mul_assoc, ← C_mul]
  refine hagree.mono ?_
  rintro _ ⟨i, hi, rfl⟩
  rcases hi with rfl | rfl
  · exact .inr (.inl rfl)
  · exact .inr (.inr (.inr rfl))

end Standard

def pairModes {m o : Nat} (h : o + 2 ≤ m) (b : Fin 2) : Fin m := ⟨o + b, by omega⟩

theorem mem_range_pairModes {m o : Nat} (h : o + 2 ≤ m) {i : Fin m} :
    i ∈ Set.range (pairModes h) ↔ i.val = o ∨ i.val = o + 1 := by
  constructor
  · rintro ⟨b, rfl⟩
    have := b.isLt
    simp only [pairModes]
    omega
  · rintro (hi | hi)
    · exact ⟨0, Fin.ext hi.symm⟩
    · exact ⟨1, Fin.ext hi.symm⟩

theorem actsOn_pairMatrix {m o : Nat} (h : o + 2 ≤ m) (B : Matrix (Fin 2) (Fin 2) ℂ) :
    ActsOn (pairMatrix m o B) (pairModes h) B := by
  refine ⟨fun a b hab => ?_, fun i j => ?_, fun i j hij => ?_⟩
  · have := congrArg Fin.val hab
    simp only [pairModes] at this
    omega
  · fin_cases i <;> fin_cases j <;> simp [pairModes, pairMatrix]
  · rw [mem_range_pairModes h, mem_range_pairModes h] at hij
    exact pairMatrix_outside B (by omega)

namespace Standard

def targetModes : Fin 2 → Fin 8 := pairModes (show 4 + 2 ≤ 8 by omega)

theorem propagate_target (B : Matrix (Fin 2) (Fin 2) ℂ) (y z : Fin 2) :
    propagate (pairMatrix 8 4 B) (monomial (eightModes y z) 1) =
      ∑ b, C (B b z) * monomial (eightModes y b) 1 := by
  have h : ActsOn (pairMatrix 8 4 B) targetModes B := actsOn_pairMatrix _ B
  have hbit : ∀ b i, eightModes y b (targetModes i) = Finsupp.single b 1 i := by
    intro b i
    fin_cases b <;> fin_cases i <;> simp [eightModes, targetModes, pairModes]
  have hother : ∀ b i, i ∉ Set.range targetModes → eightModes y b i = eightModes y z i := by
    intro b i hi
    rw [targetModes, mem_range_pairModes] at hi
    fin_cases i <;> simp [eightModes] at hi ⊢
  rw [h.propagate_monomial (hbit z)]
  change rename _ (propagate B (X z)) * _ = _
  rw [propagate_X, map_sum, Finset.sum_mul]
  refine Finset.sum_congr rfl fun b _ => ?_
  rw [map_mul, rename_C, mul_assoc]
  change C (B b z) * (rename _ (monomial (Finsupp.single b 1) 1) * _) = _
  rw [rename_mul_besides h.injective (hbit b) (hother b)]

/-- Beam splitters on the target before and behind. -/
theorem HeraldsControlled.conjugate {W : Matrix (Fin 8) (Fin 8) ℂ} {A B : Matrix (Fin 2) (Fin 2) ℂ}
    (h : HeraldsControlled W A) (hB : B * B = 1) :
    HeraldsControlled (pairMatrix 8 4 B * (W * pairMatrix 8 4 B)) (B * (A * B)) := by
  refine ⟨fun y z => ?_⟩
  have hbypass : ∀ i ∈ heraldModes, Bypasses (pairMatrix 8 4 B) i := by
    intro i hi
    apply (actsOn_pairMatrix (show 4 + 2 ≤ 8 by omega) B).bypasses
    rw [mem_range_pairModes]
    rcases hi with rfl | rfl | rfl | rfl <;> simp
  have hmatrix : (if y = 1 then B * (A * B) else 1) = B * ((if y = 1 then A else 1) * B) := by
    by_cases hy : y = 1
    · rw [if_pos hy, if_pos hy]
    · rw [if_neg hy, if_neg hy, Matrix.one_mul, hB]
  -- Before, in between and after: the photon of the target goes through three matrices.
  have hmiddle : AgreeOn heraldModes heraldCounts
      (∑ b, C (B b z) * propagate W (monomial (eightModes y b) 1))
      (∑ b, C (B b z) * (C heraldFactor *
        ∑ a, C ((if y = 1 then A else 1) a b) * monomial (eightModes y a) 1)) :=
    AgreeOn.sum fun b _ => (h.agree y b).C_mul (B b z)
  have hall := hmiddle.propagate hbypass
  rw [hmatrix, propagate_mul, propagate_mul, propagate_target, map_sum]
  simp only [propagate_C_mul]
  have hsum : propagate (pairMatrix 8 4 B) (∑ b, C (B b z) * (C heraldFactor *
      ∑ a, C ((if y = 1 then A else 1) a b) * monomial (eightModes y a) 1)) =
      C heraldFactor * ∑ b, C ((B * ((if y = 1 then A else 1) * B)) b z) *
        monomial (eightModes y b) 1 := by
    simp only [map_add, propagate_C_mul, propagate_target, Matrix.mul_apply, Fin.sum_univ_two,
      C_mul]
    ring
  rw [← hsum]
  simpa only [map_sum, propagate_C_mul] using hall

noncomputable def balancedMatrix : Matrix (Fin 2) (Fin 2) ℂ := half • !![1, 1; 1, -1]

theorem balancedMatrix_mul_self : balancedMatrix * balancedMatrix = 1 := by
  have hhalf := half_mul_self
  funext i j
  fin_cases i <;> fin_cases j <;> simp [balancedMatrix, Matrix.mul_apply] <;> grind

theorem balancedMatrix_sign :
    balancedMatrix * (!![1, 0; 0, -1] * balancedMatrix) = !![0, 1; 1, 0] := by
  have hhalf := half_mul_self
  funext i j
  fin_cases i <;> fin_cases j <;> simp [balancedMatrix, Matrix.mul_apply] <;> grind

theorem balancedMatrix_exchange :
    balancedMatrix * (!![0, 1; 1, 0] * balancedMatrix) = !![1, 0; 0, -1] := by
  rw [← balancedMatrix_sign]
  have h := balancedMatrix_mul_self
  calc balancedMatrix * (balancedMatrix * (!![1, 0; 0, -1] * balancedMatrix) * balancedMatrix)
      = balancedMatrix * balancedMatrix * !![1, 0; 0, -1] * (balancedMatrix * balancedMatrix) := by
        simp only [Matrix.mul_assoc]
    _ = !![1, 0; 0, -1] := by rw [h, Matrix.one_mul, Matrix.mul_one]

end Standard

end DualRail
