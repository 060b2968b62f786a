import Mathlib

/-!
Photons on modes. A state is a polynomial in one variable for each mode: a monomial says how many
photons are on each mode. Passing a network replaces every variable by a column of its matrix. What
the columns leave apart stays apart, so photons are conserved wherever a network keeps them; and the
amplitude of a pattern is a permanent, divided by the number of ways to tell its photons apart.
-/

namespace DualRail

open MvPolynomial

section Passing

variable {σ : Type} [Fintype σ]

/-- What a network with matrix `G` makes of a state. -/
noncomputable def propagate (G : Matrix σ σ ℂ) : MvPolynomial σ ℂ →ₐ[ℂ] MvPolynomial σ ℂ :=
  aeval fun j => ∑ i, C (G i j) * X i

theorem propagate_X (G : Matrix σ σ ℂ) (j : σ) : propagate G (X j) = ∑ i, C (G i j) * X i := by
  rw [propagate, aeval_X]

theorem propagate_C_mul (G : Matrix σ σ ℂ) (z : ℂ) (P : MvPolynomial σ ℂ) :
    propagate G (C z * P) = C z * propagate G P := by
  rw [map_mul, propagate, aeval_C]
  rfl

theorem propagate_one [DecidableEq σ] (P : MvPolynomial σ ℂ) : propagate 1 P = P := by
  have h : propagate (1 : Matrix σ σ ℂ) = AlgHom.id ℂ _ := by
    apply MvPolynomial.algHom_ext
    intro j
    rw [propagate_X, Fintype.sum_eq_single j]
    · simp
    · intro i hi
      rw [Matrix.one_apply_ne hi, C_0, zero_mul]
  rw [h]
  rfl

/-- Passing one network after the other is passing the product of their matrices. -/
theorem propagate_mul (G H : Matrix σ σ ℂ) (P : MvPolynomial σ ℂ) :
    propagate (G * H) P = propagate G (propagate H P) := by
  have h : propagate (G * H) = (propagate G).comp (propagate H) := by
    apply MvPolynomial.algHom_ext
    intro j
    have hterm : ∀ i, propagate G (C (H i j) * X i) = ∑ k, C (H i j) * (C (G k i) * X k) := by
      intro i
      rw [propagate_C_mul, propagate_X, Finset.mul_sum]
    rw [AlgHom.comp_apply, propagate_X, propagate_X, map_sum,
      Finset.sum_congr rfl fun i _ => hterm i, Finset.sum_comm]
    refine Finset.sum_congr rfl fun k _ => ?_
    rw [Matrix.mul_apply, map_sum, Finset.sum_mul]
    refine Finset.sum_congr rfl fun i _ => ?_
    rw [C_mul]
    ring
  rw [h]
  rfl

theorem isWeightedHomogeneous_propagate {N : Type} [AddCommMonoid N] {G : Matrix σ σ ℂ}
    {after before : σ → N} (hG : ∀ i j, G i j ≠ 0 → after i = before j) (u : σ →₀ ℕ) (a : ℂ) :
    IsWeightedHomogeneous after (propagate G (monomial u a)) (Finsupp.weight before u) := by
  have hX : ∀ j, IsWeightedHomogeneous after (propagate G (X j)) (before j) := by
    intro j
    rw [propagate_X]
    refine IsWeightedHomogeneous.sum _ _ _ fun i _ => ?_
    by_cases h : G i j = 0
    · rw [h, C_0, zero_mul]
      exact isWeightedHomogeneous_zero _ _ _
    · rw [← hG i j h]
      exact (isWeightedHomogeneous_X ℂ _ i).C_mul _
  rw [monomial_eq, propagate_C_mul, map_finsuppProd, Finsupp.weight_apply]
  refine IsWeightedHomogeneous.C_mul (IsWeightedHomogeneous.prod _ _ _ fun j _ => ?_) a
  simp only [map_pow]
  exact (hX j).pow _

theorem photons_conserved {G : Matrix σ σ ℂ} {u v : σ →₀ ℕ} {a : ℂ}
    (h : coeff v (propagate G (monomial u a)) ≠ 0) : ∑ i, v i = ∑ i, u i := by
  have hweight : Finsupp.weight (fun _ => 1 : σ → ℕ) v = Finsupp.weight (fun _ => 1 : σ → ℕ) u :=
    isWeightedHomogeneous_propagate (fun _ _ _ => rfl) u a h
  simpa only [Finsupp.weight_eq_sum, smul_eq_mul, mul_one] using hweight

end Passing

section Permanent

variable {σ κ : Type} [Fintype κ]

noncomputable def occupied (f : κ → σ) : σ →₀ ℕ := ∑ k, Finsupp.single (f k) 1

theorem prod_X_eq_monomial {ι : Type} (s : Finset ι) (f : ι → σ) :
    ∏ i ∈ s, (X (f i) : MvPolynomial σ ℂ) = monomial (∑ i ∈ s, Finsupp.single (f i) 1) 1 := by
  rw [monomial_sum_one]
  rfl

theorem occupied_apply [DecidableEq σ] (f : κ → σ) (i : σ) :
    occupied f i = Fintype.card {k // f k = i} := by
  rw [occupied, Finsupp.finsetSum_apply, Fintype.card_subtype, Finset.card_filter]
  exact Finset.sum_congr rfl fun k _ => Finsupp.single_apply

theorem sum_occupied [Fintype σ] (f : κ → σ) : ∑ i, occupied f i = Fintype.card κ := by
  classical
  simp only [occupied, Finsupp.finsetSum_apply]
  rw [Finset.sum_comm, ← Finset.card_univ, Finset.card_eq_sum_ones]
  refine Finset.sum_congr rfl fun k _ => ?_
  rw [Fintype.sum_eq_single (f k) fun i hi => Finsupp.single_eq_of_ne hi, Finsupp.single_eq_same]

theorem occupied_comp_perm (f : κ → σ) (τ : Equiv.Perm κ) : occupied (f ∘ τ) = occupied f :=
  Equiv.sum_comp τ fun k => Finsupp.single (f k) 1

theorem exists_perm_of_occupied [DecidableEq σ] {f h : κ → σ} (he : occupied h = occupied f) :
    ∃ τ : Equiv.Perm κ, f ∘ τ = h := by
  have hfibre : ∀ i, Nonempty ({k // h k = i} ≃ {k // f k = i}) := by
    intro i
    rw [← Fintype.card_eq, ← occupied_apply, ← occupied_apply, he]
  have e : ∀ i, {k // h k = i} ≃ {k // f k = i} := fun i => (hfibre i).some
  refine ⟨(Equiv.sigmaFiberEquiv h).symm.trans
    ((Equiv.sigmaCongrRight e).trans (Equiv.sigmaFiberEquiv f)), ?_⟩
  funext k
  exact (e (h k) ⟨k, rfl⟩).2

variable [Fintype σ] [DecidableEq κ]

theorem propagate_prod_X (G : Matrix σ σ ℂ) (g : κ → σ) :
    propagate G (∏ k, X (g k)) =
      ∑ h : κ → σ, C (∏ k, G (h k) (g k)) * monomial (occupied h) 1 := by
  rw [map_prod, Finset.prod_congr rfl fun k _ => propagate_X G (g k), Finset.prod_univ_sum,
    Fintype.piFinset_univ]
  refine Finset.sum_congr rfl fun h _ => ?_
  rw [Finset.prod_mul_distrib, ← map_prod, prod_X_eq_monomial]
  rfl

variable [DecidableEq σ]

theorem card_perm_comp (f h : κ → σ) :
    (Finset.univ.filter fun τ : Equiv.Perm κ => f ∘ τ = h).card =
      if occupied h = occupied f then ∏ i, (occupied f i).factorial else 0 := by
  by_cases he : occupied h = occupied f
  · obtain ⟨τ, rfl⟩ := exists_perm_of_occupied he
    have hfibres : ∏ i, (occupied f i).factorial = ∏ i, (Fintype.card {k // f k = i}).factorial :=
      Finset.prod_congr rfl fun i _ => by rw [occupied_apply]
    rw [if_pos he, hfibres, ← DomMulAct.stabilizer_card f, Fintype.card_subtype]
    refine Finset.card_bij (fun ρ _ => ρ * τ⁻¹) ?_ ?_ ?_
    · intro ρ hρ
      have hρ := (Finset.mem_filter.mp hρ).2
      refine Finset.mem_filter.mpr ⟨Finset.mem_univ _, funext fun k => ?_⟩
      have hk := congrFun hρ (τ⁻¹ k)
      simpa using hk
    · intro ρ _ ρ' _ heq
      exact mul_right_cancel heq
    · intro ρ hρ
      have hρ := (Finset.mem_filter.mp hρ).2
      refine ⟨ρ * τ, Finset.mem_filter.mpr ⟨Finset.mem_univ _, ?_⟩, mul_inv_cancel_right ρ τ⟩
      rw [Equiv.Perm.coe_mul, ← Function.comp_assoc, hρ]
  · rw [if_neg he, Finset.card_eq_zero, Finset.filter_eq_empty_iff]
    rintro τ - rfl
    exact he (occupied_comp_perm f τ)

/-- The permanent for photons that come in on `g` and go out on `f` is the amplitude of the modes
`f`, once for each way to tell the photons on them apart. -/
theorem permanent_eq_coeff (G : Matrix σ σ ℂ) (f g : κ → σ) :
    (Matrix.permanent fun i j => G (f i) (g j)) =
      (∏ i, (occupied f i).factorial : ℕ) *
        coeff (occupied f) (propagate G (∏ k, X (g k))) := by
  have hcoeff : ∀ h : κ → σ,
      coeff (occupied f) (C (∏ k, G (h k) (g k)) * monomial (occupied h) 1) =
        if occupied h = occupied f then ∏ k, G (h k) (g k) else 0 := by
    intro h
    rw [coeff_C_mul, coeff_monomial, mul_ite, mul_one, mul_zero]
  have hfibre : ∀ h : κ → σ,
      ∑ τ ∈ Finset.univ.filter (fun τ : Equiv.Perm κ => f ∘ τ = h), ∏ k, G (f (τ k)) (g k) =
        (∏ i, (occupied f i).factorial : ℕ) *
          if occupied h = occupied f then ∏ k, G (h k) (g k) else 0 := by
    intro h
    have hconst : ∀ τ ∈ Finset.univ.filter (fun τ : Equiv.Perm κ => f ∘ τ = h),
        ∏ k, G (f (τ k)) (g k) = ∏ k, G (h k) (g k) := by
      intro τ hτ
      rw [← (Finset.mem_filter.mp hτ).2]
      rfl
    rw [Finset.sum_congr rfl hconst, Finset.sum_const, card_perm_comp, nsmul_eq_mul]
    by_cases he : occupied h = occupied f
    · rw [if_pos he, if_pos he]
    · rw [if_neg he, if_neg he, Nat.cast_zero, zero_mul, mul_zero]
  rw [propagate_prod_X, coeff_sum, Finset.sum_congr rfl fun h _ => hcoeff h, Finset.mul_sum,
    ← Finset.sum_congr rfl fun h _ => hfibre h]
  exact (Finset.sum_fiberwise _ (fun τ : Equiv.Perm κ => f ∘ τ) _).symm

end Permanent

end DualRail
