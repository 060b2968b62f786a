import Mathlib
import DualRail.Proofs.Photons

/-!
States seen through heralds. A herald fixes the number of photons on a mode; states agree under
heralds if they give the same amplitude to every pattern that shows them. Networks that bypass the
heralded modes keep agreement, and a network that acts on a few modes only can be judged there.
-/

namespace DualRail

open MvPolynomial

section Agreement

variable {σ : Type} {S T : Set σ} {d : σ → ℕ} {P Q R : MvPolynomial σ ℂ}

/-- Every pattern with `d i` photons on each mode `i` of `S` has the same amplitude in both. -/
def AgreeOn (S : Set σ) (d : σ → ℕ) (P Q : MvPolynomial σ ℂ) : Prop :=
  ∀ u : σ →₀ ℕ, (∀ i ∈ S, u i = d i) → coeff u P = coeff u Q

theorem AgreeOn.refl (S : Set σ) (d : σ → ℕ) (P : MvPolynomial σ ℂ) : AgreeOn S d P P :=
  fun _ _ => rfl

theorem AgreeOn.trans (h : AgreeOn S d P Q) (h' : AgreeOn S d Q R) : AgreeOn S d P R :=
  fun u hu => (h u hu).trans (h' u hu)

theorem AgreeOn.mono (h : AgreeOn S d P Q) (hST : S ⊆ T) : AgreeOn T d P Q :=
  fun u hu => h u fun i hi => hu i (hST hi)

theorem AgreeOn.congr (h : AgreeOn S d P Q) {d' : σ → ℕ} (hd : ∀ i ∈ S, d' i = d i) :
    AgreeOn S d' P Q :=
  fun u hu => h u fun i hi => (hu i hi).trans (hd i hi)

theorem AgreeOn.C_mul (z : ℂ) (h : AgreeOn S d P Q) : AgreeOn S d (C z * P) (C z * Q) := by
  intro u hu
  rw [coeff_C_mul, coeff_C_mul, h u hu]

theorem AgreeOn.sum {ι : Type} {s : Finset ι} {P Q : ι → MvPolynomial σ ℂ}
    (h : ∀ i ∈ s, AgreeOn S d (P i) (Q i)) : AgreeOn S d (∑ i ∈ s, P i) (∑ i ∈ s, Q i) := by
  intro u hu
  rw [coeff_sum, coeff_sum]
  exact Finset.sum_congr rfl fun i hi => h i hi u hu

end Agreement

section Bypass

variable {σ : Type} [Fintype σ] {G : Matrix σ σ ℂ}

/-- The network takes no photon from the mode to another and brings none there. -/
def Bypasses (G : Matrix σ σ ℂ) (i : σ) : Prop := ∀ k, k ≠ i → G k i = 0 ∧ G i k = 0

theorem Bypasses.count_eq {i : σ} (h : Bypasses G i) {u v : σ →₀ ℕ} {a : ℂ}
    (hv : coeff v (propagate G (monomial u a)) ≠ 0) : v i = u i := by
  classical
  have hG : ∀ k j, G k j ≠ 0 → (Pi.single i 1 : σ → ℕ) k = (Pi.single i 1 : σ → ℕ) j := by
    intro k j hkj
    by_cases hk : k = i
    · by_cases hj : j = i
      · rw [hk, hj]
      · exact absurd ((h j hj).2) (hk ▸ hkj)
    · by_cases hj : j = i
      · exact absurd ((h k hk).1) (hj ▸ hkj)
      · rw [Pi.single_eq_of_ne hk, Pi.single_eq_of_ne hj]
  have hweight := isWeightedHomogeneous_propagate hG u a hv
  rwa [Finsupp.weight_single_one_apply, Finsupp.weight_single_one_apply] at hweight

/-- A network that bypasses the heralded modes keeps agreement. -/
theorem AgreeOn.propagate {S : Set σ} {d : σ → ℕ} {P Q : MvPolynomial σ ℂ} (h : AgreeOn S d P Q)
    (hS : ∀ i ∈ S, Bypasses G i) :
    AgreeOn S d (DualRail.propagate G P) (DualRail.propagate G Q) := by
  intro u hu
  rw [← sub_eq_zero, ← coeff_sub, ← map_sub, (P - Q).as_sum, map_sum, coeff_sum]
  refine Finset.sum_eq_zero fun v hv => ?_
  by_contra hne
  -- A pattern that reaches `u` shows the same heralds, where the states do not differ.
  have hmatch : ∀ i ∈ S, v i = d i := fun i hi => ((hS i hi).count_eq hne).symm.trans (hu i hi)
  have hdiff := mem_support_iff.mp hv
  rw [coeff_sub, sub_ne_zero] at hdiff
  exact hdiff (h v hmatch)

end Bypass

section Acting

variable {σ τ : Type} {e : τ → σ}

noncomputable def besides (he : Function.Injective e) (u : σ →₀ ℕ) : σ →₀ ℕ :=
  u - (u.comapDomain e he.injOn).mapDomain e

theorem besides_inside (he : Function.Injective e) (u : σ →₀ ℕ) (i : τ) :
    besides he u (e i) = 0 := by
  rw [besides, Finsupp.tsub_apply, Finsupp.mapDomain_apply he, Finsupp.comapDomain_apply,
    Nat.sub_self]

theorem besides_outside (he : Function.Injective e) (u : σ →₀ ℕ) {i : σ} (hi : i ∉ Set.range e) :
    besides he u i = u i := by
  rw [besides, Finsupp.tsub_apply, Finsupp.mapDomain_of_notMem_range _ _ hi, Nat.sub_zero]

theorem rename_mul_besides (he : Function.Injective e) {u w : σ →₀ ℕ} {v : τ →₀ ℕ}
    (hv : ∀ i, w (e i) = v i) (hw : ∀ i, i ∉ Set.range e → w i = u i) :
    rename e (monomial v 1) * monomial (besides he u) 1 =
      (monomial w 1 : MvPolynomial σ ℂ) := by
  have hsum : v.mapDomain e + besides he u = w := by
    ext i
    rw [Finsupp.add_apply]
    by_cases hi : i ∈ Set.range e
    · obtain ⟨j, rfl⟩ := hi
      rw [Finsupp.mapDomain_apply he, besides_inside, add_zero, hv]
    · rw [Finsupp.mapDomain_of_notMem_range _ _ hi, besides_outside he u hi, zero_add, hw i hi]
  rw [rename_monomial, monomial_mul, mul_one, hsum]

theorem AgreeOn.rename_mul (he : Function.Injective e) {S : Set τ} {d : σ → ℕ}
    {P Q : MvPolynomial τ ℂ} (h : AgreeOn S (d ∘ e) P Q) {r : σ →₀ ℕ} (hr : ∀ i ∈ S, r (e i) = 0) :
    AgreeOn (Set.image e S) d (rename e P * monomial r 1) (rename e Q * monomial r 1) := by
  intro u hu
  have hrename : coeff (u - r) (rename e P) = coeff (u - r) (rename e Q) := by
    by_cases hw : ∃ w : τ →₀ ℕ, w.mapDomain e = u - r
    · obtain ⟨w, hw⟩ := hw
      rw [← hw, coeff_rename_mapDomain e he, coeff_rename_mapDomain e he]
      refine h w fun i hi => ?_
      have hi' := congrArg (fun v => v (e i)) hw
      simp only [Finsupp.mapDomain_apply he, Finsupp.tsub_apply] at hi'
      rw [hi', hr i hi, Nat.sub_zero, hu (e i) (Set.mem_image_of_mem e hi)]
      rfl
    · rw [coeff_rename_eq_zero e P _ fun w hw' => absurd ⟨w, hw'⟩ hw,
        coeff_rename_eq_zero e Q _ fun w hw' => absurd ⟨w, hw'⟩ hw]
  rw [coeff_mul_monomial', coeff_mul_monomial', hrename]

variable [DecidableEq σ] {G : Matrix σ σ ℂ} {W : Matrix τ τ ℂ}

/-- The network acts on the modes `e` as `W` does and leaves all others alone. -/
structure ActsOn (G : Matrix σ σ ℂ) (e : τ → σ) (W : Matrix τ τ ℂ) : Prop where
  injective : Function.Injective e
  inside : ∀ i j, G (e i) (e j) = W i j
  outside : ∀ i j, i ∉ Set.range e ∨ j ∉ Set.range e → G i j = if i = j then 1 else 0

theorem ActsOn.bypasses (h : ActsOn G e W) {i : σ} (hi : i ∉ Set.range e) : Bypasses G i := by
  intro k hk
  rw [h.outside k i (.inr hi), h.outside i k (.inl hi), if_neg hk, if_neg hk.symm]
  exact ⟨rfl, rfl⟩

variable [Fintype σ]

theorem ActsOn.propagate_X_outside (h : ActsOn G e W) {j : σ} (hj : j ∉ Set.range e) :
    propagate G (X j) = X j := by
  rw [propagate_X, Fintype.sum_eq_single j]
  · rw [h.outside j j (.inl hj), if_pos rfl, C_1, one_mul]
  · intro i hi
    rw [h.outside i j (.inr hj), if_neg hi, C_0, zero_mul]

theorem ActsOn.propagate_outside (h : ActsOn G e W) {r : σ →₀ ℕ} (hr : ∀ i, r (e i) = 0) :
    propagate G (monomial r 1) = monomial r 1 := by
  rw [monomial_eq, propagate_C_mul, map_finsuppProd]
  congr 1
  refine Finset.prod_congr rfl fun j hj => ?_
  have hout : j ∉ Set.range e := by
    rintro ⟨i, rfl⟩
    exact Finsupp.mem_support_iff.mp hj (hr i)
  simp only [map_pow]
  rw [h.propagate_X_outside hout]

variable [Fintype τ]

theorem ActsOn.propagate_rename (h : ActsOn G e W) (P : MvPolynomial τ ℂ) :
    propagate G (rename e P) = rename e (propagate W P) := by
  have hhom : (propagate G).comp (rename e) = (rename e).comp (propagate W) := by
    apply MvPolynomial.algHom_ext
    intro j
    rw [AlgHom.comp_apply, AlgHom.comp_apply, rename_X, propagate_X, propagate_X, map_sum]
    symm
    refine Finset.sum_of_injOn e ?_ ?_ ?_ ?_
    · exact fun a _ b _ hab => h.injective hab
    · exact fun a _ => Finset.mem_coe.mpr (Finset.mem_univ _)
    · intro i _ hi
      have hout : i ∉ Set.range e := fun ⟨a, ha⟩ =>
        hi ⟨a, Finset.mem_coe.mpr (Finset.mem_univ a), ha⟩
      rw [h.outside i (e j) (.inl hout), if_neg fun he => hout ⟨j, he.symm⟩, C_0, zero_mul]
    · intro i _
      rw [map_mul, rename_C, rename_X, h.inside]
  exact congrArg (fun φ : MvPolynomial τ ℂ →ₐ[ℂ] MvPolynomial σ ℂ => φ P) hhom

theorem ActsOn.propagate_rename_mul (h : ActsOn G e W) (P : MvPolynomial τ ℂ) {r : σ →₀ ℕ}
    (hr : ∀ i, r (e i) = 0) :
    propagate G (rename e P * monomial r 1) = rename e (propagate W P) * monomial r 1 := by
  rw [map_mul, h.propagate_rename, h.propagate_outside hr]

/-- What a pattern becomes is settled on the modes that the network acts on. -/
theorem ActsOn.propagate_monomial (h : ActsOn G e W) {u : σ →₀ ℕ} {v : τ →₀ ℕ}
    (hv : ∀ i, u (e i) = v i) :
    propagate G (monomial u 1) =
      rename e (propagate W (monomial v 1)) * monomial (besides h.injective u) 1 := by
  rw [← rename_mul_besides h.injective hv fun _ _ => rfl,
    h.propagate_rename_mul _ (besides_inside h.injective u)]

theorem ActsOn.agreeOn_monomial (h : ActsOn G e W) {u : σ →₀ ℕ} {v : τ →₀ ℕ}
    (hv : ∀ i, u (e i) = v i) {S : Set τ} {d : σ → ℕ} {Q : MvPolynomial τ ℂ}
    (hQ : AgreeOn S (d ∘ e) (propagate W (monomial v 1)) Q) :
    AgreeOn (Set.image e S) d (propagate G (monomial u 1))
      (rename e Q * monomial (besides h.injective u) 1) := by
  rw [h.propagate_monomial hv]
  exact hQ.rename_mul h.injective fun i _ => besides_inside h.injective u i

end Acting

end DualRail
