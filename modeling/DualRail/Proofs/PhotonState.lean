import DualRail.Proofs.LogicalCircuit
import DualRail.Proofs.Photons

/-!
States of photons on the rails of `n` qubits. One photon for each qubit is a codeword, and the
amplitude of a codeword is a permanent. Photons are counted by names of qubits, and what counts one
photon for each qubit is a component of the state.
-/

namespace DualRail

open MvPolynomial

variable {n : Nat}

abbrev Rail (n : Nat) := Fin n × Fin 2

abbrev PhotonState (n : Nat) := MvPolynomial (Rail n) ℂ

/-- One photon for each qubit, on the rail of its bit. -/
noncomputable def occupation (x : Bits n) : Rail n →₀ ℕ := ∑ i, Finsupp.single (i, x i) 1

noncomputable def codeword (x : Bits n) : PhotonState n := ∏ i, X (i, x i)

/-- The state of photons that stands for amplitudes of bit strings. -/
noncomputable def encode (ψ : Bits n → ℂ) : PhotonState n := ∑ x, C (ψ x) * codeword x

theorem codeword_eq_monomial (x : Bits n) : codeword x = monomial (occupation x) 1 :=
  prod_X_eq_monomial _ _

theorem occupation_apply (x : Bits n) (r : Rail n) :
    occupation x r = if x r.1 = r.2 then 1 else 0 := by
  obtain ⟨q, b⟩ := r
  rw [occupation, Finsupp.finsetSum_apply, Fintype.sum_eq_single q]
  · by_cases h : x q = b
    · rw [if_pos h, h, Finsupp.single_eq_same]
    · rw [if_neg h, Finsupp.single_eq_of_ne (by simpa using fun he => h he.symm)]
  · intro i hi
    exact Finsupp.single_eq_of_ne (by simpa using fun he => absurd he.symm hi)

theorem occupation_injective : Function.Injective (occupation (n := n)) := by
  intro x y h
  funext q
  have hq := congrArg (fun s => s (q, x q)) h
  simp only [occupation_apply, if_true] at hq
  by_contra hne
  rw [if_neg fun he => hne he.symm] at hq
  cases hq

theorem coeff_encode (ψ : Bits n → ℂ) (x : Bits n) : coeff (occupation x) (encode ψ) = ψ x := by
  rw [encode, coeff_sum, Fintype.sum_eq_single x]
  · rw [codeword_eq_monomial, coeff_C_mul, coeff_monomial, if_pos rfl, mul_one]
  · intro y hy
    rw [codeword_eq_monomial, coeff_C_mul, coeff_monomial,
      if_neg fun h => hy (occupation_injective h), mul_zero]

/-- From the codeword `y` the amplitude of the codeword `x` is a permanent. -/
theorem coeff_propagate_codeword (U : Matrix (Rail n) (Rail n) ℂ) (x y : Bits n) :
    coeff (occupation x) (propagate U (codeword y)) =
      Matrix.permanent fun i j : Fin n => U (i, x i) (j, y j) := by
  have hone : ∏ r, (occupation x r).factorial = 1 := by
    refine Finset.prod_eq_one fun r _ => ?_
    rw [occupation_apply]
    split <;> rfl
  have hpermanent := permanent_eq_coeff U (fun i => (i, x i)) fun j => (j, y j)
  change _ = (∏ r, (occupation x r).factorial : ℕ) *
    coeff (occupation x) (propagate U (codeword y)) at hpermanent
  rw [hone, Nat.cast_one, one_mul] at hpermanent
  exact hpermanent.symm

section Counting

noncomputable def photonWeight (name : Fin n → Fin n) (r : Rail n) : Fin n →₀ ℕ :=
  Finsupp.single (name r.1) 1

noncomputable def onePerQubit (name : Fin n → Fin n) : Fin n →₀ ℕ :=
  ∑ i, Finsupp.single (name i) 1

noncomputable def counted (name : Fin n → Fin n) (d : Fin n →₀ ℕ) :
    PhotonState n →ₗ[ℂ] PhotonState n :=
  weightedHomogeneousComponent (photonWeight name) d

variable {name finer : Fin n → Fin n} {d : Fin n →₀ ℕ}

theorem counted_C_mul (z : ℂ) (P : PhotonState n) :
    counted name d (C z * P) = C z * counted name d P :=
  weightedHomogeneousComponent_C_mul _ _ _

theorem isCounted_codeword (name : Fin n → Fin n) (x : Bits n) :
    IsWeightedHomogeneous (photonWeight name) (codeword x) (onePerQubit name) :=
  IsWeightedHomogeneous.prod _ _ _ fun i _ => isWeightedHomogeneous_X ℂ _ (i, x i)

theorem counted_encode (ψ : Bits n → ℂ) :
    counted name (onePerQubit name) (encode ψ) = encode ψ := by
  apply IsWeightedHomogeneous.weightedHomogeneousComponent_same
  exact IsWeightedHomogeneous.sum _ _ _ fun x _ => (isCounted_codeword name x).C_mul (ψ x)

theorem isCounted_propagate {G : Matrix (Rail n) (Rail n) ℂ} {after before : Fin n → Fin n}
    (hG : ∀ i j, G i j ≠ 0 → after i.1 = before j.1) (u : Rail n →₀ ℕ) (a : ℂ) :
    IsWeightedHomogeneous (photonWeight after) (propagate G (monomial u a))
      (Finsupp.weight (photonWeight before) u) := by
  refine isWeightedHomogeneous_propagate (fun i j h => ?_) u a
  rw [photonWeight, photonWeight, hG i j h]

/-- A network that keeps names keeps counts. -/
theorem counted_propagate {G : Matrix (Rail n) (Rail n) ℂ} {after before : Fin n → Fin n}
    (hG : ∀ i j, G i j ≠ 0 → after i.1 = before j.1) (d : Fin n →₀ ℕ) (P : PhotonState n) :
    counted after d (propagate G P) = propagate G (counted before d P) := by
  induction P using MvPolynomial.induction_on' with
  | monomial u a =>
    have hafter := isCounted_propagate hG u a
    have hbefore := isWeightedHomogeneous_monomial (photonWeight before) u a rfl
    by_cases h : Finsupp.weight (photonWeight before) u = d
    · rw [h] at hafter hbefore
      rw [counted, hafter.weightedHomogeneousComponent_same, counted,
        hbefore.weightedHomogeneousComponent_same]
    · rw [counted, hafter.weightedHomogeneousComponent_ne _ (Ne.symm h), counted,
        hbefore.weightedHomogeneousComponent_ne _ (Ne.symm h), map_zero]
  | add p q hp hq => rw [map_add, map_add, map_add, map_add, hp, hq]

theorem weight_merge (merge : Fin n → Fin n) (u : Rail n →₀ ℕ) :
    Finsupp.weight (photonWeight (merge ∘ finer)) u =
      Finsupp.mapDomain merge (Finsupp.weight (photonWeight finer) u) := by
  rw [Finsupp.weight_eq_sum, Finsupp.weight_eq_sum, Finsupp.mapDomain_finsetSum]
  refine Finset.sum_congr rfl fun r _ => ?_
  rw [Finsupp.mapDomain_smul, photonWeight, photonWeight, Finsupp.mapDomain_single]
  rfl

theorem counted_counted (merge : Fin n → Fin n) (P : PhotonState n) :
    counted finer (onePerQubit finer)
        (counted (merge ∘ finer) (onePerQubit (merge ∘ finer)) P) =
      counted finer (onePerQubit finer) P := by
  have hone : onePerQubit (merge ∘ finer) = Finsupp.mapDomain merge (onePerQubit finer) := by
    rw [onePerQubit, onePerQubit, Finsupp.mapDomain_finsetSum]
    refine Finset.sum_congr rfl fun i _ => ?_
    rw [Finsupp.mapDomain_single]
    rfl
  apply MvPolynomial.ext
  intro u
  rw [counted, counted, coeff_weightedHomogeneousComponent, coeff_weightedHomogeneousComponent,
    coeff_weightedHomogeneousComponent]
  by_cases h : Finsupp.weight (photonWeight finer) u = onePerQubit finer
  · rw [if_pos h, if_pos h, if_pos (by rw [weight_merge, h, hone])]
  · rw [if_neg h, if_neg h]

theorem coeff_counted (x : Bits n) (P : PhotonState n) :
    coeff (occupation x) (counted name (onePerQubit name) P) = coeff (occupation x) P := by
  have hw : Finsupp.weight (photonWeight name) (occupation x) = onePerQubit name := by
    rw [occupation, map_sum, onePerQubit]
    refine Finset.sum_congr rfl fun i _ => ?_
    rw [Finsupp.weight_single, one_smul, photonWeight]
  rw [counted, coeff_weightedHomogeneousComponent, if_pos hw]

end Counting

end DualRail
