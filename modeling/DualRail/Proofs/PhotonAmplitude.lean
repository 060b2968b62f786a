import Mathlib
import DualRail.Proofs.Photons
import DualRail.Proofs.RealQuantity

/-!
Amplitudes of patterns. A pattern lists how many photons are on each mode. The amplitude from one
pattern to another is a permanent of the rows of the photons that go out and the columns of those
that come in, divided by the root of the number of ways to tell them apart. It is a coefficient of
the state that comes out, up to this normalisation.
-/

namespace DualRail

open MvPolynomial

section Patterns

def occupiedModes (pattern : List Int) : List Nat :=
  (List.range pattern.length).flatMap fun i => List.replicate (pattern.getD i 0).toNat i

def labellings (pattern : List Int) : ℕ := (pattern.map fun k => k.toNat.factorial).prod

/-- The amplitude of `output` from `input` in a network with matrix `V`. -/
noncomputable def photonAmplitude (V : Dense (Amplitude ℝ)) (input output : List Int) : ℂ :=
  if (occupiedModes output).length = (occupiedModes input).length then
    (Matrix.permanent fun i j : Fin (occupiedModes input).length =>
        (V.get ((occupiedModes output).getD i 0) ((occupiedModes input).getD j 0)).toComplex) /
      Real.sqrt (labellings input * labellings output)
  else 0

noncomputable def counts (M : Nat) (pattern : List Int) : Fin M →₀ ℕ :=
  Finsupp.equivFunOnFinite.symm fun i => (pattern.getD i 0).toNat

variable {M : Nat} {pattern : List Int}

theorem counts_apply (pattern : List Int) (i : Fin M) :
    counts M pattern i = (pattern.getD i 0).toNat := rfl

theorem count_flatMap_replicate {modes : List Nat} (h : modes.Nodup) (f : Nat → Nat) (i : Nat) :
    (modes.flatMap fun j => List.replicate (f j) j).count i = if i ∈ modes then f i else 0 := by
  induction modes with
  | nil => rfl
  | cons j modes ih =>
    obtain ⟨hj, hnd⟩ := List.nodup_cons.mp h
    rw [List.flatMap_cons, List.count_append, ih hnd, List.count_replicate]
    by_cases hi : i = j
    · subst hi
      simp [hj]
    · simp [hi, Ne.symm hi]

theorem count_occupiedModes (hM : pattern.length = M) (i : Fin M) :
    (occupiedModes pattern).count i.val = counts M pattern i := by
  have hi : i.val ∈ List.range pattern.length := by
    rw [hM]
    exact List.mem_range.mpr i.isLt
  rw [occupiedModes, count_flatMap_replicate List.nodup_range, if_pos hi, counts_apply]

theorem occupiedModes_lt : ∀ x ∈ occupiedModes pattern, x < pattern.length := by
  intro x hx
  obtain ⟨i, hi, hmem⟩ := List.mem_flatMap.mp hx
  rw [List.eq_of_mem_replicate hmem]
  exact List.mem_range.mp hi

theorem exists_photons (hM : pattern.length = M) {k : Nat}
    (hk : (occupiedModes pattern).length = k) :
    ∃ f : Fin k → Fin M, (∀ j, (f j).val = (occupiedModes pattern).getD j 0) ∧
      occupied f = counts M pattern := by
  subst hk
  have hget : ∀ j : Fin (occupiedModes pattern).length,
      (occupiedModes pattern).getD j 0 = (occupiedModes pattern).get j := fun j => by simp
  have hlt : ∀ j : Fin (occupiedModes pattern).length, (occupiedModes pattern).getD j 0 < M := by
    intro j
    rw [hget, ← hM]
    exact occupiedModes_lt _ (List.get_mem _ j)
  refine ⟨fun j => ⟨_, hlt j⟩, fun _ => rfl, Finsupp.ext fun i => ?_⟩
  have hcount := Fin.card_filter_univ_eq_vector_get_eq_count i.val
    (⟨occupiedModes pattern, rfl⟩ : List.Vector Nat _)
  rw [occupied_apply, Fintype.card_subtype, ← count_occupiedModes hM i]
  refine Eq.trans ?_ hcount
  refine congrArg Finset.card (Finset.filter_congr fun j _ => ?_)
  rw [Fin.ext_iff]
  change (occupiedModes pattern).getD j 0 = i.val ↔ (occupiedModes pattern).get j = i.val
  rw [hget]

theorem prod_factorial_counts (hM : pattern.length = M) :
    ∏ i, (counts M pattern i).factorial = labellings pattern := by
  subst hM
  rw [labellings, ← Fin.prod_univ_fun_getElem]
  refine Finset.prod_congr rfl fun i _ => ?_
  rw [counts_apply]
  simp

end Patterns

section Amplitudes

variable {M : Nat} {input output : List Int}

/-- The amplitude of a pattern is its coefficient in the state that comes out. -/
theorem photonAmplitude_eq (G : Matrix (Fin M) (Fin M) (Amplitude ℝ)) (hin : input.length = M)
    (hout : output.length = M) :
    photonAmplitude (Dense.ofMatrix G) input output =
      labellings output / Real.sqrt (labellings input * labellings output) *
        coeff (counts M output)
          (propagate (Amplitude.complexHom.mapMatrix G) (monomial (counts M input) 1)) := by
  obtain ⟨g, hg, hgin⟩ := exists_photons hin rfl
  rw [photonAmplitude]
  split
  case isTrue hlen =>
    obtain ⟨f, hf, hfout⟩ := exists_photons hout hlen
    have hpermanent := permanent_eq_coeff (Amplitude.complexHom.mapMatrix G) f g
    rw [hfout, prod_factorial_counts hout, prod_X_eq_monomial] at hpermanent
    change _ = _ * coeff _ (propagate _ (monomial (occupied g) 1)) at hpermanent
    rw [hgin] at hpermanent
    have hentry : ∀ i j : Fin (occupiedModes input).length,
        ((Dense.ofMatrix G).get ((occupiedModes output).getD i 0)
          ((occupiedModes input).getD j 0)).toComplex =
            Amplitude.complexHom.mapMatrix G (f i) (g j) := by
      intro i j
      rw [← hf, ← hg, Dense.get_ofMatrix]
      rfl
    simp only [hentry, hpermanent]
    rw [mul_div_right_comm]
  case isFalse hlen =>
    obtain ⟨f, _, hfout⟩ := exists_photons hout rfl
    have hzero : coeff (counts M output) (propagate (Amplitude.complexHom.mapMatrix G)
        (monomial (counts M input) 1)) = 0 := by
      by_contra hne
      have hsum := photons_conserved hne
      rw [← hfout, ← hgin, sum_occupied, sum_occupied, Fintype.card_fin, Fintype.card_fin] at hsum
      exact hlen hsum
    rw [hzero, mul_zero]

end Amplitudes

end DualRail
