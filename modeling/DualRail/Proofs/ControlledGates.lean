import DualRail.Proofs.StandardGates

/-!
The gates on two qubits. The postselected controlled gates act on six modes: an empty one, the rails
of the control, the rails of the target, and another empty one. Where both qubits have one photon
before and after, the amplitude is a third of that of the controlled gate itself.
-/

namespace DualRail

open Complex Matrix

section Vectors

variable {m o : Nat}

theorem pairMatrix_outside (B : Matrix (Fin 2) (Fin 2) ℂ) {i j : Fin m}
    (h : (i.val ≠ o ∧ i.val ≠ o + 1) ∨ (j.val ≠ o ∧ j.val ≠ o + 1)) :
    pairMatrix m o B i j = if i = j then 1 else 0 := by
  have h₀₀ : ¬ (i.val = o ∧ j.val = o) := by omega
  have h₀₁ : ¬ (i.val = o ∧ j.val = o + 1) := by omega
  have h₁₀ : ¬ (i.val = o + 1 ∧ j.val = o) := by omega
  have h₁₁ : ¬ (i.val = o + 1 ∧ j.val = o + 1) := by omega
  rw [pairMatrix, if_neg h₀₀, if_neg h₀₁, if_neg h₁₀, if_neg h₁₁]

theorem pairMatrix_mulVec (h : o + 1 < m) (B : Matrix (Fin 2) (Fin 2) ℂ) (v : Fin m → ℂ)
    (i : Fin m) :
    (pairMatrix m o B *ᵥ v) i =
      if i.val = o then B 0 0 * v ⟨o, by omega⟩ + B 0 1 * v ⟨o + 1, h⟩
      else if i.val = o + 1 then B 1 0 * v ⟨o, by omega⟩ + B 1 1 * v ⟨o + 1, h⟩
      else v i := by
  have hne : (⟨o, by omega⟩ : Fin m) ≠ ⟨o + 1, h⟩ := by simp
  -- A row of the pair has two entries, any other row one.
  have hrow : i.val = o ∨ i.val = o + 1 → ∀ j : Fin m,
      j ≠ ⟨o, by omega⟩ ∧ j ≠ ⟨o + 1, h⟩ → pairMatrix m o B i j * v j = 0 := by
    intro hi j hj
    have h₀ : j.val ≠ o := fun he => hj.1 (Fin.ext he)
    have h₁ : j.val ≠ o + 1 := fun he => hj.2 (Fin.ext he)
    have hij : i ≠ j := fun he => by
      rw [he] at hi
      omega
    rw [pairMatrix_outside B (.inr ⟨h₀, h₁⟩), if_neg hij, zero_mul]
  change ∑ j, pairMatrix m o B i j * v j = _
  by_cases h₀ : i.val = o
  · rw [if_pos h₀, Fintype.sum_eq_add _ _ hne (hrow (.inl h₀))]
    simp [pairMatrix, h₀]
  · by_cases h₁ : i.val = o + 1
    · rw [if_neg h₀, if_pos h₁, Fintype.sum_eq_add _ _ hne (hrow (.inr h₁))]
      simp [pairMatrix, h₁]
    · rw [if_neg h₀, if_neg h₁, Fintype.sum_eq_single i]
      · rw [pairMatrix_outside B (.inl ⟨h₀, h₁⟩), if_pos rfl, one_mul]
      · intro j hj
        rw [pairMatrix_outside B (.inl ⟨h₀, h₁⟩), if_neg hj.symm, zero_mul]

theorem phaseMatrix_mulVec (z : ℂ) (v : Fin m → ℂ) (i : Fin m) :
    (phaseMatrix m o z *ᵥ v) i = if i.val = o then z * v i else v i := by
  change ∑ j, phaseMatrix m o z i j * v j = _
  rw [Fintype.sum_eq_single i]
  · rw [phaseMatrix, if_pos rfl]
    by_cases hi : i.val = o
    · rw [if_pos hi, if_pos hi]
    · rw [if_neg hi, if_neg hi, one_mul]
  · intro j hj
    rw [phaseMatrix, if_neg hj.symm, zero_mul]

end Vectors

namespace Standard

noncomputable def coreMatrix : Matrix (Fin 6) (Fin 6) ℂ :=
  let T := !![third, twoThirds; twoThirds, -third]
  phaseMatrix 6 4 (-1) * (pairMatrix 6 4 T * (pairMatrix 6 2 T * pairMatrix 6 0 T))

noncomputable def targetMatrix : Matrix (Fin 6) (Fin 6) ℂ :=
  pairMatrix 6 3 (half • !![1, 1; 1, -1])

theorem coreMatrix_mulVec (v : Fin 6 → ℂ) :
    coreMatrix *ᵥ v = ![third * v 0 + twoThirds * v 1, twoThirds * v 0 - third * v 1,
      third * v 2 + twoThirds * v 3, twoThirds * v 2 - third * v 3,
      -(third * v 4 + twoThirds * v 5), twoThirds * v 4 - third * v 5] := by
  funext i
  simp only [coreMatrix, ← Matrix.mulVec_mulVec, phaseMatrix_mulVec,
    pairMatrix_mulVec (show 4 + 1 < 6 by omega), pairMatrix_mulVec (show 2 + 1 < 6 by omega),
    pairMatrix_mulVec (show 0 + 1 < 6 by omega)]
  fin_cases i <;> simp <;> ring

theorem targetMatrix_mulVec (v : Fin 6 → ℂ) :
    targetMatrix *ᵥ v =
      ![v 0, v 1, v 2, half * (v 3 + v 4), half * (v 3 - v 4), v 5] := by
  funext i
  simp only [targetMatrix, pairMatrix_mulVec (show 3 + 1 < 6 by omega)]
  fin_cases i <;> simp <;> ring

def controlRail (a : Fin 2) : Fin 6 := ⟨1 + a, by omega⟩

def targetRail (b : Fin 2) : Fin 6 := ⟨3 + b, by omega⟩

/-- The amplitude from one photon for each qubit on the rails `y`, `z` to such on `a`, `b`: the two
photons go either way. -/
def coincidence (W : Matrix (Fin 6) (Fin 6) ℂ) (a b y z : Fin 2) : ℂ :=
  W (controlRail a) (controlRail y) * W (targetRail b) (targetRail z) +
    W (controlRail a) (targetRail z) * W (targetRail b) (controlRail y)

theorem coreMatrix_entry (i j : Fin 6) :
    coreMatrix i j = (coreMatrix *ᵥ Pi.single j 1) i := by
  rw [Matrix.mulVec_single_one]
  rfl

noncomputable def cxMatrix : Matrix (Fin 6) (Fin 6) ℂ := targetMatrix * (coreMatrix * targetMatrix)

theorem cxMatrix_entry (i j : Fin 6) :
    cxMatrix i j = (targetMatrix *ᵥ (coreMatrix *ᵥ (targetMatrix *ᵥ Pi.single j 1))) i := by
  rw [Matrix.mulVec_mulVec, Matrix.mulVec_mulVec, Matrix.mul_assoc, Matrix.mulVec_single_one]
  rfl

theorem coincidence_core (a b y z : Fin 2) :
    coincidence coreMatrix a b y z =
      if a = y ∧ b = z then (if y = 1 ∧ z = 1 then -1 else 1) / 3 else 0 := by
  have hthird := third_mul_self
  have htwo := twoThirds_mul_self
  unfold coincidence
  simp only [coreMatrix_entry, coreMatrix_mulVec]
  fin_cases a <;> fin_cases b <;> fin_cases y <;> fin_cases z <;>
    simp [controlRail, targetRail] <;> grind

theorem coincidence_cx (a b y z : Fin 2) :
    coincidence cxMatrix a b y z = if a = y ∧ b = z + y then 1 / 3 else 0 := by
  have hthird := third_mul_self
  have htwo := twoThirds_mul_self
  have hhalf := half_mul_self
  unfold coincidence
  simp only [cxMatrix_entry, targetMatrix_mulVec, coreMatrix_mulVec]
  fin_cases a <;> fin_cases b <;> fin_cases y <;> fin_cases z <;>
    simp [controlRail, targetRail] <;> grind

section Fragments

variable {R : Type} [Quantity R]

def controlledFragment (circuit : Network (Device R)) : Fragment (Device R) R :=
  { circuit := some circuit, qubitOffsets := [1, 3], ancillas := [⟨0, 0⟩, ⟨0, 0⟩],
    heralded := false, postSelect := true, success := 1 / num 9 }

def cnotParts : List (Piece R) :=
  let third := splitter .h (Device.angleOfReflectivity (1 / num 3))
  [(3, balanced), (0, third), (2, third), (4, third), (4, phase Quantity.pi), (3, balanced)]

def cnotCircuit : Network (Device R) := ⟨"postselected cnot", 6, entriesOf cnotParts⟩

def czParts : List (Piece R) := [(3, balanced), (0, cnotCircuit.toComponent), (3, balanced)]

def czCircuit : Network (Device R) := ⟨"cz", 6, entriesOf czParts⟩

theorem cnotParts_fit : ∀ part ∈ (cnotParts : List (Piece R)), part.1 + part.2.width ≤ 6 := by
  have hb : (balanced : Component (Device R)).width = 2 := rfl
  have hphase : (phase Quantity.pi : Component (Device R)).width = 1 := rfl
  have hthird : ∀ theta : R, (splitter .h theta).width = 2 := fun _ => rfl
  simp [cnotParts, hb, hphase, hthird]

theorem czParts_fit : ∀ part ∈ (czParts : List (Piece R)), part.1 + part.2.width ≤ 6 := by
  have hb : (balanced : Component (Device R)).width = 2 := rfl
  have hinner : (cnotCircuit : Network (Device R)).toComponent.width = 6 := rfl
  simp [czParts, hb, hinner]

theorem cnot_eq (params : List R) :
    cnot ⟨false, params⟩ = .ok (controlledFragment cnotCircuit) := by
  rw [cnot, if_neg Bool.false_ne_true]
  change (assemble 6 "postselected cnot" cnotParts >>= _) = _
  rw [assemble_of_fits _ (by omega) cnotParts_fit]
  rfl

theorem cz_eq (params : List R) : cz ⟨false, params⟩ = .ok (controlledFragment czCircuit) := by
  rw [cz, cnot_eq, ok_bind]
  change (assemble 6 "cz" czParts >>= _) = _
  rw [assemble_of_fits _ (by omega) czParts_fit]
  rfl

def swapFragment (p : Permutation) : Fragment (Device R) R :=
  { circuit := some ⟨"swap", 4, [⟨0, .perm p⟩]⟩, qubitOffsets := [0, 2], ancillas := [],
    heralded := false, postSelect := false, success := 1 }

theorem swap_eq (req : Request R) :
    ∃ p : Permutation, p.images = #[2, 3, 0, 1] ∧ swap req = .ok (swapFragment p) := by
  obtain ⟨p, hp, himages⟩ : ∃ p, Permutation.ofVector [2, 3, 0, 1] = .ok p ∧
      p.images = #[2, 3, 0, 1] := ⟨_, rfl, rfl⟩
  have hwidth : (.perm p : Component (Device R)).width = 4 := by
    simp [Component.width, Permutation.width, himages]
  refine ⟨p, himages, ?_⟩
  rw [swap, rewire, hp, ok_bind, pure_bind, assemble_of_fits _ (by omega) (by simp [hwidth])]
  rfl

end Fragments

theorem splitterMatrix_third :
    splitterMatrix .h (Device.angleOfReflectivity (1 / num 3)) =
      !![third, twoThirds; twoThirds, -third] := by
  have hle : Real.sqrt (1 / 3) ≤ 1 := Real.sqrt_le_one.mpr (by norm_num)
  have hangle : (Device.angleOfReflectivity (1 / num 3) : ℝ) / 2 =
      Real.arccos (Real.sqrt (1 / 3)) := by
    simp [Device.angleOfReflectivity, num]
  have hcos : Real.cos (Real.arccos (Real.sqrt (1 / 3))) = Real.sqrt (1 / 3) :=
    Real.cos_arccos (le_trans (by norm_num) (Real.sqrt_nonneg _)) hle
  have hsin : Real.sin (Real.arccos (Real.sqrt (1 / 3))) = Real.sqrt (2 / 3) := by
    rw [Real.sin_arccos, Real.sq_sqrt (by norm_num)]
    norm_num
  simp only [splitterMatrix, hangle, hcos, hsin]
  rfl

theorem realizes_third {m o : Nat} (h : o + 2 ≤ m) :
    Realizes m [⟨o, splitter .h (Device.angleOfReflectivity (1 / num 3))⟩]
      (pairMatrix m o !![third, twoThirds; twoThirds, -third]) := by
  have hs := realizes_splitter h .h (Device.angleOfReflectivity (1 / num 3)) (by simp)
  rwa [splitterMatrix_third] at hs

theorem realizes_cnotCircuit : Realizes 6 cnotCircuit.entries cxMatrix := by
  have hpi := realizes_phase (m := 6) (o := 4) (by omega) Real.pi
  rw [Complex.exp_pi_mul_I] at hpi
  have hb : Realizes 6 [⟨3, balanced⟩] targetMatrix := realizes_balanced (by omega)
  have h := hb.cons ((realizes_third (o := 0) (by omega)).cons
    ((realizes_third (o := 2) (by omega)).cons ((realizes_third (o := 4) (by omega)).cons
      (hpi.cons hb))))
  have hprod : cxMatrix = targetMatrix * phaseMatrix 6 4 (-1) *
      pairMatrix 6 4 !![third, twoThirds; twoThirds, -third] *
      pairMatrix 6 2 !![third, twoThirds; twoThirds, -third] *
      pairMatrix 6 0 !![third, twoThirds; twoThirds, -third] * targetMatrix := by
    simp only [cxMatrix, coreMatrix, Matrix.mul_assoc]
  rw [hprod]
  exact h

end Standard

theorem realizes_nested (net : Network (Device ℝ)) {P : Matrix (Fin net.width) (Fin net.width) ℂ}
    (h : Realizes net.width net.entries P) (hm : Dense.Storable net.width) :
    Realizes net.width [⟨0, net.toComponent⟩] P := by
  obtain ⟨_, ⟨Ms, hMs, rfl⟩, rfl⟩ := h
  refine realizes_of_embedded (matrix_net_of_hasMatrix hm hMs) rfl (by simp) fun i j => ?_
  rw [Dense.embedEntry_eq, if_pos (by simp), Nat.sub_zero, Nat.sub_zero, Dense.get_ofMatrix]
  rfl

namespace Standard

theorem targetMatrix_mul_self : targetMatrix * targetMatrix = 1 := by
  have hhalf := half_mul_self
  apply Matrix.mulVec_injective
  funext v i
  rw [← Matrix.mulVec_mulVec, targetMatrix_mulVec, targetMatrix_mulVec, Matrix.one_mulVec]
  fin_cases i <;> simp <;> grind

theorem realizes_czCircuit : Realizes 6 czCircuit.entries coreMatrix := by
  have hb : Realizes 6 [⟨3, balanced⟩] targetMatrix := realizes_balanced (by omega)
  have hn : Realizes 6 [⟨0, cnotCircuit.toComponent⟩] cxMatrix :=
    realizes_nested cnotCircuit realizes_cnotCircuit (by decide)
  have h := hb.cons (hn.cons hb)
  have hprod : targetMatrix * cxMatrix * targetMatrix = coreMatrix := by
    calc targetMatrix * cxMatrix * targetMatrix
        = targetMatrix * targetMatrix * coreMatrix * (targetMatrix * targetMatrix) := by
          simp only [cxMatrix, Matrix.mul_assoc]
      _ = coreMatrix := by rw [targetMatrix_mul_self, Matrix.one_mul, Matrix.mul_one]
  rw [hprod] at h
  exact h

def swapMatrix : Matrix (Fin 4) (Fin 4) ℂ := fun i j =>
  if (if j.val < 2 then j.val + 2 else j.val - 2) = i then 1 else 0

theorem realizes_swap {p : Permutation} (h : p.images = #[2, 3, 0, 1]) :
    Realizes 4 [⟨0, .perm p⟩] swapMatrix := by
  have hp : ∀ j : Fin 4, p.apply j = if j.val < 2 then j.val + 2 else j.val - 2 := by
    intro j
    fin_cases j <;> simp [Permutation.apply, h]
  have hr := realizes_perm (m := 4) (p := p) (by decide) (by simp [Permutation.width, h])
  simp only [hp] at hr
  exact hr

end Standard

end DualRail
