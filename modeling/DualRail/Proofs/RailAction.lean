import DualRail.Proofs.ControlledGates
import DualRail.Proofs.PhotonState

/-!
What the gates do to photons on rails. Where one photon for each qubit is counted, a gate takes
codewords to codewords as its matrix on bit strings does, up to a factor; so does a whole circuit,
as long as no controlled gate joins qubits that later gates link.
-/

namespace DualRail

open MvPolynomial Standard

variable {n : Nat}

def railPosition (c t : Fin n) (r : Rail n) : Option (Fin 6) :=
  if r.1 = c then some (controlRail r.2) else if r.1 = t then some (targetRail r.2) else none

/-- A matrix on positions acts on the rails that have one and leaves the others alone. -/
def spread {w : Nat} (pos : Rail n → Option (Fin w)) (W : Matrix (Fin w) (Fin w) ℂ) :
    Matrix (Rail n) (Rail n) ℂ :=
  fun r s =>
    match pos r, pos s with
    | some i, some j => W i j
    | _, _ => if r = s then 1 else 0

def pairRails (c t : Fin n) (W : Matrix (Fin 6) (Fin 6) ℂ) : Matrix (Rail n) (Rail n) ℂ :=
  spread (railPosition c t) W

namespace LogicalGate

noncomputable def railMatrix : LogicalGate n → Matrix (Rail n) (Rail n) ℂ
  | .single q A => fun r s => if r.1 = q ∧ s.1 = q then A r.2 s.2 else if r = s then 1 else 0
  | .cx c t => pairRails c t cxMatrix
  | .cz c t => pairRails c t coreMatrix
  | .swap a b => fun r s => if r = (Equiv.swap a b s.1, s.2) then 1 else 0

end LogicalGate

section Spread

variable {w : Nat} {pos : Rail n → Option (Fin w)} (W : Matrix (Fin w) (Fin w) ℂ)

theorem spread_inside {r s : Rail n} {i j : Fin w} (hr : pos r = some i) (hs : pos s = some j) :
    spread pos W r s = W i j := by
  rw [spread, hr, hs]

theorem spread_outside_row {r : Rail n} (hr : pos r = none) (s : Rail n) :
    spread pos W r s = if r = s then 1 else 0 := by
  rw [spread, hr]

theorem spread_outside_column (r : Rail n) {s : Rail n} (hs : pos s = none) :
    spread pos W r s = if r = s then 1 else 0 := by
  rw [spread, hs]
  split
  · cases ‹_ = some _›
  · rfl

end Spread

theorem encode_mulVec (M : Matrix (Bits n) (Bits n) ℂ) (ψ : Bits n → ℂ) :
    ∑ y, C (ψ y) * encode (fun x => M x y) = encode (M.mulVec ψ) := by
  have hterm : ∀ x, C (M.mulVec ψ x) * codeword x =
      ∑ y, C (ψ y) * (C (M x y) * codeword x) := by
    intro x
    rw [Matrix.mulVec, dotProduct, map_sum, Finset.sum_mul]
    refine Finset.sum_congr rfl fun y _ => ?_
    rw [C_mul]
    ring
  simp only [encode, Finset.mul_sum]
  rw [Finset.sum_comm, Finset.sum_congr rfl fun x _ => hterm x]

theorem encode_single (z : Bits n) (v : ℂ) :
    encode (fun x => if x = z then v else 0) = C v * codeword z := by
  rw [encode, Fintype.sum_eq_single z]
  · rw [if_pos rfl]
  · intro x hx
    rw [if_neg hx, C_0, zero_mul]

section Plain

theorem codeword_split (q : Fin n) (y : Bits n) :
    codeword y = X (q, y q) * ∏ i ∈ Finset.univ.erase q, X (i, y i) :=
  (Finset.mul_prod_erase _ _ (Finset.mem_univ q)).symm

theorem codeword_update (q : Fin n) (y : Bits n) (a : Fin 2) :
    codeword (Function.update y q a) = X (q, a) * ∏ i ∈ Finset.univ.erase q, X (i, y i) := by
  rw [codeword_split q, Function.update_self]
  congr 1
  refine Finset.prod_congr rfl fun i hi => ?_
  rw [Function.update_of_ne (Finset.ne_of_mem_erase hi)]

theorem single_railMatrix_apply (q : Fin n) (A : Matrix (Fin 2) (Fin 2) ℂ) (r s : Rail n) :
    (LogicalGate.single q A).railMatrix r s =
      if r.1 = q ∧ s.1 = q then A r.2 s.2 else if r = s then 1 else 0 := rfl

theorem propagate_single_X (q : Fin n) (A : Matrix (Fin 2) (Fin 2) ℂ) (b : Fin 2) :
    propagate (LogicalGate.single q A).railMatrix (X (q, b)) = ∑ a, C (A a b) * X (q, a) := by
  rw [propagate_X, Fintype.sum_prod_type, Fintype.sum_eq_single q]
  · refine Finset.sum_congr rfl fun a _ => ?_
    rw [single_railMatrix_apply, if_pos ⟨rfl, rfl⟩]
  · intro i hi
    refine Finset.sum_eq_zero fun a _ => ?_
    rw [single_railMatrix_apply, if_neg fun h => hi h.1,
      if_neg fun h => hi (congrArg Prod.fst h), C_0, zero_mul]

theorem propagate_single_of_ne {q i : Fin n} (h : i ≠ q) (A : Matrix (Fin 2) (Fin 2) ℂ)
    (b : Fin 2) : propagate (LogicalGate.single q A).railMatrix (X (i, b)) = X (i, b) := by
  rw [propagate_X, Fintype.sum_eq_single (i, b)]
  · rw [single_railMatrix_apply, if_neg fun hq => h hq.2, if_pos rfl, C_1, one_mul]
  · intro r hr
    rw [single_railMatrix_apply, if_neg fun hq => h hq.2, if_neg hr, C_0, zero_mul]

theorem propagate_single_codeword (q : Fin n) (A : Matrix (Fin 2) (Fin 2) ℂ) (y : Bits n) :
    propagate (LogicalGate.single q A).railMatrix (codeword y) =
      encode fun x => (LogicalGate.single q A).matrix x y := by
  have hrest : ∏ i ∈ Finset.univ.erase q,
      propagate (LogicalGate.single q A).railMatrix (X (i, y i)) =
      ∏ i ∈ Finset.univ.erase q, X (i, y i) :=
    Finset.prod_congr rfl fun i hi => propagate_single_of_ne (Finset.ne_of_mem_erase hi) A (y i)
  rw [codeword_split q y, map_mul, propagate_single_X, map_prod, hrest, Finset.sum_mul, encode,
    sum_update y q]
  · refine Finset.sum_congr rfl fun a _ => ?_
    rw [codeword_update, LogicalGate.matrix_single, Function.update_self, if_pos rfl, mul_assoc]
  · intro x hx
    rw [LogicalGate.matrix_single, if_neg hx, C_0, zero_mul]

theorem swap_railMatrix_apply (a b : Fin n) (r s : Rail n) :
    (LogicalGate.swap a b).railMatrix r s =
      if r = (Equiv.swap a b s.1, s.2) then 1 else 0 := rfl

theorem propagate_swap_X (a b : Fin n) (r : Rail n) :
    propagate (LogicalGate.swap a b).railMatrix (X r) = X (Equiv.swap a b r.1, r.2) := by
  rw [propagate_X, Fintype.sum_eq_single (Equiv.swap a b r.1, r.2)]
  · rw [swap_railMatrix_apply, if_pos rfl, C_1, one_mul]
  · intro i hi
    rw [swap_railMatrix_apply, if_neg hi, C_0, zero_mul]

theorem propagate_swap_codeword (a b : Fin n) (y : Bits n) :
    propagate (LogicalGate.swap a b).railMatrix (codeword y) =
      encode fun x => (LogicalGate.swap a b).matrix x y := by
  have hmove : propagate (LogicalGate.swap a b).railMatrix (codeword y) =
      codeword (y ∘ Equiv.swap a b) := by
    rw [codeword, map_prod, codeword, ← Equiv.prod_comp (Equiv.swap a b)]
    refine Finset.prod_congr rfl fun i _ => ?_
    rw [propagate_swap_X]
    simp only [Function.comp_apply, Equiv.swap_apply_self]
  have hmatrix : (fun x => (LogicalGate.swap a b).matrix x y) =
      fun x => if x = y ∘ Equiv.swap a b then 1 else 0 :=
    funext fun x => LogicalGate.matrix_swap a b x y
  rw [hmatrix, hmove, encode_single, C_1, one_mul]

end Plain

section Pair

variable {c t : Fin n} {name : Fin n → Fin n}

noncomputable def photonOn (q : Fin n) (f : Fin 2 → ℂ) : PhotonState n := ∑ a, C (f a) * X (q, a)

theorem isCounted_photonOn (name : Fin n → Fin n) (q : Fin n) (f : Fin 2 → ℂ) :
    IsWeightedHomogeneous (photonWeight name) (photonOn q f) (Finsupp.single (name q) 1) :=
  IsWeightedHomogeneous.sum _ _ _ fun a _ => (isWeightedHomogeneous_X ℂ _ (q, a)).C_mul (f a)

theorem railPosition_control (b : Fin 2) : railPosition c t (c, b) = some (controlRail b) :=
  if_pos rfl

theorem railPosition_target (h : c ≠ t) (b : Fin 2) :
    railPosition c t (t, b) = some (targetRail b) := by
  rw [railPosition, if_neg fun he => h he.symm, if_pos rfl]

theorem railPosition_other {i : Fin n} (hc : i ≠ c) (ht : i ≠ t) (b : Fin 2) :
    railPosition c t (i, b) = none := by
  rw [railPosition, if_neg hc, if_neg ht]

theorem propagate_pairRails_inside (h : c ≠ t) (W : Matrix (Fin 6) (Fin 6) ℂ) {s : Rail n}
    {j : Fin 6} (hs : railPosition c t s = some j) :
    propagate (pairRails c t W) (X s) =
      photonOn c (fun a => W (controlRail a) j) + photonOn t (fun a => W (targetRail a) j) := by
  rw [propagate_X, Fintype.sum_prod_type, Fintype.sum_eq_add c t h]
  · refine congrArg₂ (· + ·) (Finset.sum_congr rfl fun a _ => ?_)
      (Finset.sum_congr rfl fun a _ => ?_)
    · rw [pairRails, spread_inside W (railPosition_control a) hs]
    · rw [pairRails, spread_inside W (railPosition_target h a) hs]
  · rintro i ⟨hc, ht⟩
    refine Finset.sum_eq_zero fun a _ => ?_
    have hout := railPosition_other hc ht a
    have hne : (i, a) ≠ s := by
      rintro rfl
      rw [hout] at hs
      cases hs
    rw [pairRails, spread_outside_row W hout, if_neg hne, C_0, zero_mul]

theorem propagate_pairRails_outside (W : Matrix (Fin 6) (Fin 6) ℂ) {s : Rail n}
    (hs : railPosition c t s = none) : propagate (pairRails c t W) (X s) = X s := by
  rw [propagate_X, Fintype.sum_eq_single s]
  · rw [pairRails, spread_outside_column W s hs, if_pos rfl, C_1, one_mul]
  · intro r hr
    rw [pairRails, spread_outside_column W r hs, if_neg hr, C_0, zero_mul]

noncomputable def bystanders (c t : Fin n) (y : Bits n) : PhotonState n :=
  ∏ i ∈ (Finset.univ.erase c).erase t, X (i, y i)

theorem mem_erase_target (h : c ≠ t) : t ∈ Finset.univ.erase c :=
  Finset.mem_erase.mpr ⟨h.symm, Finset.mem_univ t⟩

theorem codeword_split_pair (h : c ≠ t) (y : Bits n) :
    codeword y = X (c, y c) * (X (t, y t) * bystanders c t y) := by
  rw [codeword_split c, bystanders,
    Finset.mul_prod_erase _ (fun i => X (i, y i)) (mem_erase_target h)]

theorem codeword_update_pair (h : c ≠ t) (y : Bits n) (a b : Fin 2) :
    codeword (Function.update (Function.update y c a) t b) =
      X (c, a) * (X (t, b) * bystanders c t y) := by
  have hrest : bystanders c t (Function.update (Function.update y c a) t b) =
      bystanders c t y := by
    refine Finset.prod_congr rfl fun i hi => ?_
    rw [Function.update_of_ne (Finset.ne_of_mem_erase hi),
      Function.update_of_ne (Finset.ne_of_mem_erase (Finset.mem_of_mem_erase hi))]
  rw [codeword_split_pair h, hrest, Function.update_self, Function.update_of_ne h,
    Function.update_self]

theorem propagate_bystanders (W : Matrix (Fin 6) (Fin 6) ℂ) (y : Bits n) :
    propagate (pairRails c t W) (bystanders c t y) = bystanders c t y := by
  rw [bystanders, map_prod]
  refine Finset.prod_congr rfl fun i hi => propagate_pairRails_outside W ?_
  exact railPosition_other (Finset.ne_of_mem_erase (Finset.mem_of_mem_erase hi))
    (Finset.ne_of_mem_erase hi) _

theorem isCounted_bystanders (name : Fin n → Fin n) (y : Bits n) :
    IsWeightedHomogeneous (photonWeight name) (bystanders c t y)
      (∑ i ∈ (Finset.univ.erase c).erase t, Finsupp.single (name i) 1) :=
  IsWeightedHomogeneous.prod _ _ _ fun i _ => isWeightedHomogeneous_X ℂ _ (i, y i)

theorem onePerQubit_split (h : c ≠ t) (name : Fin n → Fin n) :
    onePerQubit name = Finsupp.single (name c) 1 + (Finsupp.single (name t) 1 +
      ∑ i ∈ (Finset.univ.erase c).erase t, Finsupp.single (name i) 1) := by
  rw [Finset.add_sum_erase _ (fun i => Finsupp.single (name i) 1) (mem_erase_target h),
    Finset.add_sum_erase _ (fun i => Finsupp.single (name i) 1) (Finset.mem_univ c), onePerQubit]

theorem counted_apart (h : c ≠ t) (f g : Fin 2 → ℂ) (y : Bits n) :
    counted name (onePerQubit name) (photonOn c f * (photonOn t g * bystanders c t y)) =
      photonOn c f * (photonOn t g * bystanders c t y) := by
  apply IsWeightedHomogeneous.weightedHomogeneousComponent_same
  rw [onePerQubit_split h name]
  exact (isCounted_photonOn name c f).mul
    ((isCounted_photonOn name t g).mul (isCounted_bystanders name y))

theorem counted_together (h : c ≠ t) (hname : name c ≠ name t) {q : Fin n} (hq : q = c ∨ q = t)
    (f g : Fin 2 → ℂ) (y : Bits n) :
    counted name (onePerQubit name) (photonOn q f * (photonOn q g * bystanders c t y)) = 0 := by
  have hdegree := (isCounted_photonOn name q f).mul
    ((isCounted_photonOn name q g).mul (isCounted_bystanders (c := c) (t := t) name y))
  refine hdegree.weightedHomogeneousComponent_ne _ fun he => ?_
  rw [onePerQubit_split h name] at he
  rcases hq with rfl | rfl
  · have hsingle := add_right_cancel (add_left_cancel he)
    exact hname (Finsupp.single_left_injective one_ne_zero hsingle).symm
  · rw [add_left_comm] at he
    have hsingle := add_right_cancel (add_left_cancel he)
    exact hname (Finsupp.single_left_injective one_ne_zero hsingle)

theorem photonOn_mul_photonOn (h : c ≠ t) (f g : Fin 2 → ℂ) (y : Bits n) :
    photonOn c f * (photonOn t g * bystanders c t y) =
      ∑ a, ∑ b, C (f a * g b) * codeword (Function.update (Function.update y c a) t b) := by
  rw [photonOn, photonOn, Finset.sum_mul]
  refine Finset.sum_congr rfl fun a _ => ?_
  rw [Finset.sum_mul, Finset.mul_sum]
  refine Finset.sum_congr rfl fun b _ => ?_
  rw [codeword_update_pair h, C_mul]
  ring

/-- The four ways in which the photons of two qubits leave a controlled gate. -/
theorem propagate_pairRails_codeword (h : c ≠ t) (W : Matrix (Fin 6) (Fin 6) ℂ) (y : Bits n) :
    propagate (pairRails c t W) (codeword y) =
      photonOn c (fun a => W (controlRail a) (controlRail (y c))) *
        (photonOn t (fun b => W (targetRail b) (targetRail (y t))) * bystanders c t y) +
      photonOn c (fun a => W (controlRail a) (targetRail (y t))) *
        (photonOn t (fun b => W (targetRail b) (controlRail (y c))) * bystanders c t y) +
      (photonOn c (fun a => W (controlRail a) (controlRail (y c))) *
        (photonOn c (fun a => W (controlRail a) (targetRail (y t))) * bystanders c t y) +
      photonOn t (fun b => W (targetRail b) (controlRail (y c))) *
        (photonOn t (fun b => W (targetRail b) (targetRail (y t))) * bystanders c t y)) := by
  rw [codeword_split_pair h, map_mul, map_mul, propagate_bystanders,
    propagate_pairRails_inside h W (railPosition_control (y c)),
    propagate_pairRails_inside h W (railPosition_target h (y t))]
  ring

/-- Where one photon for each qubit counts, the photons of a controlled gate coincide. -/
theorem counted_pairRails (h : c ≠ t) (hname : name c ≠ name t) (W : Matrix (Fin 6) (Fin 6) ℂ)
    (y : Bits n) :
    counted name (onePerQubit name) (propagate (pairRails c t W) (codeword y)) =
      ∑ a, ∑ b, C (coincidence W a b (y c) (y t)) *
        codeword (Function.update (Function.update y c a) t b) := by
  rw [propagate_pairRails_codeword h, map_add, map_add, map_add, counted_apart h, counted_apart h,
    counted_together h hname (.inl rfl), counted_together h hname (.inr rfl), add_zero, add_zero,
    photonOn_mul_photonOn h, photonOn_mul_photonOn h, ← Finset.sum_add_distrib]
  refine Finset.sum_congr rfl fun a _ => ?_
  rw [← Finset.sum_add_distrib]
  refine Finset.sum_congr rfl fun b _ => ?_
  rw [coincidence, C_add, add_mul]

theorem sum_sum_single (a₀ b₀ : Fin 2) (v : ℂ) (F : Fin 2 → Fin 2 → PhotonState n) :
    ∑ a, ∑ b, C (if a = a₀ ∧ b = b₀ then v else 0) * F a b = C v * F a₀ b₀ := by
  rw [Fintype.sum_eq_single a₀, Fintype.sum_eq_single b₀]
  · rw [if_pos ⟨rfl, rfl⟩]
  · intro b hb
    rw [if_neg fun h => hb h.2, C_0, zero_mul]
  · intro a ha
    refine Finset.sum_eq_zero fun b _ => ?_
    rw [if_neg fun h => ha h.1, C_0, zero_mul]

theorem counted_cx (h : c ≠ t) (hname : name c ≠ name t) (y : Bits n) :
    counted name (onePerQubit name) (propagate (LogicalGate.cx c t).railMatrix (codeword y)) =
      C (1 / 3) * encode fun x => (LogicalGate.cx c t).matrix x y := by
  simp only [LogicalGate.matrix_cx]
  rw [LogicalGate.railMatrix, counted_pairRails h hname, encode_single, C_1, one_mul]
  simp only [coincidence_cx]
  rw [sum_sum_single, Function.update_eq_self]

theorem counted_cz (h : c ≠ t) (hname : name c ≠ name t) (y : Bits n) :
    counted name (onePerQubit name) (propagate (LogicalGate.cz c t).railMatrix (codeword y)) =
      C (1 / 3) * encode fun x => (LogicalGate.cz c t).matrix x y := by
  simp only [LogicalGate.matrix_cz]
  rw [LogicalGate.railMatrix, counted_pairRails h hname, encode_single, ← mul_assoc, ← C_mul]
  simp only [coincidence_core]
  rw [sum_sum_single, Function.update_eq_self, Function.update_eq_self, one_div_mul_eq_div]

theorem pairRails_keeps {merged : Fin n → Fin n} (h : merged c = merged t)
    (W : Matrix (Fin 6) (Fin 6) ℂ) (r s : Rail n) (hrs : pairRails c t W r s ≠ 0) :
    merged r.1 = merged s.1 := by
  by_cases hr : railPosition c t r = none
  · rw [pairRails, spread_outside_row W hr] at hrs
    rw [of_not_not fun he => hrs (if_neg he)]
  · by_cases hs : railPosition c t s = none
    · rw [pairRails, spread_outside_column W r hs] at hrs
      rw [of_not_not fun he => hrs (if_neg he)]
    · have hmem : ∀ u : Rail n, railPosition c t u ≠ none → merged u.1 = merged c := by
        intro u hu
        by_cases hc : u.1 = c
        · rw [hc]
        · by_cases ht : u.1 = t
          · rw [ht, h]
          · exact absurd (railPosition_other hc ht u.2) hu
      rw [hmem r hr, hmem s hs]

end Pair

namespace LogicalGate

variable {l : LogicalGate n} {gates : List (LogicalGate n)}

theorem counted_codeword (hd : l.Distinct) (htree : Treelike (l :: gates)) (y : Bits n) :
    counted (link gates) (onePerQubit (link gates)) (propagate l.railMatrix (codeword y)) =
      C l.factor * encode fun x => l.matrix x y := by
  cases l with
  | single q A => rw [propagate_single_codeword, counted_encode, factor, C_1, one_mul]
  | cx c t => exact counted_cx hd htree.1 y
  | cz c t => exact counted_cz hd htree.1 y
  | swap a b => rw [propagate_swap_codeword, counted_encode, factor, C_1, one_mul]

theorem counted_pair {c t : Fin n} (W : Matrix (Fin 6) (Fin 6) ℂ) (name : Fin n → Fin n)
    (P : PhotonState n) :
    counted name (onePerQubit name) (propagate (pairRails c t W) P) =
      counted name (onePerQubit name) (propagate (pairRails c t W)
        (counted (fun q => if name q = name t then name c else name q)
          (onePerQubit fun q => if name q = name t then name c else name q) P)) := by
  have hmerged : (fun q => if name q = name t then name c else name q) c =
      (fun q => if name q = name t then name c else name q) t := by
    simp only [if_true]
    exact ite_id _
  rw [← counted_propagate (pairRails_keeps hmerged W)]
  exact (counted_counted (fun a => if a = name t then name c else a) _).symm

/-- What counts after a gate comes from what counts before it. -/
theorem counted_before (l : LogicalGate n) (gates : List (LogicalGate n)) (P : PhotonState n) :
    counted (link gates) (onePerQubit (link gates)) (propagate l.railMatrix P) =
      counted (link gates) (onePerQubit (link gates)) (propagate l.railMatrix
        (counted (link (l :: gates)) (onePerQubit (link (l :: gates))) P)) := by
  cases l with
  | single q A =>
    have hkeeps : ∀ r s, (single q A).railMatrix r s ≠ 0 → link gates r.1 = link gates s.1 := by
      intro r s hrs
      rw [single_railMatrix_apply] at hrs
      by_cases hq : r.1 = q ∧ s.1 = q
      · rw [hq.1, hq.2]
      · rw [if_neg hq] at hrs
        rw [of_not_not fun he => hrs (if_neg he)]
    change _ = counted _ _ (propagate _ (counted (link gates) (onePerQubit (link gates)) P))
    rw [← counted_propagate hkeeps]
    exact (counted_counted id _).symm
  | cx c t => exact counted_pair cxMatrix (link gates) P
  | cz c t => exact counted_pair coreMatrix (link gates) P
  | swap a b =>
    have hkeeps : ∀ r s, (swap a b).railMatrix r s ≠ 0 →
        link gates r.1 = link (swap a b :: gates) s.1 := by
      intro r s hrs
      rw [swap_railMatrix_apply] at hrs
      rw [of_not_not fun he => hrs (if_neg he)]
      rfl
    have hone : onePerQubit (link (swap a b :: gates)) = onePerQubit (link gates) :=
      Equiv.sum_comp (Equiv.swap a b) fun i => Finsupp.single (link gates i) 1
    rw [hone, ← counted_propagate hkeeps]
    exact (counted_counted id _).symm

/-- One gate: if what counts stands for `ψ`, what counts after it stands for its image. -/
theorem counted_step (hd : l.Distinct) (htree : Treelike (l :: gates)) {P : PhotonState n} {γ : ℂ}
    {ψ : Bits n → ℂ}
    (hP : counted (link (l :: gates)) (onePerQubit (link (l :: gates))) P = C γ * encode ψ) :
    counted (link gates) (onePerQubit (link gates)) (propagate l.railMatrix P) =
      C (γ * l.factor) * encode (l.matrix.mulVec ψ) := by
  have hcolumn : ∀ y, counted (link gates) (onePerQubit (link gates))
      (propagate l.railMatrix (C (ψ y) * codeword y)) =
      C l.factor * (C (ψ y) * encode fun x => l.matrix x y) := by
    intro y
    rw [propagate_C_mul, counted_C_mul, counted_codeword hd htree, mul_left_comm]
  rw [counted_before, hP, propagate_C_mul, counted_C_mul, encode, map_sum, map_sum,
    Finset.sum_congr rfl fun y _ => hcolumn y, ← Finset.mul_sum, encode_mulVec, C_mul, mul_assoc]

/-- A circuit whose links close no cycle, gate after gate. -/
theorem counted_run : ∀ {gates : List (LogicalGate n)}, (∀ l ∈ gates, l.Distinct) →
    Treelike gates → ∀ {P : PhotonState n} {γ : ℂ} {ψ : Bits n → ℂ},
    counted (link gates) (onePerQubit (link gates)) P = C γ * encode ψ →
    counted (link []) (onePerQubit (link []))
        (propagate (gates.map railMatrix).reverse.prod P) =
      C (γ * (gates.map factor).prod) * encode ((gates.map matrix).reverse.prod.mulVec ψ) := by
  intro gates
  induction gates with
  | nil =>
    intro _ _ P γ ψ hP
    simpa [propagate_one] using hP
  | cons l gates ih =>
    intro hd htree P γ ψ hP
    have hrest : Treelike gates := by
      cases l with
      | single q A | swap a b => exact htree
      | cx c t | cz c t => exact htree.2
    have hstep := counted_step (hd l List.mem_cons_self) htree hP
    have hrun := ih (fun k hk => hd k (List.mem_cons_of_mem l hk)) hrest hstep
    simp only [List.map_cons, List.reverse_cons, List.prod_append, List.prod_cons, List.prod_nil,
      mul_one]
    rw [propagate_mul, hrun, mul_assoc, Matrix.mulVec_mulVec]

theorem permanent_run (hd : ∀ l ∈ gates, l.Distinct) (htree : Treelike gates) (x : Bits n) :
    (Matrix.permanent fun i j : Fin n => (gates.map railMatrix).reverse.prod (i, x i) (j, 0)) =
      (gates.map factor).prod * circuitAmplitude gates x := by
  have hzero : encode (Pi.single 0 1) = codeword (0 : Bits n) := by
    have hsingle : (Pi.single 0 1 : Bits n → ℂ) = fun x => if x = 0 then 1 else 0 :=
      funext fun x => Pi.single_apply 0 1 x
    rw [hsingle, encode_single, C_1, one_mul]
  have hstart : counted (link gates) (onePerQubit (link gates)) (codeword (0 : Bits n)) =
      C 1 * encode (Pi.single 0 1) := by
    rw [← hzero, counted_encode, C_1, one_mul]
  have hrun := congrArg (coeff (occupation x)) (counted_run hd htree hstart)
  rw [coeff_counted, coeff_C_mul, coeff_encode, one_mul, coeff_propagate_codeword] at hrun
  exact hrun

end LogicalGate

end DualRail
