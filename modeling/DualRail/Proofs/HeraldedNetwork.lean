import DualRail.Proofs.HeraldedGate

/-!
Photons in a network of heralded gates. Next to the photons of the qubits there are those that the
gates need on their new modes. Gate after gate, where the new modes of all gates so far show the
photons they were given, the photons on the rails stand for the state of the circuit, up to a
factor, and for nothing else.
-/

namespace DualRail

open MvPolynomial Standard

variable {n M : Nat}

section States

variable {hM : 2 * n ≤ M} {anc : Fin M →₀ ℕ}

noncomputable def stateWith (hM : 2 * n ≤ M) (anc : Fin M →₀ ℕ) (P : PhotonState n) :
    MvPolynomial (Fin M) ℂ :=
  rename (railIndex hM) P * monomial anc 1

noncomputable def codeWith (hM : 2 * n ≤ M) (anc : Fin M →₀ ℕ) (x : Bits n) : Fin M →₀ ℕ :=
  (occupation x).mapDomain (railIndex hM) + anc

theorem stateWith_sum (ψ : Bits n → ℂ) (P : Bits n → PhotonState n) :
    stateWith hM anc (∑ x, C (ψ x) * P x) = ∑ x, C (ψ x) * stateWith hM anc (P x) := by
  rw [stateWith, map_sum, Finset.sum_mul]
  refine Finset.sum_congr rfl fun x _ => ?_
  rw [map_mul, rename_C, mul_assoc, stateWith]

theorem stateWith_codeword (x : Bits n) :
    stateWith hM anc (codeword x) = monomial (codeWith hM anc x) 1 := by
  rw [stateWith, codeword_eq_monomial, rename_monomial, monomial_mul, mul_one, codeWith]

theorem stateWith_encode (ψ : Bits n → ℂ) :
    stateWith hM anc (encode ψ) = ∑ x, C (ψ x) * monomial (codeWith hM anc x) 1 := by
  rw [encode, stateWith_sum]
  simp only [stateWith_codeword]

theorem mem_range_railIndex (hM : 2 * n ≤ M) {i : Fin M} :
    i ∈ Set.range (railIndex (n := n) hM) ↔ i.val < 2 * n := by
  constructor
  · rintro ⟨r, rfl⟩
    exact railMode_lt r
  · intro hi
    obtain ⟨r, hr⟩ := exists_railMode hi
    exact ⟨r, Fin.ext hr⟩

theorem codeWith_rail (hanc : ∀ r, anc (railIndex hM r) = 0) (x : Bits n) (r : Rail n) :
    codeWith hM anc x (railIndex hM r) = if x r.1 = r.2 then 1 else 0 := by
  rw [codeWith, Finsupp.add_apply, Finsupp.mapDomain_apply (railIndex_injective hM),
    occupation_apply, hanc, add_zero]

theorem codeWith_other (x : Bits n) {i : Fin M} (hi : 2 * n ≤ i.val) :
    codeWith hM anc x i = anc i := by
  have hout : i ∉ Set.range (railIndex (n := n) hM) := by
    rw [mem_range_railIndex]
    omega
  rw [codeWith, Finsupp.add_apply, Finsupp.mapDomain_of_notMem_range _ _ hout, zero_add]

theorem coeff_stateWith_code (ψ : Bits n → ℂ) (x : Bits n) :
    coeff (codeWith hM anc x) (stateWith hM anc (encode ψ)) = ψ x := by
  rw [codeWith, stateWith, coeff_mul_monomial, mul_one,
    coeff_rename_mapDomain _ (railIndex_injective hM), coeff_encode]

theorem coeff_stateWith_other (ψ : Bits n → ℂ) {u : Fin M →₀ ℕ}
    (h : ∀ x, codeWith hM anc x ≠ u) : coeff u (stateWith hM anc (encode ψ)) = 0 := by
  rw [stateWith_encode, coeff_sum]
  refine Finset.sum_eq_zero fun x _ => ?_
  rw [coeff_C_mul, coeff_monomial, if_neg (h x), mul_zero]

end States

section Plain

variable {hM : 2 * n ≤ M} {anc : Fin M →₀ ℕ} {l : LogicalGate n} {p : Placement (Device ℝ) ℝ}
  {V : Dense (Amplitude ℝ)}

theorem actsOn_rails (himp : Implements l p.qubits p.fragment) (hnone : p.fragment.ancillas = [])
    (hp : p.Sound n) (hV : p.circuit.matrix = .ok V) (hM : 2 * n ≤ M) :
    ActsOn (complexBlock M p.block V) (railIndex hM) l.railMatrix := by
  have hout : ∀ i : Fin M, i ∉ Set.range (railIndex (n := n) hM) → i.val ∉ p.block := by
    intro i hi hmem
    rw [mem_range_railIndex, Nat.not_lt] at hi
    have hlt := hp.block_lt _ hmem
    rw [Placement.stop, hnone] at hlt
    exact hp.not_mem_block hi hlt hmem
  refine ⟨railIndex_injective hM, fun r s => ?_, fun i j hij => ?_⟩
  · rw [← onRails_of_implements himp hp hV hM]
    rfl
  · exact complexBlock_outside V (hij.imp (hout i) (hout j))

theorem propagate_encode_plain {qubits : List Nat} {f : Fragment (Device ℝ) ℝ}
    (himp : Implements l qubits f) (hnone : f.ancillas = []) (ψ : Bits n → ℂ) :
    propagate l.railMatrix (encode ψ) = encode (l.matrix.mulVec ψ) := by
  have hcodeword : ∀ y, propagate l.railMatrix (codeword y) = encode fun x => l.matrix x y := by
    intro y
    cases himp with
    | single _ => exact propagate_single_codeword _ _ y
    | cx _ | cz _ => cases hnone
    | swap _ _ => exact propagate_swap_codeword _ _ y
  rw [← encode_mulVec, encode, map_sum]
  refine Finset.sum_congr rfl fun y _ => ?_
  rw [propagate_C_mul, hcodeword]

theorem propagate_stateWith_plain (himp : Implements l p.qubits p.fragment)
    (hnone : p.fragment.ancillas = []) (hp : p.Sound n) (hV : p.circuit.matrix = .ok V)
    (hanc : ∀ r, anc (railIndex hM r) = 0) (ψ : Bits n → ℂ) :
    propagate (complexBlock M p.block V) (stateWith hM anc (encode ψ)) =
      stateWith hM anc (encode (l.matrix.mulVec ψ)) := by
  rw [stateWith, (actsOn_rails himp hnone hp hV hM).propagate_rename_mul _ hanc,
    propagate_encode_plain himp hnone, stateWith]

end Plain

section Controlled

variable {hM : 2 * n ≤ M} {anc : Fin M →₀ ℕ} {c t : Fin n} {base : Nat}
  {A : Matrix (Fin 2) (Fin 2) ℂ}

structure Controls (l : LogicalGate n) (c t : Fin n) (A : Matrix (Fin 2) (Fin 2) ℂ) : Prop where
  target : ∀ (y : Bits n) (b : Fin 2),
    l.matrix (Function.update y t b) y = (if y c = 1 then A else 1) b (y t)
  others : ∀ x y : Bits n, x ≠ Function.update y t (x t) → l.matrix x y = 0

theorem controls_cx (c t : Fin n) : Controls (.cx c t) c t !![0, 1; 1, 0] := by
  have hbits : ∀ control target b : Fin 2, (if b = target + control then 1 else 0) =
      (if control = 1 then !![0, 1; 1, 0] else (1 : Matrix (Fin 2) (Fin 2) ℂ)) b target := by
    simp [Fin.forall_fin_two]
  constructor
  · intro y b
    rw [LogicalGate.matrix_cx]
    simp only [(Function.update_injective y t).eq_iff]
    exact hbits (y c) (y t) b
  · intro x y hxy
    rw [LogicalGate.matrix_cx, if_neg]
    rintro rfl
    simp at hxy

theorem controls_cz (c t : Fin n) : Controls (.cz c t) c t !![1, 0; 0, -1] := by
  have hbits : ∀ control target b : Fin 2,
      (if b = target then (if control = 1 ∧ target = 1 then -1 else 1) else 0) =
        (if control = 1 then !![1, 0; 0, -1] else (1 : Matrix (Fin 2) (Fin 2) ℂ)) b target := by
    simp [Fin.forall_fin_two]
  constructor
  · intro y b
    have hself : Function.update y t b = y ↔ b = y t := Function.update_eq_self_iff
    rw [LogicalGate.matrix_cz]
    simp only [hself]
    exact hbits (y c) (y t) b
  · intro x y hxy
    rw [LogicalGate.matrix_cz, if_neg]
    rintro rfl
    simp at hxy

/-- The modes of a heralded gate: two new modes, the rails of the control, those of the target, and
two more new modes. -/
def placedModes (hM : 2 * n ≤ M) (c t : Fin n) (hb : base + 4 ≤ M) : Fin 8 → Fin M :=
  ![⟨base, by omega⟩, ⟨base + 1, by omega⟩,
    .castLE hM ⟨2 * c, by omega⟩, .castLE hM ⟨2 * c + 1, by omega⟩,
    .castLE hM ⟨2 * t, by omega⟩, .castLE hM ⟨2 * t + 1, by omega⟩,
    ⟨base + 2, by omega⟩, ⟨base + 3, by omega⟩]

theorem freePositions_heralded {circuit : Network (Device ℝ)} (h : circuit.width = 8) :
    (heraldedFragment circuit).freePositions = [0, 1, 6, 7] := by
  obtain ⟨name, width, entries⟩ := circuit
  obtain rfl : width = 8 := h
  rfl

theorem block_heralded {circuit : Network (Device ℝ)} (h : circuit.width = 8) {block : List Nat}
    (hblock : (heraldedFragment circuit).IsBlock [c.val, t.val] base block) (hM : 2 * n ≤ M)
    (hb : base + 4 ≤ M) (i : Fin 8) : block[i.val]? = some (placedModes hM c t hb i).val := by
  obtain ⟨hc0, hc1⟩ := hblock.rails 0 2 c rfl rfl
  obtain ⟨ht0, ht1⟩ := hblock.rails 1 4 t rfl rfl
  have hnew : ∀ j pos, [0, 1, 6, 7][j]? = some pos → block[pos]? = some (base + j) := by
    rw [← freePositions_heralded h]
    exact hblock.ancillas
  fin_cases i
  · exact hnew 0 0 rfl
  · exact hnew 1 1 rfl
  · exact hc0
  · exact hc1
  · exact ht0
  · exact ht1
  · exact hnew 2 6 rfl
  · exact hnew 3 7 rfl

theorem codeWith_placedModes (hanc : ∀ r, anc (railIndex hM r) = 0) {hb : base + 4 ≤ M}
    (hbase : 2 * n ≤ base)
    (hnew : ∀ i ∈ heraldModes, anc (placedModes hM c t hb i) = heraldCounts i) (y : Bits n)
    (i : Fin 8) : codeWith hM anc y (placedModes hM c t hb i) = eightModes (y c) (y t) i := by
  have hrail : ∀ q b, codeWith hM anc y (railIndex hM (q, b)) = if y q = b then 1 else 0 :=
    fun q b => codeWith_rail hanc y (q, b)
  have hother : ∀ i ∈ heraldModes, base ≤ (placedModes hM c t hb i).val →
      codeWith hM anc y (placedModes hM c t hb i) = eightModes (y c) (y t) i := by
    intro i hi hle
    rw [codeWith_other y (hbase.trans hle), hnew i hi, eightModes_herald _ _ hi]
  have hzero : ∀ b : Fin 2, (if b = 0 then 1 else 0) = 1 - b.val := by decide
  have hone : ∀ b : Fin 2, (if b = 1 then 1 else 0) = b.val := by decide
  fin_cases i
  · exact hother 0 (by simp [heraldModes]) (Nat.le_refl _)
  · exact hother 1 (by simp [heraldModes]) (Nat.le_add_right _ _)
  · exact (hrail c 0).trans (hzero _)
  · exact (hrail c 1).trans (hone _)
  · exact (hrail t 0).trans (hzero _)
  · exact (hrail t 1).trans (hone _)
  · exact hother 6 (by simp [heraldModes]) (Nat.le_add_right _ _)
  · exact hother 7 (by simp [heraldModes]) (Nat.le_add_right _ _)

theorem codeWith_away (hanc : ∀ r, anc (railIndex hM r) = 0) {hb : base + 4 ≤ M} (y : Bits n)
    (b : Fin 2) {i : Fin M} (hi : i ∉ Set.range (placedModes hM c t hb)) :
    codeWith hM anc (Function.update y t b) i = codeWith hM anc y i := by
  by_cases hlt : i.val < 2 * n
  · obtain ⟨⟨q, a⟩, rfl⟩ := (mem_range_railIndex hM).mpr hlt
    have hq : q ≠ t := by
      rintro rfl
      obtain rfl | rfl : a = 0 ∨ a = 1 := by omega
      · exact hi ⟨4, rfl⟩
      · exact hi ⟨5, rfl⟩
    rw [codeWith_rail hanc, codeWith_rail hanc, Function.update_of_ne hq]
  · rw [codeWith_other _ (Nat.not_lt.mp hlt), codeWith_other _ (Nat.not_lt.mp hlt)]

theorem agreeOn_controlled {G : Matrix (Fin M) (Fin M) ℂ} {W : Matrix (Fin 8) (Fin 8) ℂ}
    {hb : base + 4 ≤ M} (hG : ActsOn G (placedModes hM c t hb) W) (hW : HeraldsControlled W A)
    (hct : c ≠ t) (hanc : ∀ r, anc (railIndex hM r) = 0) (hbase : 2 * n ≤ base)
    (hnew : ∀ i ∈ heraldModes, anc (placedModes hM c t hb i) = heraldCounts i) (y : Bits n) :
    AgreeOn (Set.image (placedModes hM c t hb) heraldModes) anc
      (propagate G (monomial (codeWith hM anc y) 1))
      (C heraldFactor * ∑ b, C ((if y c = 1 then A else 1) b (y t)) *
        monomial (codeWith hM anc (Function.update y t b)) 1) := by
  have hagree := hG.agreeOn_monomial (codeWith_placedModes hanc hbase hnew y)
    ((hW.agree (y c) (y t)).congr hnew)
  have hpattern : ∀ b, rename (placedModes hM c t hb) (monomial (eightModes (y c) b) 1) *
      monomial (besides hG.injective (codeWith hM anc y)) 1 =
        (monomial (codeWith hM anc (Function.update y t b)) 1 : MvPolynomial (Fin M) ℂ) := by
    intro b
    refine rename_mul_besides hG.injective (fun i => ?_) fun i hi => codeWith_away hanc y b hi
    rw [codeWith_placedModes hanc hbase hnew, Function.update_of_ne hct, Function.update_self]
  rw [map_mul, rename_C, map_sum, mul_assoc, Finset.sum_mul] at hagree
  simp only [map_mul, rename_C, mul_assoc, hpattern] at hagree
  exact hagree

/-- A heralded gate takes the state of the qubits to its image, up to its factor. -/
theorem agreeOn_stateWith {l : LogicalGate n} (hl : Controls l c t A)
    {G : Matrix (Fin M) (Fin M) ℂ} {S : Set (Fin M)} {z : ℂ}
    (hG : ∀ y : Bits n, AgreeOn S anc (propagate G (monomial (codeWith hM anc y) 1))
      (C z * ∑ b, C ((if y c = 1 then A else 1) b (y t)) *
        monomial (codeWith hM anc (Function.update y t b)) 1)) (ψ : Bits n → ℂ) :
    AgreeOn S anc (propagate G (stateWith hM anc (encode ψ)))
      (C z * stateWith hM anc (encode (l.matrix.mulVec ψ))) := by
  have hcolumn : ∀ y : Bits n, stateWith hM anc (encode fun x => l.matrix x y) =
      ∑ b, C ((if y c = 1 then A else 1) b (y t)) *
        monomial (codeWith hM anc (Function.update y t b)) 1 := by
    intro y
    rw [stateWith_encode, sum_update y t]
    · simp only [hl.target]
    · intro x hx
      rw [hl.others x y hx, C_0, zero_mul]
  rw [stateWith_encode, map_sum, ← encode_mulVec, stateWith_sum, Finset.mul_sum]
  refine AgreeOn.sum fun y _ => ?_
  rw [propagate_C_mul, hcolumn, mul_left_comm]
  exact (hG y).C_mul (ψ y)

end Controlled

section Gates

variable {hM : 2 * n ≤ M} {anc : Fin M →₀ ℕ} {l : LogicalGate n} {p : Placement (Device ℝ) ℝ}
  {V : Dense (Amplitude ℝ)}

inductive ImplementsHeralded : LogicalGate n → List Nat → Fragment (Device ℝ) ℝ → Prop where
  | plain {l : LogicalGate n} {qubits : List Nat} {f : Fragment (Device ℝ) ℝ} :
      Implements l qubits f → f.ancillas = [] → ImplementsHeralded l qubits f
  | controlled {l : LogicalGate n} {c t : Fin n} {A : Matrix (Fin 2) (Fin 2) ℂ}
      {circuit : Network (Device ℝ)} : c ≠ t → Controls l c t A → CircuitHeralds circuit A →
      ImplementsHeralded l [c.val, t.val] (heraldedFragment circuit)

theorem exists_heralded_matrix {circuit : Network (Device ℝ)} {A : Matrix (Fin 2) (Fin 2) ℂ}
    (h : CircuitHeralds circuit A) : ∃ (V : Dense (Amplitude ℝ)) (W : Matrix (Fin 8) (Fin 8) ℂ),
      circuit.matrix = .ok V ∧ HeraldsControlled W A ∧
        ∀ i j : Fin 8, (V.get i j).toComplex = W i j := by
  obtain ⟨name, width, entries⟩ := circuit
  obtain ⟨rfl, W, hW, hacts⟩ := h
  obtain ⟨V, hV, hentry⟩ := hW.matrix_eq (by decide) name
  exact ⟨V, W, hV, hacts, hentry⟩

theorem ImplementsHeralded.exists_matrix {qubits : List Nat} {f : Fragment (Device ℝ) ℝ}
    (h : ImplementsHeralded l qubits f) {c : Network (Device ℝ)} (hc : f.circuit = some c) :
    ∃ V : Dense (Amplitude ℝ), c.matrix = .ok V := by
  cases h with
  | plain himp _ =>
    obtain ⟨V, hV, _⟩ := himp.exists_matrix hc
    exact ⟨V, hV⟩
  | controlled _ _ hcircuit =>
    obtain rfl := Option.some.inj hc
    obtain ⟨V, _, hV, _⟩ := exists_heralded_matrix hcircuit
    exact ⟨V, hV⟩

noncomputable def heraldedFactor (f : Fragment (Device ℝ) ℝ) : ℂ :=
  if f.heralded = true then heraldFactor else 1

def Prepared (p : Placement (Device ℝ) ℝ) (anc : Fin M →₀ ℕ) : Prop :=
  ∀ (j : Nat) (a : Ancilla), p.fragment.ancillas[j]? = some a →
    ∀ i : Fin M, i.val = p.base + j → anc i = a.photons.toNat

theorem agreeOn_gate (himp : ImplementsHeralded l p.qubits p.fragment) (hp : p.Sound n)
    (hV : p.circuit.matrix = .ok V) (hstop : p.stop ≤ M) (hanc : ∀ r, anc (railIndex hM r) = 0)
    (hprep : Prepared p anc) (ψ : Bits n → ℂ) :
    AgreeOn {i : Fin M | p.base ≤ i.val ∧ i.val < p.stop} anc
      (propagate (complexBlock M p.block V) (stateWith hM anc (encode ψ)))
      (C (heraldedFactor p.fragment) * stateWith hM anc (encode (l.matrix.mulVec ψ))) := by
  obtain ⟨f, circuit, qubits, base⟩ := p
  cases himp with
  | plain himp hnone =>
    rw [propagate_stateWith_plain himp hnone hp hV hanc, heraldedFactor, himp.heralded_eq,
      if_neg Bool.false_ne_true, C_1, one_mul]
    exact AgreeOn.refl _ _ _
  | @controlled c t A net hct hl hcircuit =>
    obtain rfl := Option.some.inj hp.valid.circuit
    obtain ⟨_, W, hV', hW, hentry⟩ := exists_heralded_matrix hcircuit
    obtain rfl := Except.ok.inj (hV.symm.trans hV')
    have hlen := hp.length_block.trans hcircuit.width
    have hblock := block_heralded (M := M) hcircuit.width hp.isBlock hM hstop
    have hacts := actsOn_complexBlock hp.block_nodup hlen hblock hentry
    have hnew : ∀ i ∈ heraldModes, anc (placedModes hM c t hstop i) = heraldCounts i := by
      rintro i (rfl | rfl | rfl | rfl)
      · exact hprep 0 _ rfl _ rfl
      · exact hprep 1 _ rfl _ rfl
      · exact hprep 2 _ rfl _ rfl
      · exact hprep 3 _ rfl _ rfl
    refine (agreeOn_stateWith hl (agreeOn_controlled hacts hW hct hanc hp.le_base hnew) ψ).mono ?_
    rintro _ ⟨i, rfl | rfl | rfl | rfl, rfl⟩
    · exact (by omega : base ≤ base ∧ base < base + 4)
    · exact (by omega : base ≤ base + 1 ∧ base + 1 < base + 4)
    · exact (by omega : base ≤ base + 2 ∧ base + 2 < base + 4)
    · exact (by omega : base ≤ base + 3 ∧ base + 3 < base + 4)

/-- Where the new modes before `base` show the photons they were given, the photons on the rails
stand for the state `ψ`, up to the factor `z`, and the other new modes hold the photons they were
given. -/
def Stands (hM : 2 * n ≤ M) (anc : Fin M →₀ ℕ) (base : Nat) (z : ℂ) (ψ : Bits n → ℂ)
    (P : MvPolynomial (Fin M) ℂ) : Prop :=
  AgreeOn {i : Fin M | 2 * n ≤ i.val ∧ i.val < base} anc P (C z * stateWith hM anc (encode ψ))

theorem bypasses_complexBlock {block : List Nat} {i : Fin M} (h : i.val ∉ block) :
    Bypasses (complexBlock M block V) i := by
  intro k hk
  rw [complexBlock_outside V (.inr h), complexBlock_outside V (.inl h), if_neg hk, if_neg hk.symm]
  exact ⟨rfl, rfl⟩

/-- A gate does not touch the modes of the gates before it, so what they show is settled. -/
theorem Stands.step (himp : ImplementsHeralded l p.qubits p.fragment) (hp : p.Sound n)
    (hV : p.circuit.matrix = .ok V) (hstop : p.stop ≤ M) (hanc : ∀ r, anc (railIndex hM r) = 0)
    (hprep : Prepared p anc) {z : ℂ} {ψ : Bits n → ℂ} {P : MvPolynomial (Fin M) ℂ}
    (h : Stands hM anc p.base z ψ P) :
    Stands hM anc p.stop (z * heraldedFactor p.fragment) (l.matrix.mulVec ψ)
      (propagate (complexBlock M p.block V) P) := by
  have hbefore : ∀ i ∈ {i : Fin M | 2 * n ≤ i.val ∧ i.val < p.base},
      Bypasses (complexBlock M p.block V) i := by
    rintro i ⟨hlow, hhigh⟩
    exact bypasses_complexBlock (hp.not_mem_block hlow hhigh)
  have hgate := agreeOn_gate himp hp hV hstop hanc hprep ψ
  have hbase := hp.le_base
  have hle : p.base ≤ p.stop := Nat.le_add_right _ _
  refine ((h.propagate hbefore).mono ?_).trans ?_
  · exact fun i hi => ⟨hi.1, hi.2.trans_le hle⟩
  · rw [propagate_C_mul, C_mul, mul_assoc]
    refine AgreeOn.C_mul z (hgate.mono fun i hi => ?_)
    exact ⟨hbase.trans hi.1, hi.2⟩

theorem stands_zero : Stands hM anc (2 * n) 1 (Pi.single 0 1) (monomial (codeWith hM anc 0) 1) := by
  have hsingle : (Pi.single 0 1 : Bits n → ℂ) = fun x => if x = 0 then 1 else 0 := by
    funext x
    exact Pi.single_apply 0 1 x
  rw [Stands, hsingle, encode_single, C_1, one_mul, C_1, one_mul, stateWith_codeword]
  exact AgreeOn.refl _ _ _

/-- The gates of a layout take the state of the qubits to its image under the circuit. -/
theorem Stands.layout {s : Settings (Device ℝ) ℝ} (hr : s.registry.Built) {base : Nat}
    {gs : List (Gate ℝ)} {ps : List (Placement (Device ℝ) ℝ)} (hlayout : LaysOut s n base gs ps)
    (hb : 2 * n ≤ base) {ls : List (LogicalGate n)} {Vs : List (Dense (Amplitude ℝ))}
    (himp : List.Forall₂ (fun l p => ImplementsHeralded l p.qubits p.fragment) ls ps)
    (hV : List.Forall₂ (fun p V => p.circuit.matrix = .ok V) ps Vs)
    (hstop : ∀ p ∈ ps, p.stop ≤ M) (hanc : ∀ r, anc (railIndex hM r) = 0)
    (hprep : ∀ p ∈ ps, Prepared p anc) {z : ℂ} {ψ : Bits n → ℂ} {P : MvPolynomial (Fin M) ℂ}
    (h : Stands hM anc base z ψ P) :
    Stands hM anc (endOf base ps) (z * (ps.map fun p => heraldedFactor p.fragment).prod)
      ((ls.map LogicalGate.matrix).reverse.prod.mulVec ψ)
      (propagate (Amplitude.complexHom.mapMatrix (gateMatrices M ps Vs).reverse.prod) P) := by
  induction hlayout generalizing ls Vs z ψ P with
  | nil =>
    cases himp
    cases hV
    simpa [gateMatrices, endOf, propagate_one] using h
  | @cons base g gs p ps hlay _ ih =>
    cases himp with
    | @cons l _ ls _ hl himp =>
      cases hV with
      | @cons _ V _ Vs hVp hV =>
        obtain ⟨hstop, hstops⟩ := List.forall_mem_cons.mp hstop
        obtain ⟨hprep, hpreps⟩ := List.forall_mem_cons.mp hprep
        have hat : Stands hM anc p.base z ψ P := by
          rw [hlay.base]
          exact h
        have hnext := hat.step hl (hlay.sound hr hb) hVp hstop hanc hprep
        have hrest := ih (hb.trans hlay.le_stop) himp hV hstops hpreps hnext
        rw [endOf_cons hlay, mul_assoc, ← List.prod_cons, ← propagate_mul,
          Matrix.mulVec_mulVec] at hrest
        simp only [gateMatrices, List.zipWith_cons_cons, List.map_cons, List.reverse_cons,
          List.prod_append, List.prod_singleton, map_mul]
        exact hrest

end Gates

end DualRail
