import DualRail.Proofs.LogicalCircuit
import DualRail.Proofs.Meaning
import DualRail.Proofs.RealQuantity
import DualRail.Proofs.StandardCatalog

/-!
The matrices of the standard gates over the complex numbers. A phase acts on one mode and a beam
splitter on two; the fragments of the single-qubit gates have the matrices their names stand for,
and the postselected controlled gates have the coincidence amplitudes of a controlled gate times a
third.
-/

namespace DualRail

open Complex

section Realizes

variable {m : Nat}

/-- The entries have the matrix `P` over the complex numbers. -/
def Realizes (m : Nat) (entries : List (Entry (Component (Device ℝ))))
    (P : Matrix (Fin m) (Fin m) ℂ) : Prop :=
  ∃ Q : Matrix (Fin m) (Fin m) (Amplitude ℝ),
    HaveProduct m entries Q ∧ Amplitude.complexHom.mapMatrix Q = P

theorem realizes_nil : Realizes m [] 1 :=
  ⟨1, haveProduct_nil, map_one _⟩

theorem Realizes.append {es fs : List (Entry (Component (Device ℝ)))}
    {P Q : Matrix (Fin m) (Fin m) ℂ} (hP : Realizes m es P) (hQ : Realizes m fs Q) :
    Realizes m (es ++ fs) (Q * P) := by
  obtain ⟨P', hP', rfl⟩ := hP
  obtain ⟨Q', hQ', rfl⟩ := hQ
  exact ⟨Q' * P', hP'.append hQ', map_mul _ _ _⟩

theorem Realizes.cons {e : Entry (Component (Device ℝ))}
    {fs : List (Entry (Component (Device ℝ)))} {P Q : Matrix (Fin m) (Fin m) ℂ}
    (hP : Realizes m [e] P) (hQ : Realizes m fs Q) : Realizes m (e :: fs) (Q * P) :=
  hP.append hQ

theorem Realizes.matrix_eq {entries : List (Entry (Component (Device ℝ)))}
    {P : Matrix (Fin m) (Fin m) ℂ} (h : Realizes m entries P) (hm : Dense.Storable m)
    (name : String) :
    ∃ V : Dense (Amplitude ℝ), (⟨name, m, entries⟩ : Network (Device ℝ)).matrix = .ok V ∧
      ∀ i j : Fin m, (V.get i j).toComplex = P i j := by
  obtain ⟨_, ⟨Ms, hMs, rfl⟩, rfl⟩ := h
  refine ⟨_, matrix_net_of_hasMatrix hm hMs, fun i j => ?_⟩
  rw [Dense.get_ofMatrix]
  rfl

theorem realizes_of_embedded {c : Component (Device ℝ)} {o : Nat} {V : Dense (Amplitude ℝ)}
    {P : Matrix (Fin m) (Fin m) ℂ} (hV : c.matrix = .ok V) (hsq : V.rows = V.cols)
    (hfit : o + V.rows ≤ m)
    (hP : ∀ i j : Fin m, (Dense.embedEntry o V i j).toComplex = P i j) :
    Realizes m [⟨o, c⟩] P := by
  refine ⟨Dense.embedded m o V, haveProduct_singleton ⟨V, hV, hsq, hfit, rfl⟩, ?_⟩
  funext i j
  exact hP i j

end Realizes

section Devices

variable {m : Nat}

theorem realizes_phase {o : Nat} (h : o < m) (phi : ℝ) :
    Realizes m [⟨o, Standard.phase phi⟩] (phaseMatrix m o (exp (phi * I))) := by
  have hV : (Standard.phase phi).matrix = .ok ⟨1, 1, #[Amplitude.cis phi]⟩ := by
    rw [Standard.phase, Component.matrix]
    rfl
  refine realizes_of_embedded hV rfl h fun i j => ?_
  rw [Dense.embedEntry_eq, phaseMatrix]
  by_cases hio : i.val = o
  · by_cases hij : i = j
    · subst hij
      rw [if_pos ⟨⟨by omega, by simp; omega⟩, by omega, by simp; omega⟩, if_pos rfl, if_pos hio]
      simp only [hio, Nat.sub_self]
      exact Amplitude.toComplex_cis phi
    · have hne : j.val ≠ o := fun h => hij (Fin.ext (hio.trans h.symm))
      rw [if_neg (by simp; omega), if_neg (fun h => hij (Fin.ext h)), if_neg hij]
      rfl
  · rw [if_neg (by simp; omega)]
    by_cases hij : i = j
    · rw [if_pos (by rw [hij]), if_pos hij, if_neg hio]
      rfl
    · rw [if_neg (fun h => hij (Fin.ext h)), if_neg hij]
      rfl

theorem realizes_pair {c : Component (Device ℝ)} {o : Nat} {x y z w : Amplitude ℝ}
    (hc : c.matrix = .ok ⟨2, 2, #[x, y, z, w]⟩) (h : o + 2 ≤ m) :
    Realizes m [⟨o, c⟩]
      (pairMatrix m o !![x.toComplex, y.toComplex; z.toComplex, w.toComplex]) := by
  refine realizes_of_embedded hc rfl h fun i j => ?_
  rw [Dense.embedEntry_eq, pairMatrix]
  by_cases hin : (o ≤ i.val ∧ i.val < o + 2) ∧ o ≤ j.val ∧ j.val < o + 2
  · rw [if_pos hin]
    have hi : i.val = o ∨ i.val = o + 1 := by omega
    have hj : j.val = o ∨ j.val = o + 1 := by omega
    rcases hi with hi | hi <;> rcases hj with hj | hj <;>
      simp [hi, hj, Dense.get]
  · have h₀₀ : ¬ (i.val = o ∧ j.val = o) := by omega
    have h₀₁ : ¬ (i.val = o ∧ j.val = o + 1) := by omega
    have h₁₀ : ¬ (i.val = o + 1 ∧ j.val = o) := by omega
    have h₁₁ : ¬ (i.val = o + 1 ∧ j.val = o + 1) := by omega
    rw [if_neg hin, if_neg h₀₀, if_neg h₀₁, if_neg h₁₀, if_neg h₁₁]
    by_cases hij : i = j
    · rw [if_pos (by rw [hij]), if_pos hij]
      rfl
    · rw [if_neg (fun h => hij (Fin.ext h)), if_neg hij]
      rfl

theorem realizes_splitter {o : Nat} (h : o + 2 ≤ m) (convention : Convention) (theta : ℝ)
    (hknown : ∀ number, convention ≠ .unknown number) :
    Realizes m [⟨o, Standard.splitter convention theta⟩]
      (pairMatrix m o (splitterMatrix convention theta)) := by
  cases convention with
  | rx =>
    have := realizes_pair (c := Standard.splitter .rx theta) rfl h
    simpa [splitterMatrix, Phases.none] using this
  | ry =>
    have := realizes_pair (c := Standard.splitter .ry theta) rfl h
    simpa [splitterMatrix, Phases.none] using this
  | h =>
    have := realizes_pair (c := Standard.splitter .h theta) rfl h
    simpa [splitterMatrix, Phases.none] using this
  | unknown number => exact absurd rfl (hknown number)

end Devices

namespace Standard

section Assembling

variable {R : Type} [Quantity R]

def entriesOf (parts : List (Piece R)) : List (Entry (Component (Device R))) :=
  parts.map fun part => ⟨part.1, part.2⟩

theorem addAll_eq_ok {net built : Network (Device R)} {parts : List (Piece R)}
    (h : net.addAll parts = .ok built) :
    built = { net with entries := net.entries ++ entriesOf parts } := by
  induction parts generalizing net with
  | nil =>
    obtain rfl := Except.ok.inj h
    simp [entriesOf]
  | cons part rest ih =>
    unfold Network.addAll at h
    rw [List.foldlM_cons] at h
    obtain ⟨next, hnext, h⟩ := bind_eq_ok h
    unfold Network.add at hnext
    simp only at hnext
    split at hnext
    · cases hnext
    · obtain rfl := Except.ok.inj hnext
      rw [ih h]
      simp [Network.append, entriesOf]

theorem assemble_eq_ok {width : Nat} {name : String} {parts : List (Piece R)}
    {built : Network (Device R)} (h : assemble width name parts = .ok built) :
    built = ⟨name, width, entriesOf parts⟩ := by
  unfold assemble at h
  obtain ⟨net, hnet, h⟩ := bind_eq_ok h
  unfold Network.empty at hnet
  split at hnet
  · cases hnet
  · obtain rfl := Except.ok.inj hnet
    exact addAll_eq_ok h

theorem addAll_of_fits {net : Network (Device R)} {parts : List (Piece R)}
    (h : ∀ part ∈ parts, part.1 + part.2.width ≤ net.width) :
    net.addAll parts = .ok { net with entries := net.entries ++ entriesOf parts } := by
  induction parts generalizing net with
  | nil => simp [Network.addAll, entriesOf, pure, Except.pure]
  | cons part rest ih =>
    obtain ⟨hfit, hrest⟩ := List.forall_mem_cons.mp h
    unfold Network.addAll at ih ⊢
    rw [List.foldlM_cons, Network.add_of_fits hfit, ok_bind]
    refine Eq.trans (ih ?_) ?_
    · exact hrest
    · simp [Network.append, entriesOf]

theorem assemble_of_fits {width : Nat} (name : String) {parts : List (Piece R)} (hpos : 0 < width)
    (h : ∀ part ∈ parts, part.1 + part.2.width ≤ width) :
    assemble width name parts = .ok ⟨name, width, entriesOf parts⟩ := by
  have hempty : (Network.empty (width : Int) name : Except Failure (Network (Device R))) =
      .ok ⟨name, width, []⟩ := by
    rw [Network.empty, if_neg (by omega)]
    rfl
  rw [assemble, hempty, ok_bind, addAll_of_fits h]
  rfl

def qubitFragment (kind : String) (parts : List (Piece R)) : Fragment (Device R) R :=
  { circuit := some ⟨kind, 2, entriesOf parts⟩, qubitOffsets := [0], ancillas := [],
    heralded := false, postSelect := false, success := 1 }

theorem onQubit_eq_ok {kind : String} {layout : List R → Except Failure (List (Piece R))}
    {req : Request R} {f : Fragment (Device R) R} (h : onQubit kind layout req = .ok f) :
    ∃ parts, layout req.params = .ok parts ∧ f = qubitFragment kind parts := by
  unfold onQubit at h
  obtain ⟨parts, hparts, h⟩ := bind_eq_ok h
  obtain ⟨built, hbuilt, h⟩ := bind_eq_ok h
  obtain rfl := Except.ok.inj h
  rw [assemble_eq_ok hbuilt]
  exact ⟨parts, hparts, rfl⟩

end Assembling

section Qubit

theorem phaseMatrix_zero (z : ℂ) : phaseMatrix 2 0 z = !![z, 0; 0, 1] := by
  funext i j
  fin_cases i <;> fin_cases j <;> simp [phaseMatrix]

theorem phaseMatrix_one (z : ℂ) : phaseMatrix 2 1 z = !![1, 0; 0, z] := by
  funext i j
  fin_cases i <;> fin_cases j <;> simp [phaseMatrix]

theorem realizes_balanced {m o : Nat} (h : o + 2 ≤ m) :
    Realizes m [⟨o, balanced⟩] (pairMatrix m o ((1 / Real.sqrt 2 : ℂ) • !![1, 1; 1, -1])) := by
  have hs := realizes_splitter h .h (Real.pi / 2) (by simp)
  have hmatrix : splitterMatrix .h (Real.pi / 2) = (1 / Real.sqrt 2 : ℂ) • !![1, 1; 1, -1] := by
    have hangle : Real.pi / 2 / 2 = Real.pi / 4 := by ring
    have hroot : ((Real.sqrt 2 / 2 : ℝ) : ℂ) = 1 / Real.sqrt 2 := by
      rw [← Complex.ofReal_one, ← Complex.ofReal_div, Real.sqrt_div_self']
    simp only [splitterMatrix, hangle, Real.cos_pi_div_four, Real.sin_pi_div_four, hroot]
    funext i j
    fin_cases i <;> fin_cases j <;> simp
  rwa [hmatrix] at hs

theorem realizes_perm {m : Nat} {p : Permutation} (hm : Dense.Storable m) (h : p.width ≤ m) :
    Realizes m [⟨0, .perm p⟩] fun i j => if p.apply j = i then 1 else 0 := by
  have hraise : ∀ j, (p.raise 0 0).apply j = p.apply j := by
    intro j
    rw [Permutation.raise_apply]
    split
    · simp
    · rename_i hj
      exact (Permutation.apply_of_le (by omega)).symm
  refine ⟨_, haveProduct_singleton (hasMatrix_perm hm p (by omega)), ?_⟩
  funext i j
  change Amplitude.toComplex (if (p.raise 0 0).apply j = i then 1 else 0) = _
  rw [hraise]
  by_cases hij : p.apply j = i
  · rw [if_pos hij, if_pos hij]
    rfl
  · rw [if_neg hij, if_neg hij]
    rfl

theorem realizes_rewire {c : Component (Device ℝ)} (h : rewire [1, 0] = .ok c) :
    Realizes 2 [⟨0, c⟩] !![0, 1; 1, 0] := by
  obtain ⟨p, hp, himages⟩ : ∃ p, rewire (R := ℝ) [1, 0] = .ok (.perm p) ∧ p.images = #[1, 0] :=
    ⟨_, rfl, rfl⟩
  obtain rfl := Except.ok.inj (h.symm.trans hp)
  have hx : (fun i j => if p.apply j = i then 1 else 0 : Matrix (Fin 2) (Fin 2) ℂ) =
      !![0, 1; 1, 0] := by
    funext i j
    fin_cases i <;> fin_cases j <;> simp [Permutation.apply, himages]
  rw [← hx]
  exact realizes_perm (by decide) (by simp [Permutation.width, himages])

def LaysMatrix (layout : List ℝ → Except Failure (List (Piece ℝ))) (params : List ℝ)
    (A : Matrix (Fin 2) (Fin 2) ℂ) : Prop :=
  ∀ parts, layout params = .ok parts → Realizes 2 (entriesOf parts) A

theorem noParts_matrix : LaysMatrix noParts [] 1 := by
  intro parts h
  obtain rfl := Except.ok.inj h
  exact realizes_nil

theorem hadamardParts_matrix :
    LaysMatrix hadamardParts [] ((1 / Real.sqrt 2 : ℂ) • !![1, 1; 1, -1]) := by
  intro parts h
  obtain rfl := Except.ok.inj h
  have hb := realizes_balanced (m := 2) (o := 0) (Nat.le_refl _)
  rwa [pairMatrix_two] at hb

theorem xParts_matrix : LaysMatrix xParts [] !![0, 1; 1, 0] := by
  intro parts h
  obtain ⟨c, hc, h⟩ := bind_eq_ok h
  obtain rfl := Except.ok.inj h
  exact realizes_rewire hc

theorem phaseOnOne_matrix (phi : List ℝ → ℝ) (params : List ℝ) {z : ℂ}
    (hz : exp (phi params * I) = z) : LaysMatrix (phaseOnOne phi) params !![1, 0; 0, z] := by
  intro parts h
  obtain rfl := Except.ok.inj h
  have hp := realizes_phase (m := 2) (o := 1) (by omega) (phi params)
  rwa [phaseMatrix_one, hz] at hp

theorem realizes_phases (a b : ℝ) :
    Realizes 2 [⟨0, phase a⟩, ⟨1, phase b⟩] !![exp (a * I), 0; 0, exp (b * I)] := by
  have ha := realizes_phase (m := 2) (o := 0) (by omega) a
  have hb := realizes_phase (m := 2) (o := 1) (by omega) b
  rw [phaseMatrix_zero] at ha
  rw [phaseMatrix_one] at hb
  have hab := ha.cons hb
  rw [Matrix.mul_fin_two] at hab
  simpa using hab

theorem rzParts_matrix (a : ℝ) :
    LaysMatrix rzParts [a] !![exp (-(a / 2) * I), 0; 0, exp (a / 2 * I)] := by
  intro parts h
  obtain rfl := Except.ok.inj h
  have hp := realizes_phases (-a / num 2) (a / num 2)
  have hneg : exp ((-a / num 2 : ℝ) * I) = exp (-(a / 2) * I) := by simp [num, neg_div]
  have hpos : exp ((a / num 2 : ℝ) * I) = exp (a / 2 * I) := by simp [num]
  rw [hneg, hpos] at hp
  exact hp

theorem realizes_splitter_two (convention : Convention) (theta : ℝ)
    (hknown : ∀ number, convention ≠ .unknown number) :
    Realizes 2 [⟨0, splitter convention theta⟩] (splitterMatrix convention theta) := by
  have hs := realizes_splitter (m := 2) (o := 0) (Nat.le_refl _) convention theta hknown
  rwa [pairMatrix_two] at hs

theorem rxParts_matrix (a : ℝ) :
    LaysMatrix rxParts [a]
      !![cos (a / 2), -I * sin (a / 2); -I * sin (a / 2), cos (a / 2)] := by
  intro parts h
  obtain rfl := Except.ok.inj h
  have hs := realizes_splitter_two .rx (-a) (by simp)
  have hA : splitterMatrix .rx (-a) =
      !![cos (a / 2), -I * sin (a / 2); -I * sin (a / 2), cos (a / 2)] := by
    simp [splitterMatrix, neg_div]
  rw [hA] at hs
  exact hs

theorem ryParts_matrix (a : ℝ) :
    LaysMatrix ryParts [a] !![cos (a / 2), -sin (a / 2); sin (a / 2), cos (a / 2)] := by
  intro parts h
  obtain rfl := Except.ok.inj h
  have hs := realizes_splitter_two .ry a (by simp)
  have hA : splitterMatrix .ry a = !![cos (a / 2), -sin (a / 2); sin (a / 2), cos (a / 2)] := by
    simp [splitterMatrix]
  rw [hA] at hs
  exact hs

theorem exp_half_pi : exp ((Real.pi / num 2 : ℝ) * I) = I := by
  simp [num, Complex.exp_pi_div_two_mul_I]

theorem exp_neg_half_pi : exp ((-Real.pi / num 2 : ℝ) * I) = -I := by
  have hangle : ((-Real.pi / num 2 : ℝ) : ℂ) = -Real.pi / 2 := by simp [num]
  rw [hangle, Complex.exp_neg_pi_div_two_mul_I]

theorem exp_quarter_pi :
    exp ((Real.pi / num 4 : ℝ) * I) = (Real.sqrt 2 / 2 : ℝ) * (1 + I) := by
  have hangle : (Real.pi / num 4 : ℝ) = Real.pi / 4 := by simp [num]
  rw [hangle, Complex.exp_mul_I, ← Complex.ofReal_cos, ← Complex.ofReal_sin,
    Real.cos_pi_div_four, Real.sin_pi_div_four]
  ring

theorem yParts_matrix : LaysMatrix yParts [] !![0, -I; I, 0] := by
  intro parts h
  obtain ⟨c, hc, h⟩ := bind_eq_ok h
  obtain rfl := Except.ok.inj h
  have hp := realizes_phases (-Real.pi / num 2) (Real.pi / num 2)
  rw [exp_half_pi, exp_neg_half_pi] at hp
  have hy := (realizes_rewire hc).cons hp
  have hprod : !![-I, 0; 0, I] * !![0, 1; 1, 0] = !![0, -I; I, 0] := by
    simp
  rw [hprod] at hy
  exact hy

theorem sxParts_matrix :
    LaysMatrix sxParts [] ((1 / 2 : ℂ) • !![1 + I, 1 - I; 1 - I, 1 + I]) := by
  intro parts h
  obtain rfl := Except.ok.inj h
  have hs := realizes_splitter_two .rx (-Real.pi / num 2) (by simp)
  have hp := hs.cons (realizes_phases (Real.pi / num 4) (Real.pi / num 4))
  have hsx : !![exp ((Real.pi / num 4 : ℝ) * I), 0; 0, exp ((Real.pi / num 4 : ℝ) * I)] *
      splitterMatrix .rx (-Real.pi / num 2) = (1 / 2 : ℂ) • !![1 + I, 1 - I; 1 - I, 1 + I] := by
    have hangle : (-Real.pi / num 2 : ℝ) / 2 = -(Real.pi / 4) := by
      simp only [num, real_ofNat, Nat.cast_ofNat]
      ring
    have hroot : ((Real.sqrt 2 / 2 : ℝ) : ℂ) * (Real.sqrt 2 / 2 : ℝ) = 1 / 2 := by
      rw [← Complex.ofReal_mul, div_mul_div_comm, Real.mul_self_sqrt (by norm_num)]
      norm_num
    have hcorner : ((Real.sqrt 2 / 2 : ℝ) : ℂ) * (1 + I) * (I * -(Real.sqrt 2 / 2 : ℝ)) =
        1 / 2 * (1 - I) := by
      linear_combination (1 - I) * hroot -
        ((Real.sqrt 2 / 2 : ℝ) : ℂ) * (Real.sqrt 2 / 2 : ℝ) * Complex.I_mul_I
    have hdiag : ((Real.sqrt 2 / 2 : ℝ) : ℂ) * (1 + I) * (Real.sqrt 2 / 2 : ℝ) =
        1 / 2 * (1 + I) := by
      linear_combination (1 + I) * hroot
    simp only [splitterMatrix, hangle, exp_quarter_pi, Real.cos_neg, Real.sin_neg,
      Real.cos_pi_div_four, Real.sin_pi_div_four, Complex.ofReal_neg, Matrix.mul_fin_two,
      zero_mul, add_zero, zero_add, hcorner, hdiag]
    funext i j
    fin_cases i <;> fin_cases j <;> rfl
  rw [hsx] at hp
  exact hp

theorem genericParts_matrix (a b c : ℝ) :
    LaysMatrix genericParts [a, b, c]
      !![cos (a / 2), -exp (c * I) * sin (a / 2);
        exp (b * I) * sin (a / 2), exp ((b + c) * I) * cos (a / 2)] := by
  intro parts h
  obtain ⟨V, hV, h⟩ := bind_eq_ok h
  obtain ⟨d, hd, h⟩ := bind_eq_ok h
  obtain rfl := Except.ok.inj h
  have hdev : d = .unitary "U" V := by
    unfold Device.ofMatrix at hd
    obtain ⟨unitary, _, hd⟩ := bind_eq_ok hd
    cases unitary with
    | true => exact (Except.ok.inj hd).symm
    | false => cases hd
  have hrows : Dense.ofRows (genericRows a b c) = .ok ⟨2, 2,
      #[.ofReal (Real.cos (a / num 2)), (Amplitude.cis c).neg * .ofReal (Real.sin (a / num 2)),
        Amplitude.cis b * .ofReal (Real.sin (a / num 2)),
        Amplitude.cis (b + c) * .ofReal (Real.cos (a / num 2))]⟩ := rfl
  obtain rfl := Except.ok.inj (hV.symm.trans hrows)
  have hp := realizes_pair (m := 2) (o := 0) (c := .device d) (by rw [hdev]; rfl) (Nat.le_refl _)
  rw [pairMatrix_two] at hp
  have hhalf : ((a / num 2 : ℝ) : ℂ) = a / 2 := by simp [num]
  simp only [Amplitude.toComplex_mul, Amplitude.toComplex_neg, Amplitude.toComplex_cis,
    Amplitude.toComplex_ofReal, Complex.ofReal_cos, Complex.ofReal_sin, Complex.ofReal_add,
    hhalf] at hp
  exact hp

end Qubit

end Standard

end DualRail
