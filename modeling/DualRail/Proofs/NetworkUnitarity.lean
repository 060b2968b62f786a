import DualRail.Proofs.CircuitNorm
import DualRail.Proofs.Nesting
import DualRail.Proofs.StandardCompilation

/-!
Unitary networks. Over scalars with a conjugation the unitary matrices form a group that placing a
block does not leave, so a network of unitary devices is unitary at every depth. Rewirings are
unitary by themselves; what the compiler adds to the circuits of the fragments are rewirings, so a
compiled network is unitary as soon as the devices of the fragments are.
-/

namespace DualRail

namespace Dense

/-- The matrix is square of the given size, and its product with its adjoint is the identity. -/
structure Unitary {K : Type} [Scalar K] (V : Dense K) (w : Nat) : Prop where
  square : V.IsSquare w
  mul_adjoint : V.mul V.adjoint = identity w

variable {K : Type} {V : Dense K} {m w offset : Nat}

section Exact

variable [ExactScalar K]

theorem mul_of_storable {a b : Dense K} (h : Storable w) (ha : a.IsSquare w) (hb : b.IsSquare w) :
    a.mul b = .ok (ofMatrix (a.toMatrix w w * b.toMatrix w w)) := by
  obtain ⟨harows, hacols⟩ := ha
  obtain ⟨hbrows, hbcols⟩ := hb
  have hproduct : build w w (productEntry a b) = ofMatrix (a.toMatrix w w * b.toMatrix w w) := by
    refine build_eq_ofMatrix fun i j => ?_
    rw [productEntry_eq_sum, hacols, Finset.sum_range, Matrix.mul_apply]
    rfl
  rw [mul, if_neg (not_not.mpr (hacols.trans hbrows.symm)), harows, hbcols, h.reserve]
  exact congrArg Except.ok hproduct

theorem embedded_eq_placing (hV : V.rows = w) (hfit : offset + w ≤ m) :
    embedded m offset V = placing hfit (V.toMatrix w w) := by
  subst hV
  funext i j
  rw [placing_apply, embedded, embedded, embedEntry_eq, embedEntry_eq, rows_ofMatrix]
  by_cases hin : (offset ≤ i.val ∧ i.val < offset + V.rows) ∧
      offset ≤ j.val ∧ j.val < offset + V.rows
  · rw [if_pos hin, if_pos hin]
    exact (get_ofMatrix (V.toMatrix V.rows V.rows) ⟨i - offset, by omega⟩
      ⟨j - offset, by omega⟩).symm
  · rw [if_neg hin, if_neg hin]

end Exact

variable [ConjugateScalar K]

theorem toMatrix_adjoint (hV : V.IsSquare w) :
    V.adjoint.toMatrix w w = (V.toMatrix w w).conjTranspose := by
  obtain ⟨hrows, hcols⟩ := hV
  funext i j
  have hget : V.adjoint.get i j = Scalar.conj (V.get j i) :=
    get_build (by rw [hcols]; exact i.isLt) (by rw [hrows]; exact j.isLt)
  exact hget.trans (ConjugateScalar.conj_eq_star _)

/-- With room for it, a stored matrix is unitary exactly if it is a member of the unitary group. -/
theorem unitary_iff (h : Storable w) (hV : V.IsSquare w) :
    V.Unitary w ↔ V.toMatrix w w ∈ Matrix.unitaryGroup (Fin w) K := by
  have hadjoint : V.adjoint.IsSquare w := ⟨hV.2, hV.1⟩
  have hproduct := mul_of_storable h hV hadjoint
  rw [toMatrix_adjoint hV] at hproduct
  rw [Matrix.mem_unitaryGroup_iff, Matrix.star_eq_conjTranspose]
  constructor
  · intro hU
    have hone := hproduct.symm.trans (hU.mul_adjoint.trans (identity_of_storable h))
    exact ofMatrix_injective (Except.ok.inj hone)
  · intro hone
    refine ⟨hV, ?_⟩
    rw [hproduct, hone, identity_of_storable h]

theorem unitary_ofMatrix (h : Storable w) {A : Matrix (Fin w) (Fin w) K}
    (hA : A ∈ Matrix.unitaryGroup (Fin w) K) : (ofMatrix A).Unitary w := by
  rw [unitary_iff h ⟨rfl, rfl⟩, toMatrix_ofMatrix]
  exact hA

theorem Unitary.embedded_mem (hV : V.Unitary w) (h : Storable m) (hfit : offset + w ≤ m) :
    embedded m offset V ∈ Matrix.unitaryGroup (Fin m) K := by
  rw [embedded_eq_placing hV.square.1 hfit]
  refine placing_mem_unitaryGroup hfit ?_
  rcases Nat.eq_zero_or_pos w with rfl | hw
  · rw [Matrix.mem_unitaryGroup_iff]
    exact Subsingleton.elim _ _
  · exact (unitary_iff (h.mono hw (by omega)) hV.square).mp hV

end Dense

theorem conjTranspose_modeMatrix {K : Type} [ConjugateScalar K] {m : Nat} (p : Permutation) :
    (modeMatrix m p.apply : Matrix (Fin m) (Fin m) K).conjTranspose =
      modeMatrix m p.inverse.apply := by
  funext i j
  have hback : p.apply i = j ↔ p.inverse.apply j = i := by
    constructor
    · intro h
      rw [← h, p.inverse_apply_apply]
    · intro h
      rw [← h, p.apply_inverse_apply]
  rw [Matrix.conjTranspose_apply, modeMatrix, modeMatrix]
  simp only [hback]
  split
  · exact star_one K
  · exact star_zero K

theorem modeMatrix_mem_unitaryGroup {K : Type} [ConjugateScalar K] {m : Nat} (p : Permutation)
    (hp : p.width ≤ m) :
    (modeMatrix m p.apply : Matrix (Fin m) (Fin m) K) ∈ Matrix.unitaryGroup (Fin m) K := by
  have hlt : ∀ j, j < m → p.inverse.apply j < m := by
    intro j hj
    by_cases hin : j < p.width
    · have := Permutation.apply_lt (p := p.inverse) (i := j) (by rwa [p.width_inverse])
      rw [p.width_inverse] at this
      omega
    · rw [Permutation.apply_of_le (by rw [p.width_inverse]; omega)]
      exact hj
  rw [Matrix.mem_unitaryGroup_iff, Matrix.star_eq_conjTranspose, conjTranspose_modeMatrix,
    modeMatrix_mul_modeMatrix hlt,
    modeMatrix_congr fun j _ => p.apply_inverse_apply j, modeMatrix_id]

theorem Permutation.unitary_matrix {K : Type} [ConjugateScalar K] (p : Permutation)
    (h : Dense.Storable p.width) : (p.matrix : Dense K).Unitary p.width := by
  rw [matrix_eq_ofMatrix]
  exact Dense.unitary_ofMatrix h (modeMatrix_mem_unitaryGroup p (Nat.le_refl _))

section Networks

variable {α K : Type} [Element α] [Transfer α K]

/-- The device has a unitary matrix of its own width. -/
def MatrixUnitary (K : Type) [Scalar K] [Transfer α K] (d : α) : Prop :=
  ∃ V : Dense K, Transfer.matrix d = .ok V ∧ V.Unitary (Element.width d)

variable [ConjugateScalar K]

/-- A component within a width that can be stored has a matrix, and it is unitary. -/
theorem Component.Within.exists_unitary {c : Component α} (h : c.Within) (hmodes : c.HasModes)
    (hdevices : c.EachDevice (MatrixUnitary K)) {m : Nat} (hm : Dense.Storable m)
    (hw : c.width ≤ m) :
    ∃ V : Dense K, c.matrix = .ok V ∧ V.Unitary c.width := by
  induction h generalizing m with
  | device d =>
    rw [Component.matrix]
    exact hdevices d (.here _)
  | perm p =>
    rw [Component.matrix]
    have hs : Dense.Storable p.width := hm.mono p.width_pos hw
    exact ⟨p.matrix, Permutation.storedMatrix_of_storable hs, p.unitary_matrix hs⟩
  | @net name width entries hfits hitems ih =>
    obtain ⟨hpos, hmodes⟩ := hasModes_net.mp hmodes
    have hs := hm.mono hpos hw
    have hentry : ∀ e ∈ entries, ∃ A : Matrix (Fin width) (Fin width) K,
        A ∈ Matrix.unitaryGroup (Fin width) K ∧ e.HasMatrix width A := by
      intro e he
      have hfit : e.offset + e.item.width ≤ width := hfits e he
      obtain ⟨V, hV, hU⟩ := ih e he (hmodes e he) (eachDevice_net.mp hdevices e he) hs (by omega)
      obtain ⟨hrows, hcols⟩ := hU.square
      exact ⟨_, hU.embedded_mem hs hfit, V, hV, hrows.trans hcols.symm, by rwa [hrows], rfl⟩
    obtain ⟨As, hAs⟩ := exists_forall₂ hentry
    have hunitary : ∀ A ∈ As, A ∈ Matrix.unitaryGroup (Fin width) K :=
      ((List.forall₂_and_left _ _).mp hAs.flip).1
    refine ⟨_, matrix_net_of_hasMatrix hs (hAs.imp fun _ _ hA => hA.2),
      Dense.unitary_ofMatrix hs (Submonoid.list_prod_mem _ fun A hA => ?_)⟩
    exact hunitary A (List.mem_reverse.mp hA)

theorem within_of_matrix {c : Component α} (hdevices : c.EachDevice (MatrixUnitary K)) {V : Dense K}
    (h : c.matrix = .ok V) : (c.Within ∧ c.HasModes) ∧ V.IsSquare c.width := by
  induction c using Component.induction generalizing V with
  | device d =>
    rw [Component.matrix] at h
    obtain ⟨V', hV', hU⟩ := hdevices d (.here _)
    obtain rfl := Except.ok.inj (h.symm.trans hV')
    refine ⟨⟨.device d, ?_⟩, hU.square⟩
    intro n hn
    cases hn
  | perm p =>
    rw [Component.matrix] at h
    obtain ⟨_, rfl⟩ := Permutation.storedMatrix_eq_ok h
    refine ⟨⟨.perm p, ?_⟩, rfl, rfl⟩
    intro n hn
    cases hn
  | net name width entries ih =>
    obtain ⟨hs, Ms, hMs, rfl⟩ := hasMatrix_of_matrix_net h
    have hall : ∀ e ∈ entries, e.Fits width ∧ e.item.Within ∧ e.item.HasModes := by
      intro e he
      obtain ⟨_, V, hV, _, hfit, _⟩ := exists_of_forall₂ hMs he
      obtain ⟨hin, hrows, _⟩ := ih e he (eachDevice_net.mp hdevices e he) hV
      refine ⟨?_, hin⟩
      change e.offset + e.item.width ≤ width
      rwa [← hrows]
    exact ⟨⟨.net (fun e he => (hall e he).1) fun e he => (hall e he).2.1,
      hasModes_net.mpr ⟨hs.1, fun e he => (hall e he).2.2⟩⟩, rfl, rfl⟩

/-- Whatever matrix a network of unitary devices has, it is unitary. -/
theorem Network.unitary_of_matrix {n : Network α}
    (hdevices : n.toComponent.EachDevice (MatrixUnitary K)) {W : Dense K}
    (h : n.matrix = .ok W) : W.Unitary n.width := by
  obtain ⟨⟨hin, hmodes⟩, _⟩ := within_of_matrix hdevices h
  obtain ⟨W', hW', hU⟩ := hin.exists_unitary hmodes hdevices (hasMatrix_of_matrix_net h).1
    (Nat.le_refl _)
  obtain rfl := Except.ok.inj (h.symm.trans hW')
  exact hU

theorem Network.matrix_mul_adjoint {n : Network α}
    (hmatrix : Dense.Storable n.width → ∃ W : Dense K, n.matrix = .ok W)
    (hdevices : n.toComponent.EachDevice (MatrixUnitary K)) :
    (n.matrix >>= fun W : Dense K => W.mul W.adjoint) = Dense.identity n.width := by
  by_cases hs : Dense.Storable n.width
  · obtain ⟨W, hW⟩ := hmatrix hs
    rw [hW, ok_bind]
    exact (n.unitary_of_matrix hdevices hW).mul_adjoint
  · rw [n.matrix_of_not_storable hs (Dense.ofMatrix (1 : Matrix (Fin n.width) (Fin n.width) K))]
    cases hone : (Dense.identity n.width : Except Failure (Dense K)) with
    | ok one => exact absurd (Dense.storable_of_identity hone) hs
    | error f => rfl

end Networks

section Compiled

variable {α R : Type} {keep : Bool}

/-- The circuit belongs to a fragment that a gate of the program resolves to. -/
def Program.UsesCircuit [Quantity R] (s : Settings α R) (prog : Program R) (c : Network α) : Prop :=
  ∃ g ∈ prog.gates, ∃ f, GoodGate s prog.qubits.toNat g f ∧ f.circuit = some c

theorem not_reaches_of_mem_permutationEntries {p : Permutation} {e : Entry (Component α)}
    (he : e ∈ permutationEntries keep p) (d : α) : ¬ e.item.Reaches (.device d) := by
  unfold permutationEntries at he
  split at he
  · cases he
  · obtain rfl := List.mem_singleton.mp he
    intro hd
    cases hd

theorem not_reaches_of_mem_foldedEntries {p : Permutation} {e : Entry (Component α)}
    (he : e ∈ foldedEntries keep p) (d : α) : ¬ e.item.Reaches (.device d) := by
  unfold foldedEntries at he
  split at he
  · exact not_reaches_of_mem_permutationEntries he d
  · obtain rfl := List.mem_singleton.mp he
    intro hd
    cases hd

/-- The devices of a placement are those of its circuit: what is added are rewirings. -/
theorem Placement.Emits.reaches_device {p : Placement α R} {entries : List (Entry (Component α))}
    (h : p.Emits keep entries) {e : Entry (Component α)} (he : e ∈ entries) {d : α}
    (hd : e.item.Reaches (.device d)) : p.circuit.toComponent.Reaches (.device d) := by
  cases h with
  | direct _ _ =>
    obtain rfl := List.mem_singleton.mp he
    exact hd
  | folded _ _ _ _ => exact absurd hd (not_reaches_of_mem_foldedEntries he d)
  | routed _ =>
    rcases List.mem_append.mp he with he | he
    · rcases List.mem_append.mp he with he | he
      · exact absurd hd (not_reaches_of_mem_permutationEntries he d)
      · obtain rfl := List.mem_singleton.mp he
        exact hd
    · exact absurd hd (not_reaches_of_mem_permutationEntries he d)

theorem reaches_device_of_mem_flatten {ps : List (Placement α R)}
    {ess : List (List (Entry (Component α)))} (h : List.Forall₂ (Placement.Emits keep) ps ess)
    {e : Entry (Component α)} (he : e ∈ ess.flatten) {d : α}
    (hd : e.item.Reaches (.device d)) :
    ∃ p ∈ ps, p.circuit.toComponent.Reaches (.device d) := by
  induction h with
  | nil => cases he
  | @cons p es ps ess hemit _ ih =>
    rw [List.flatten_cons, List.mem_append] at he
    rcases he with he | he
    · exact ⟨p, List.mem_cons_self, hemit.reaches_device he hd⟩
    · obtain ⟨q, hq, hreach⟩ := ih he
      exact ⟨q, List.mem_cons_of_mem _ hq, hreach⟩

variable [Quantity R] {s : Settings α R} {n base : Nat}

theorem LaysOut.usesCircuit {prog : Program R} {ps : List (Placement α R)}
    (hn : prog.qubits = n) (h : LaysOut s n base prog.gates ps) :
    ∀ p ∈ ps, prog.UsesCircuit s p.circuit := by
  intro p hp
  obtain ⟨g, hg, _, hlay⟩ := h.exists_lays p hp
  refine ⟨g, hg, p.fragment, ?_, hlay.circuit⟩
  rw [hn, Int.toNat_natCast]
  exact hlay.good

theorem Placement.Sound.width_le_stop {p : Placement α R} (hp : p.Sound n) :
    p.circuit.width ≤ p.stop := by
  have hsub : p.block ⊆ List.range p.stop := fun x hx => List.mem_range.mpr (hp.block_lt x hx)
  have hlen := (List.subperm_of_subset hp.block_nodup hsub).length_le
  rwa [List.length_range, hp.length_block] at hlen

end Compiled

/-- Networks stay unitary. The matrix of a network whose entries lie within it at every depth and
whose devices are unitary, times its adjoint, is the identity; there is no such matrix only where
the identity cannot be stored. A compiled network is unitary if the devices in the circuits of the
fragments are: whatever matrix it has is unitary, and it has one if the circuits keep their entries
within them. -/
theorem network_stays_unitary {α R K : Type} [Element α] [Quantity R] [Transfer α K]
    [ConjugateScalar K] :
    (∀ n : Network α, n.toComponent.Within → n.toComponent.HasModes →
      n.toComponent.EachDevice (MatrixUnitary K) →
      (n.matrix >>= fun W : Dense K => W.mul W.adjoint) = Dense.identity n.width) ∧
    ∀ (s : Settings α R) (prog : Program R) (proc : Processor α R), s.registry.Built →
      compile s (some prog) = .ok proc →
      (∀ c, prog.UsesCircuit s c → c.toComponent.EachDevice (MatrixUnitary K)) →
      ∃ net : Network α, proc.network = some net ∧
        (∀ W : Dense K, net.matrix = .ok W → W.Unitary net.width) ∧
        ((∀ c, prog.UsesCircuit s c → c.toComponent.Within ∧ c.toComponent.HasModes) →
          (net.matrix >>= fun W : Dense K => W.mul W.adjoint) = Dense.identity net.width) := by
  refine ⟨fun n hin hmodes hdevices => ?_, fun s prog proc hr hproc hunitary => ?_⟩
  · refine n.matrix_mul_adjoint (fun hs => ?_) hdevices
    obtain ⟨W, hW, _⟩ := hin.exists_unitary hmodes hdevices hs (Nat.le_refl _)
    exact ⟨W, hW⟩
  · obtain ⟨n, ps, ess, hn, _, _, hps, _, hess, rfl⟩ := compile_eq_ok hr hproc
    have hused := hps.usesCircuit hn
    have hdevices : (Network.mk (networkName prog.name) (endOf (2 * n) ps)
        ess.flatten).toComponent.EachDevice (MatrixUnitary K) := by
      refine eachDevice_net.mpr fun e he d hd => ?_
      obtain ⟨p, hp, hreach⟩ := reaches_device_of_mem_flatten hess he hd
      exact hunitary p.circuit (hused p hp) d hreach
    refine ⟨_, rfl, fun W hW => Network.unitary_of_matrix hdevices hW, fun hcircuits => ?_⟩
    refine Network.matrix_mul_adjoint (fun hs => ?_) hdevices
    have hsound := hps.sound hr (Nat.le_refl _)
    have hmatrices : ∀ p ∈ ps, ∃ V : Dense K, p.circuit.matrix = .ok V := by
      intro p hp
      obtain ⟨hin, hmodes⟩ := hcircuits p.circuit (hused p hp)
      obtain ⟨V, hV, _⟩ := hin.exists_unitary hmodes (hunitary p.circuit (hused p hp)) hs
        ((hsound p hp).width_le_stop.trans (hps.stop_le p hp))
      exact ⟨V, hV⟩
    obtain ⟨Vs, hVs⟩ := exists_forall₂ hmatrices
    have hmatrix : (Network.mk (networkName prog.name) (endOf (2 * n) ps) ess.flatten).matrix =
        (Dense.identity (endOf (2 * n) ps)).map fun _ : Dense K =>
          Dense.ofMatrix (gateMatrices (endOf (2 * n) ps) ps Vs).reverse.prod :=
      Network.matrix_of_haveProduct fun hm => haveProduct_flatten hm hsound hps.stop_le hess hVs
    rw [Dense.identity_of_storable hs] at hmatrix
    exact ⟨_, hmatrix⟩

noncomputable instance : ConjugateScalar (Amplitude ℝ) :=
  { (inferInstance : ExactScalar (Amplitude ℝ)) with
    star := Scalar.conj
    star_involutive := fun z => Amplitude.toComplex_injective (star_star z.toComplex)
    star_mul := fun z w => Amplitude.toComplex_injective (star_mul z.toComplex w.toComplex)
    star_add := fun z w => Amplitude.toComplex_injective (star_add z.toComplex w.toComplex)
    conj_eq_star := fun _ => rfl }

theorem mem_unitaryGroup_of_complex {n : Nat} {A : Matrix (Fin n) (Fin n) (Amplitude ℝ)}
    (hA : Amplitude.complexHom.mapMatrix A ∈ Matrix.unitaryGroup (Fin n) ℂ) :
    A ∈ Matrix.unitaryGroup (Fin n) (Amplitude ℝ) := by
  rw [Matrix.mem_unitaryGroup_iff] at hA ⊢
  have hcomplex : Amplitude.complexHom.mapMatrix (A * star A) =
      Amplitude.complexHom.mapMatrix 1 := by
    rw [map_mul, map_one, ← hA]
    rfl
  funext i j
  exact Amplitude.toComplex_injective (congrFun (congrFun hcomplex i) j)

theorem splitterMatrix_mem_unitaryGroup (convention : Convention) (theta : ℝ) :
    splitterMatrix convention theta ∈ Matrix.unitaryGroup (Fin 2) ℂ := by
  have hsquares := Real.cos_sq_add_sin_sq (theta / 2)
  have hneg : ‖(-1 : ℂ)‖ = 1 := by rw [norm_neg, norm_one]
  have hnegI : ‖-Complex.I‖ = 1 := by rw [norm_neg, Complex.norm_I]
  cases convention with
  | rx => simpa [splitterMatrix] using unitary_rotation hsquares Complex.norm_I hnegI
  | ry => simpa [splitterMatrix] using unitary_rotation hsquares norm_one norm_one
  | h => simpa [splitterMatrix] using unitary_rotation hsquares norm_one hneg
  | unknown number => exact one_mem _

theorem Dense.unitary_pair {x y z w : Amplitude ℝ}
    (h : !![x.toComplex, y.toComplex; z.toComplex, w.toComplex] ∈ Matrix.unitaryGroup (Fin 2) ℂ) :
    (⟨2, 2, #[x, y, z, w]⟩ : Dense (Amplitude ℝ)).Unitary 2 := by
  rw [Dense.unitary_iff (w := 2) (by decide) ⟨rfl, rfl⟩]
  refine mem_unitaryGroup_of_complex ?_
  convert h using 1
  ext i j
  fin_cases i <;> fin_cases j <;> rfl

theorem ports_mul (p : Phases ℝ) (B : Matrix (Fin 2) (Fin 2) ℂ) :
    !![Complex.exp (p.topRight * Complex.I), 0; 0, Complex.exp (p.bottomRight * Complex.I)] * B *
        !![Complex.exp (p.topLeft * Complex.I), 0; 0, Complex.exp (p.bottomLeft * Complex.I)] =
      !![Complex.exp ((p.topLeft + p.topRight : ℝ) * Complex.I) * B 0 0,
          Complex.exp ((p.topRight + p.bottomLeft : ℝ) * Complex.I) * B 0 1;
        Complex.exp ((p.topLeft + p.bottomRight : ℝ) * Complex.I) * B 1 0,
          Complex.exp ((p.bottomLeft + p.bottomRight : ℝ) * Complex.I) * B 1 1] := by
  rw [Matrix.eta_fin_two B, Matrix.mul_fin_two, Matrix.mul_fin_two]
  simp only [Complex.ofReal_add, add_mul, Complex.exp_add]
  ext i j
  fin_cases i <;> fin_cases j <;> simp <;> ring

theorem Device.exists_unitary_beamSplitter {convention : Convention}
    (hknown : ∀ number, convention ≠ .unknown number) (theta : ℝ) (p : Phases ℝ) :
    ∃ V, (Device.beamSplitter convention theta p).matrix = .ok V ∧ V.Unitary 2 := by
  have hunitary := mul_mem (mul_mem
    (unitary_diagonal (norm_phase p.topRight rfl) (norm_phase p.bottomRight rfl))
    (splitterMatrix_mem_unitaryGroup convention theta))
    (unitary_diagonal (norm_phase p.topLeft rfl) (norm_phase p.bottomLeft rfl))
  rw [ports_mul] at hunitary
  cases convention with
  | rx =>
    refine ⟨_, rfl, Dense.unitary_pair ?_⟩
    simpa [splitterMatrix, mul_assoc, mul_left_comm] using hunitary
  | ry =>
    refine ⟨_, rfl, Dense.unitary_pair ?_⟩
    simpa [splitterMatrix] using hunitary
  | h =>
    refine ⟨_, rfl, Dense.unitary_pair ?_⟩
    simpa [splitterMatrix] using hunitary
  | unknown number => exact absurd rfl (hknown number)

theorem Device.exists_unitary_splitter {convention : Convention}
    (hknown : ∀ number, convention ≠ .unknown number) (theta : ℝ) :
    ∃ V, (Device.splitter convention theta).matrix = .ok V ∧ V.Unitary 2 :=
  exists_unitary_beamSplitter hknown theta .none

theorem Device.exists_unitary_phaseShifter (phi : ℝ) :
    ∃ V, (Device.phaseShifter phi).matrix = .ok V ∧ V.Unitary 1 := by
  refine ⟨⟨1, 1, #[Amplitude.cis phi]⟩, rfl, ?_⟩
  rw [Dense.unitary_iff (w := 1) (by decide) ⟨rfl, rfl⟩]
  refine mem_unitaryGroup_of_complex (Matrix.mem_unitaryGroup_iff'.mpr ?_)
  have hphase : star (Amplitude.cis phi).toComplex * (Amplitude.cis phi).toComplex = 1 := by
    rw [Amplitude.toComplex_cis]
    exact star_mul_self_of_norm (norm_phase phi rfl)
  ext i j
  obtain rfl := Subsingleton.elim i 0
  obtain rfl := Subsingleton.elim j 0
  rw [Matrix.mul_apply, Fin.sum_univ_one, Matrix.one_apply_eq]
  exact hphase

namespace Standard

theorem proper_splitter (theta : ℝ) : (splitter .h theta).Proper (MatrixUnitary (Amplitude ℝ)) :=
  proper_device (Device.exists_unitary_splitter (by rintro _ ⟨⟩) theta)

theorem proper_cnotCircuit :
    (cnotCircuit : Network (Device ℝ)).toComponent.Proper (MatrixUnitary (Amplitude ℝ)) := by
  have hshifter : (phase (Real.pi : ℝ)).Proper (MatrixUnitary (Amplitude ℝ)) :=
    proper_device (Device.exists_unitary_phaseShifter _)
  refine proper_net.mpr ⟨by decide, fun e he => ?_⟩
  simp only [cnotCircuit, cnotParts, entriesOf, List.map_cons, List.map_nil, List.mem_cons,
    List.not_mem_nil, or_false] at he
  rcases he with rfl | rfl | rfl | rfl | rfl | rfl
  · exact ⟨by decide, proper_splitter _⟩
  · exact ⟨by decide, proper_splitter _⟩
  · exact ⟨by decide, proper_splitter _⟩
  · exact ⟨by decide, proper_splitter _⟩
  · exact ⟨by decide, hshifter⟩
  · exact ⟨by decide, proper_splitter _⟩

theorem build_of_goodGate {s : Settings (Device ℝ) ℝ} (hs : s.registry = registry) {n : Nat}
    {g : Gate ℝ} {f : Fragment (Device ℝ) ℝ} (hgood : GoodGate s n g f)
    {e : GateEntry (Device ℝ) ℝ} (he : e ∈ entries) (hname : g.kind = e.kind) {build : Builder ℝ}
    (hbuild : e.build = some build) : build ⟨s.heralded, g.params⟩ = .ok f := by
  obtain ⟨e', he', _, hf⟩ := hgood
  have hkind : canonicalName e.kind = e.kind := congrArg GateEntry.kind (canonical_of_mem he).1
  have hmem : canonicalName g.kind ∈ e.names := by
    rw [hname, hkind]
    exact List.mem_cons_self
  rw [hs] at he'
  obtain rfl := Option.some.inj (he'.symm.trans (find?_registry.mpr ⟨he, hmem⟩))
  rw [fragmentFor, hs, lookup_registry he] at hf
  obtain ⟨_, build', hbuild', hf, _⟩ := Registry.buildFragment_eq_ok.mp hf
  obtain rfl := Option.some.inj (hbuild.symm.trans hbuild')
  exact hf

theorem proper_of_usesCircuit {c : Network (Device ℝ)}
    (h : sampleProgram.UsesCircuit Settings.standard c) :
    c.toComponent.Proper (MatrixUnitary (Amplitude ℝ)) := by
  obtain ⟨g, hg, f, hgood, hc⟩ := h
  simp only [sampleProgram, List.mem_cons, List.not_mem_nil, or_false] at hg
  rcases hg with rfl | rfl | rfl
  · have hf := build_of_goodGate rfl hgood (e := single "h" [] 0 "Hadamard" hadamardParts)
      (by simp [entries]) rfl rfl
    obtain rfl := Except.ok.inj hf
    obtain rfl := Option.some.inj hc
    exact proper_net.mpr ⟨by decide, List.forall_mem_singleton.mpr
      ⟨by decide, proper_splitter _⟩⟩
  · have hf := build_of_goodGate rfl hgood (e := double "cx" ["cnot"] "controlled NOT" cnot)
      (by simp [entries]) rfl rfl
    obtain rfl := Except.ok.inj ((cnot_eq []).symm.trans hf)
    obtain rfl := Option.some.inj hc
    exact proper_cnotCircuit
  · have hf := build_of_goodGate rfl hgood (e := double "swap" [] "exchange two qubits" swap)
      (by simp [entries]) rfl rfl
    obtain ⟨p, hp, hswap⟩ := swap_eq (R := ℝ) ⟨false, []⟩
    obtain rfl := Except.ok.inj (hswap.symm.trans hf)
    obtain rfl := Option.some.inj hc
    have hwidth : p.width = 4 := congrArg Array.size hp
    refine proper_net.mpr ⟨four_pos, List.forall_mem_singleton.mpr ⟨?_, proper_perm p⟩⟩
    change 0 + p.width ≤ 4
    omega

end Standard

theorem network_stays_unitary_sample :
    ∃ (proc : Processor (Device ℝ) ℝ) (net : Network (Device ℝ)),
      compile Settings.standard (some Standard.sampleProgram) = .ok proc ∧
      proc.network = some net ∧
      (net.matrix >>= fun W : Dense (Amplitude ℝ) => W.mul W.adjoint) =
        Dense.identity net.width := by
  obtain ⟨proc, hproc⟩ := Standard.compile_sampleProgram
  obtain ⟨_, hcompiled⟩ := network_stays_unitary (α := Device ℝ) (R := ℝ) (K := Amplitude ℝ)
  obtain ⟨net, hnet, _, hunitary⟩ := hcompiled Settings.standard Standard.sampleProgram proc
    Standard.standard_built hproc fun c hc => (Standard.proper_of_usesCircuit hc).devices
  refine ⟨proc, net, hproc, hnet, hunitary fun c hc => ?_⟩
  have hproper := Standard.proper_of_usesCircuit hc
  exact ⟨hproper.within, hproper.hasModes⟩

end DualRail
