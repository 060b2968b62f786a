import DualRail.Proofs.HeraldedCompilation
import DualRail.Proofs.PhotonAmplitude

/-!
Heralded programs implement their circuits and do not leak. A pattern that shows all heralds of a
compiled program is one photon for each qubit, with the amplitude of the circuit up to one factor
whose square is the success probability, or it does not occur.
-/

namespace DualRail

open MvPolynomial Standard

variable {n : Nat}

section Patterns

variable {proc : Processor (Device ℝ) ℝ} {pattern : List Int}

/-- A pattern of all modes, counted from zero on, with the count of every herald on its mode. -/
structure Shows (proc : Processor (Device ℝ) ℝ) (pattern : List Int) : Prop where
  length : pattern.length = proc.width
  nonneg : ∀ k ∈ pattern, 0 ≤ k
  heralds : ∀ h ∈ proc.heralds, pattern.getD h.mode.toNat 0 = h.count

def photonsOn (pattern : List Int) (pair : ModePair) : Int :=
  pattern.getD pair.zero.toNat 0 + pattern.getD pair.one.toNat 0

/-- Each pair holds one photon, on the rail of the bit of its qubit. -/
structure Encodes (pairs : List ModePair) (x : Bits n) (pattern : List Int) : Prop where
  zero : ∀ (q : Fin n) (pair : ModePair), pairs[q.val]? = some pair →
    pattern.getD pair.zero.toNat 0 = if x q = 0 then 1 else 0
  one : ∀ (q : Fin n) (pair : ModePair), pairs[q.val]? = some pair →
    pattern.getD pair.one.toNat 0 = if x q = 1 then 1 else 0

theorem Shows.getD_nonneg (h : Shows proc pattern) (i : Nat) : 0 ≤ pattern.getD i 0 := by
  rw [List.getD_eq_getElem?_getD]
  cases hi : pattern[i]? with
  | none => exact Int.le_refl 0
  | some k => exact h.nonneg k (List.mem_of_getElem? hi)

theorem toNat_pair (q : Fin n) : (2 * (q.val : Int)).toNat = railMode (q, (0 : Fin 2)) ∧
    (2 * (q.val : Int) + 1).toNat = railMode (q, (1 : Fin 2)) := by
  simp only [railMode]
  omega

theorem Books.getElem?_qubitModes {ps : List (Placement (Device ℝ) ℝ)} (hb : Books n ps proc)
    (q : Fin n) : ∃ pair, proc.qubitModes[q.val]? = some pair ∧
      pair.zero.toNat = railMode (q, 0) ∧ pair.one.toNat = railMode (q, 1) := by
  rw [hb.qubitModes, List.getElem?_map, List.getElem?_range q.isLt]
  exact ⟨_, rfl, toNat_pair q⟩

theorem Books.of_mem_qubitModes {ps : List (Placement (Device ℝ) ℝ)} (hb : Books n ps proc)
    {pair : ModePair} (h : pair ∈ proc.qubitModes) : ∃ q : Fin n,
      pair.zero.toNat = railMode (q, 0) ∧ pair.one.toNat = railMode (q, 1) := by
  rw [hb.qubitModes] at h
  obtain ⟨i, hi, rfl⟩ := List.mem_map.mp h
  exact ⟨⟨i, List.mem_range.mp hi⟩, toNat_pair ⟨i, List.mem_range.mp hi⟩⟩

theorem encodes_iff {ps : List (Placement (Device ℝ) ℝ)} (hb : Books n ps proc) {x : Bits n} :
    Encodes proc.qubitModes x pattern ↔
      ∀ r : Rail n, pattern.getD (railMode r) 0 = if x r.1 = r.2 then 1 else 0 := by
  constructor
  · rintro h ⟨q, b⟩
    obtain ⟨pair, hpair, hzero, hone⟩ := hb.getElem?_qubitModes q
    obtain rfl | rfl : b = 0 ∨ b = 1 := by omega
    · rw [← hzero]
      exact h.zero q pair hpair
    · rw [← hone]
      exact h.one q pair hpair
  · intro h
    refine ⟨fun q pair hpair => ?_, fun q pair hpair => ?_⟩ <;>
      obtain ⟨pair', hpair', hzero, hone⟩ := hb.getElem?_qubitModes q <;>
      obtain rfl := Option.some.inj (hpair.symm.trans hpair')
    · rw [hzero]
      exact h (q, 0)
    · rw [hone]
      exact h (q, 1)

noncomputable def aboveRails (n M : Nat) (pattern : List Int) : Fin M →₀ ℕ :=
  (counts M pattern).filter fun i => 2 * n ≤ i.val

variable {M : Nat}

theorem aboveRails_rail (hM : 2 * n ≤ M) (r : Rail n) :
    aboveRails n M pattern (railIndex hM r) = 0 :=
  Finsupp.filter_apply_neg _ _ (Nat.not_le.mpr (railMode_lt r))

theorem aboveRails_other {i : Fin M} (hi : 2 * n ≤ i.val) :
    aboveRails n M pattern i = (pattern.getD i 0).toNat :=
  Finsupp.filter_apply_pos (fun i : Fin M => 2 * n ≤ i.val) _ hi

theorem counts_eq_codeWith (hM : 2 * n ≤ M) {input : List Int} {x : Bits n}
    (hrails : ∀ r : Rail n, pattern.getD (railMode r) 0 = if x r.1 = r.2 then 1 else 0)
    (hothers : ∀ i, 2 * n ≤ i → i < M → pattern.getD i 0 = input.getD i 0) :
    codeWith hM (aboveRails n M input) x = counts M pattern := by
  refine Finsupp.ext fun i => ?_
  rw [counts_apply]
  by_cases hi : i.val < 2 * n
  · obtain ⟨r, rfl⟩ := (mem_range_railIndex hM).mpr hi
    rw [codeWith_rail (aboveRails_rail hM)]
    change _ = (pattern.getD (railMode r) 0).toNat
    rw [hrails]
    split
    · rfl
    · rfl
  · rw [codeWith_other _ (Nat.not_lt.mp hi), aboveRails_other (Nat.not_lt.mp hi),
      hothers i (Nat.not_lt.mp hi) i.isLt]

theorem labellings_eq_one (h : ∀ i < pattern.length, pattern.getD i 0 = 0 ∨ pattern.getD i 0 = 1) :
    labellings pattern = 1 := by
  refine List.prod_eq_one fun z hz => ?_
  obtain ⟨k, hk, rfl⟩ := List.mem_map.mp hz
  obtain ⟨i, hi⟩ := List.mem_iff_getElem?.mp hk
  have hlt := (List.getElem?_eq_some_iff.mp hi).1
  have hbinary := h i hlt
  rw [List.getD_eq_getElem?_getD, hi, Option.getD_some] at hbinary
  rcases hbinary with rfl | rfl
  · rfl
  · rfl

end Patterns

section Amplitudes

variable {s : Settings (Device ℝ) ℝ} {gs : List (Gate ℝ)} {ps : List (Placement (Device ℝ) ℝ)}
  {proc : Processor (Device ℝ) ℝ} {pattern : List Int}

theorem HeraldedBooks.getD_eq (hb : HeraldedBooks n ps proc) (h : Shows proc pattern) {i : Nat}
    (hlow : 2 * n ≤ i) (hhigh : i < proc.width) :
    pattern.getD i 0 = proc.inputState.getD i 0 :=
  h.heralds _ ((hb.mem_heralds _).mpr ⟨i, hlow, hhigh, rfl⟩)

theorem HeraldedBooks.labellings_eq (hb : HeraldedBooks n ps proc) (h : Shows proc pattern)
    {x : Bits n}
    (hrails : ∀ r : Rail n, pattern.getD (railMode r) 0 = if x r.1 = r.2 then 1 else 0) :
    labellings pattern = 1 := by
  refine labellings_eq_one fun i hi => ?_
  have hi := lt_of_lt_of_eq hi h.length
  by_cases hlt : i < 2 * n
  · obtain ⟨r, rfl⟩ := exists_railMode hlt
    rw [hrails]
    split
    · exact .inr rfl
    · exact .inl rfl
  · rw [hb.getD_eq h (Nat.not_lt.mp hlt) hi]
    exact hb.binary i hi

noncomputable def heraldedFactors (ps : List (Placement (Device ℝ) ℝ)) : ℂ :=
  (ps.map fun p => heraldedFactor p.fragment).prod

/-- The amplitude of a pattern that shows all heralds, in the state of the circuit. -/
theorem photonAmplitude_layout (hr : s.registry.Built) (hps : LaysOut s n (2 * n) gs ps)
    {ls : List (LogicalGate n)} {Vs : List (Dense (Amplitude ℝ))}
    (himp : List.Forall₂ (fun l p => ImplementsHeralded l p.qubits p.fragment) ls ps)
    (hV : List.Forall₂ (fun p V => p.circuit.matrix = .ok V) ps Vs)
    (hb : HeraldedBooks n ps proc) (hwidth : proc.width = endOf (2 * n) ps)
    (hM : 2 * n ≤ endOf (2 * n) ps) (h : Shows proc pattern) :
    photonAmplitude (Dense.ofMatrix (gateMatrices (endOf (2 * n) ps) ps Vs).reverse.prod)
        proc.inputState pattern =
      labellings pattern / Real.sqrt (labellings pattern) * (heraldedFactors ps *
        coeff (counts (endOf (2 * n) ps) pattern)
          (stateWith hM (aboveRails n _ proc.inputState) (encode (circuitAmplitude ls)))) := by
  have hlength : proc.inputState.length = proc.width := by simp [Processor.inputState]
  have hone : labellings proc.inputState = 1 :=
    labellings_eq_one fun i hi => hb.binary i (lt_of_lt_of_eq hi hlength)
  have hinput : codeWith hM (aboveRails n _ proc.inputState) 0 = counts _ proc.inputState := by
    refine counts_eq_codeWith hM (fun r => ?_) fun _ _ _ => rfl
    rw [hb.rails]
    exact if_congr eq_comm rfl rfl
  have hprep : ∀ p ∈ ps, Prepared p (aboveRails n (endOf (2 * n) ps) proc.inputState) := by
    intro p hp j a hj i hi
    have hfresh := hps.newModes_fresh.2 p hp _ (Placement.mem_newModes hj)
    rw [aboveRails_other (by omega), hi, hb.ancillas p hp j a hj]
  have hstands := stands_zero.layout hr hps (Nat.le_refl _) himp hV hps.stop_le
    (aboveRails_rail hM) hprep
  -- All modes above the rails are heralded, so agreement under the heralds settles the amplitude.
  have hcoeff := hstands (counts _ pattern) fun i hi => by
    rw [aboveRails_other hi.1, counts_apply, hb.getD_eq h hi.1 (by omega)]
  rw [hinput, one_mul, coeff_C_mul] at hcoeff
  rw [photonAmplitude_eq _ (hlength.trans hwidth) (h.length.trans hwidth), hone, Nat.cast_one,
    one_mul, hcoeff]
  rfl

theorem norm_heraldedFactors
    (himp : ∀ p ∈ ps, ∃ l : LogicalGate n, ImplementsHeralded l p.qubits p.fragment) (z : ℝ) :
    (ps.map (·.fragment.success)).foldl (· * ·) z = z * ‖heraldedFactors ps‖ ^ 2 := by
  refine foldl_success_eq (List.forall₂_map_left_iff.mpr (List.forall₂_same.mpr fun p hp => ?_)) z
  obtain ⟨l, hl⟩ := himp p hp
  exact hl.norm_factor

def heraldedPattern (proc : Processor (Device ℝ) ℝ) (x : Bits n) : List Int :=
  (List.range proc.width).map fun i =>
    if h : i < 2 * n then (if (x ⟨i / 2, by omega⟩).val = i % 2 then 1 else 0)
    else proc.inputState.getD i 0

theorem heraldedPattern_rail (hw : 2 * n ≤ proc.width) (x : Bits n) (r : Rail n) :
    (heraldedPattern proc x).getD (railMode r) 0 = if x r.1 = r.2 then 1 else 0 := by
  obtain ⟨q, b⟩ := r
  have hlt := railMode_lt (q, b)
  have hqubit : (⟨railMode (q, b) / 2, by omega⟩ : Fin n) = q := by
    apply Fin.ext
    simp only [railMode]
    omega
  have hbit : railMode (q, b) % 2 = b.val := by
    simp only [railMode]
    omega
  rw [heraldedPattern, getD_map_range _ _ (by omega), dif_pos hlt, hqubit, hbit]
  exact if_congr Fin.ext_iff.symm rfl rfl

theorem HeraldedBooks.shows (hb : HeraldedBooks n ps proc) (x : Bits n) :
    Shows proc (heraldedPattern proc x) := by
  refine ⟨by simp [heraldedPattern], fun k hk => ?_, fun h hh => ?_⟩
  · obtain ⟨i, hi, rfl⟩ := List.mem_map.mp hk
    have hbinary := hb.binary i (List.mem_range.mp hi)
    split
    · split <;> decide
    · omega
  · obtain ⟨i, hlow, hhigh, rfl⟩ := (hb.mem_heralds h).mp hh
    exact (getD_map_range _ _ hhigh).trans (dif_neg (Nat.not_lt.mpr hlow))

/-- The heralds are enough: what shows them is one photon for each qubit, with the amplitude of the
circuit up to one factor, or it does not occur. -/
structure HeraldsCircuit (proc : Processor (Device ℝ) ℝ) (V : Dense (Amplitude ℝ))
    (gates : List (LogicalGate n)) : Prop where
  accepts : ∀ pattern : List Int, pattern.length = proc.width →
    (proc.accepts pattern = .ok true ↔
      ∀ h ∈ proc.heralds, pattern.getD h.mode.toNat 0 = h.count)
  shown : ∀ x : Bits n, ∃ pattern, Shows proc pattern ∧ Encodes proc.qubitModes x pattern
  tight : ∀ pattern, Shows proc pattern →
    (∃ pair ∈ proc.qubitModes, photonsOn pattern pair ≠ 1) →
      photonAmplitude V proc.inputState pattern = 0
  amplitude : ∃ g : ℂ, ‖g‖ ^ 2 = proc.success ∧ ∀ (x : Bits n) (pattern : List Int),
    Shows proc pattern → Encodes proc.qubitModes x pattern →
      photonAmplitude V proc.inputState pattern = g * circuitAmplitude gates x

theorem accepts_iff_heralds (hvalid : proc.validate = .ok ()) (hnone : proc.conditions = [])
    (hlength : pattern.length = proc.width) :
    proc.accepts pattern = .ok true ↔
      ∀ h ∈ proc.heralds, pattern.getD h.mode.toNat 0 = h.count := by
  unfold Processor.accepts
  rw [hvalid, ok_bind, if_neg (not_not.mpr hlength), hnone]
  change Except.ok _ = Except.ok true ↔ _
  rw [Except.ok.injEq]
  simp

theorem codeWith_ne_counts {M : Nat} {hM : 2 * n ≤ M} {anc : Fin M →₀ ℕ}
    (hanc : ∀ r, anc (railIndex hM r) = 0) (hb : Books n ps proc) (h : Shows proc pattern)
    (hpair : ∃ pair ∈ proc.qubitModes, photonsOn pattern pair ≠ 1) (x : Bits n) :
    codeWith hM anc x ≠ counts M pattern := by
  intro hx
  obtain ⟨pair, hmem, hne⟩ := hpair
  obtain ⟨q, hzero, hone⟩ := hb.of_mem_qubitModes hmem
  have hrail : ∀ b : Fin 2, (if x q = b then 1 else 0) =
      (pattern.getD (railMode (q, b)) 0).toNat := by
    intro b
    rw [← codeWith_rail hanc x (q, b), hx]
    rfl
  have hzeros := hrail 0
  have hones := hrail 1
  have hfirst := h.getD_nonneg (railMode (q, (0 : Fin 2)))
  have hsecond := h.getD_nonneg (railMode (q, (1 : Fin 2)))
  refine hne ?_
  rw [photonsOn, hzero, hone]
  obtain hbit | hbit : x q = 0 ∨ x q = 1 := by omega
  · simp only [hbit, if_true, if_neg (by decide : ¬ (0 : Fin 2) = 1)] at hzeros hones
    omega
  · simp only [hbit, if_true, if_neg (by decide : ¬ (1 : Fin 2) = 0)] at hzeros hones
    omega

/-- The processor of a heralded layout gives the amplitudes of its circuit. -/
theorem heraldsCircuit_layout (hr : s.registry.Built) (hps : LaysOut s n (2 * n) gs ps)
    {ls : List (LogicalGate n)} {Vs : List (Dense (Amplitude ℝ))}
    (himp : List.Forall₂ (fun l p => ImplementsHeralded l p.qubits p.fragment) ls ps)
    (hV : List.Forall₂ (fun p V => p.circuit.matrix = .ok V) ps Vs) (hb : Books n ps proc)
    (hh : HeraldedBooks n ps proc) (hvalid : proc.validate = .ok ()) (hnone : proc.conditions = [])
    (hsuccess : proc.success = ‖heraldedFactors ps‖ ^ 2) :
    HeraldsCircuit proc (Dense.ofMatrix (gateMatrices (endOf (2 * n) ps) ps Vs).reverse.prod)
      ls := by
  have hwidth : proc.width = endOf (2 * n) ps := hb.width
  have hM : 2 * n ≤ endOf (2 * n) ps := Nat.le_add_right _ _
  refine ⟨fun pattern => accepts_iff_heralds hvalid hnone, fun x => ?_, fun pattern h hpair => ?_,
    heraldedFactors ps, hsuccess.symm, fun x pattern h hx => ?_⟩
  · refine ⟨_, hh.shows x, (encodes_iff hb).mpr fun r => ?_⟩
    exact heraldedPattern_rail (by omega) x r
  · rw [photonAmplitude_layout hr hps himp hV hh hwidth hM h,
      coeff_stateWith_other _ (codeWith_ne_counts (aboveRails_rail hM) hb h hpair), mul_zero,
      mul_zero]
  · have hcode := counts_eq_codeWith hM ((encodes_iff hb).mp hx)
      fun i hlow hhigh => hh.getD_eq h hlow (by omega)
    have hone := hh.labellings_eq h ((encodes_iff hb).mp hx)
    rw [photonAmplitude_layout hr hps himp hV hh hwidth hM h, ← hcode, coeff_stateWith_code, hone,
      Nat.cast_one, Nat.cast_one, Real.sqrt_one, Complex.ofReal_one, div_one, one_mul]

/-- A heralded program gives the amplitudes of its circuit where all heralds are shown, up to one
factor whose square is the declared success probability, and nothing leaks. -/
theorem compile_heralds {prog : Program ℝ} (hs : s.registry = registry) (hh : s.heralded = true)
    (h : compile s (some prog) = .ok proc) :
    ∃ (n : Nat) (gates : List (LogicalGate n)) (net : Network (Device ℝ))
      (V : Dense (Amplitude ℝ)),
      prog.qubits = n ∧ prog.gates.mapM (Gate.logical n) = some gates ∧
      proc.network = some net ∧
      net.matrix = (Dense.identity net.width).map (fun _ : Dense (Amplitude ℝ) => V) ∧
      proc.qubitModes.length = n ∧ HeraldsCircuit proc V gates := by
  have hr : s.registry.Built := by
    rw [hs]
    exact registry_built
  obtain ⟨n, ps, _, hn, hpos, hstore, hps, ho, _, _⟩ := compile_eq_ok hr h
  obtain ⟨ess, hess, hcompile⟩ := compile_eq hr hn hpos hstore hps ho
  obtain ⟨_, hvalid, hproc⟩ := bind_eq_ok (hcompile.symm.trans h)
  obtain rfl := Except.ok.inj hproc
  have himp := fun p (hp : p ∈ ps) => implementsHeralded_of_mem hs hh hps hp
  obtain ⟨ls, hls, hall⟩ := logical_of_laysOut
    (fun _ _ _ hlay => implementsHeralded_of_lays hs hh hlay) hps
  have hsound := hps.sound hr (Nat.le_refl _)
  obtain ⟨Vs, hVs⟩ := exists_matrices fun p hp => by
    obtain ⟨l, hl⟩ := himp p hp
    exact hl.exists_matrix (hsound p hp).valid.circuit
  have hmatrix := fun hm => haveProduct_flatten (M := endOf (2 * n) ps) hm hsound hps.stop_le
    hess hVs
  have hbooks := books_processorOf hps s.heralded (networkName prog.name) ess.flatten
  have hsuccess : (ledgerOf n ps).success = ‖heraldedFactors ps‖ ^ 2 := by
    rw [ledgerOf, Ledger.success_recordAll, norm_heraldedFactors himp]
    exact one_mul _
  refine ⟨n, ls, _, _, hn, hls, rfl, Network.matrix_of_haveProduct hmatrix, ?_, ?_⟩
  · rw [hbooks.qubitModes, List.length_map, List.length_range]
  · exact heraldsCircuit_layout hr hps hall hVs hbooks (heraldedBooks_of_books hps hbooks himp)
      hvalid (conditions_of_heralded hs hh hps) hsuccess

end Amplitudes

section Sample

noncomputable def heraldedSettings : Settings (Device ℝ) ℝ :=
  { Settings.standard with heralded := true }

/-- The second controlled gate meets both qubits of the first again, one of them exchanged. -/
def returningProgram : Program ℝ :=
  { name := "returning", qubits := 3
    gates := [⟨"h", [0], []⟩, ⟨"cx", [0, 1], []⟩, ⟨"swap", [1, 2], []⟩, ⟨"cz", [2, 0], []⟩] }

theorem compile_returningProgram :
    ∃ proc, compile heraldedSettings (some returningProgram) = .ok proc := by
  refine compile_of_good_heralded (n := 3) rfl rfl rfl (by decide) (fun g hg => ?_) (by decide)
  simp only [returningProgram, List.mem_cons, List.not_mem_nil, or_false] at hg
  rcases hg with rfl | rfl | rfl | rfl
  · exact good_hadamard rfl 0
  · exact good_heralded_cx rfl rfl (c := 0) (t := 1) (by decide)
  · exact good_swap rfl (a := 1) (b := 2) (by decide)
  · exact good_heralded_cz rfl rfl (c := 2) (t := 0) (by decide)

theorem compile_heralds_returning :
    ∃ (proc : Processor (Device ℝ) ℝ) (net : Network (Device ℝ)) (V : Dense (Amplitude ℝ)),
      compile heraldedSettings (some returningProgram) = .ok proc ∧
      returningProgram.gates.mapM (Gate.logical 3) = some returningCircuit ∧
      proc.network = some net ∧
      net.matrix = (Dense.identity net.width).map (fun _ : Dense (Amplitude ℝ) => V) ∧
      HeraldsCircuit proc V returningCircuit := by
  obtain ⟨proc, h⟩ := compile_returningProgram
  obtain ⟨n, gates, net, V, hn, hgates, hnet, hV, _, hheralds⟩ :=
    compile_heralds (s := heraldedSettings) rfl rfl h
  obtain rfl : 3 = n := Int.ofNat.inj hn
  have hlogical : returningProgram.gates.mapM (Gate.logical 3) = some returningCircuit := rfl
  obtain rfl := Option.some.inj (hlogical.symm.trans hgates)
  exact ⟨proc, net, V, h, hlogical, hnet, hV, hheralds⟩

end Sample

end DualRail
