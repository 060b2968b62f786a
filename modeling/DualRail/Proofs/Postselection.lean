import DualRail.Proofs.Bookkeeping
import DualRail.Proofs.CircuitNorm
import DualRail.Proofs.Preservation
import DualRail.Proofs.RailNetwork

/-!
Postselected programs. The photons of a compiled program enter on the zero rails of its qubits. The
amplitude of one photon on a rail of each qubit is a permanent of the matrix of the network; if the
controlled gates link the qubits without a cycle, these amplitudes are those of the circuit, up to
one factor whose square is the success probability.
-/

namespace DualRail

open Standard

section Input

/-- The modes of the photons at the input, each as often as it holds one. -/
def Processor.inputModes {α R : Type} (p : Processor α R) : List Nat :=
  (List.range p.width).flatMap fun i => List.replicate (p.inputState.getD i 0).toNat i

theorem flatMap_even (n : Nat) :
    ((List.range (2 * n)).flatMap fun i => List.replicate (if i % 2 = 0 then 1 else 0) i) =
      (List.range n).map (2 * ·) := by
  induction n with
  | zero => rfl
  | succ n ih =>
    have heven : 2 * n % 2 = 0 := by omega
    have hodd : ¬ (2 * n + 1) % 2 = 0 := by omega
    rw [Nat.mul_succ, List.range_succ, List.range_succ, List.flatMap_append, List.flatMap_append,
      ih, List.flatMap_singleton, List.flatMap_singleton, if_pos heven, if_neg hodd,
      List.range_succ, List.map_append]
    simp

variable {α R : Type} {p : Processor α R} {n : Nat}

theorem mem_zeroRails {n i : Nat} :
    (⟨i, 1⟩ : Source) ∈ (List.range n).map (fun q => (⟨(2 * q : Nat), 1⟩ : Source)) ↔
      i % 2 = 0 ∧ i < 2 * n := by
  rw [List.mem_map]
  constructor
  · rintro ⟨q, hq, he⟩
    have hlt := List.mem_range.mp hq
    have hmode := congrArg Source.mode he
    simp only at hmode
    omega
  · rintro ⟨heven, hlt⟩
    refine ⟨i / 2, List.mem_range.mpr (by omega), ?_⟩
    rw [Nat.mul_div_cancel' (Nat.dvd_of_mod_eq_zero heven)]

theorem inputState_getD (hs : p.sources = (List.range n).map fun q => ⟨(2 * q : Nat), 1⟩) {i : Nat}
    (hi : i < p.width) :
    p.inputState.getD i 0 = if i % 2 = 0 ∧ i < 2 * n then 1 else 0 := by
  have hnd : (p.sources.map (·.mode)).Nodup := by
    rw [hs, List.map_map]
    refine List.nodup_range.map fun a b hab => ?_
    simpa using hab
  have hone : ∀ src ∈ p.sources, src.photons = 1 := by
    rw [hs]
    intro src hsrc
    obtain ⟨q, _, rfl⟩ := List.mem_map.mp hsrc
    rfl
  rw [inputState_of_sources hnd hone hi, hs]
  exact if_congr mem_zeroRails rfl rfl

theorem inputModes_eq (hs : p.sources = (List.range n).map fun q => ⟨(2 * q : Nat), 1⟩)
    (hw : 2 * n ≤ p.width) : p.inputModes = (List.range n).map (2 * ·) := by
  obtain ⟨extra, hextra⟩ := Nat.exists_eq_add_of_le hw
  have hrails : ∀ i ∈ List.range (2 * n), List.replicate (p.inputState.getD i 0).toNat i =
      List.replicate (if i % 2 = 0 then 1 else 0) i := by
    intro i hi
    have hlt := List.mem_range.mp hi
    rw [inputState_getD hs (by omega)]
    by_cases heven : i % 2 = 0
    · rw [if_pos ⟨heven, hlt⟩, if_pos heven]
      rfl
    · rw [if_neg fun h => heven h.1, if_neg heven]
      rfl
  have hothers : ∀ i ∈ (List.range extra).map (2 * n + ·),
      List.replicate (p.inputState.getD i 0).toNat i = [] := by
    intro i hi
    obtain ⟨k, hk, rfl⟩ := List.mem_map.mp hi
    have := List.mem_range.mp hk
    rw [inputState_getD hs (by omega), if_neg (by omega)]
    rfl
  unfold Processor.inputModes
  rw [hextra, List.range_add, List.flatMap_append, List.flatMap_congr hrails, flatMap_even,
    List.flatMap_eq_nil_iff.mpr hothers, List.append_nil]

end Input

section Layouts

variable {s : Settings (Device ℝ) ℝ} {n : Nat} {gs : List (Gate ℝ)}
  {ps : List (Placement (Device ℝ) ℝ)} {ls : List (LogicalGate n)}

/-- The amplitude of one photon on the rail of each bit of `x`, from photons in the given modes. -/
noncomputable def acceptedAmplitude (V : Dense (Amplitude ℝ)) (columns : List Nat) (x : Bits n) :
    ℂ :=
  Matrix.permanent fun i j : Fin n =>
    (V.get (railMode (i, x i)) (columns.getD j 0)).toComplex

theorem sources_of_implements
    (himp : List.Forall₂ (fun l p => Implements l p.qubits p.fragment) ls ps) :
    (ledgerOf n ps).sources = (List.range n).map fun q => ⟨(2 * q : Nat), 1⟩ := by
  have hnone : ps.flatMap Placement.sources = [] := by
    induction himp with
    | nil => rfl
    | @cons l p ls ps hl _ ih =>
      have hempty : p.ancillas.filter (fun a => 0 < a.1.photons) = [] := by
        refine List.filter_eq_nil_iff.mpr fun a ha => ?_
        rw [hl.photons_eq a.1 (List.of_mem_zip ha).1]
        decide
      rw [List.flatMap_cons, ih, Placement.sources, Ledger.ancillaSources, hempty]
      rfl
  rw [ledgerOf, Ledger.sources_recordAll, hnone, List.append_nil, Ledger.ofQubits, List.map_map]
  rfl

theorem norm_factor_of_implements {l : LogicalGate n} {qubits : List Nat}
    {f : Fragment (Device ℝ) ℝ} (h : Implements l qubits f) : ‖l.factor‖ ^ 2 = f.success := by
  cases h <;> norm_num [LogicalGate.factor, qubitFragment, controlledFragment, swapFragment, num]

theorem norm_factors_of_implements
    (himp : List.Forall₂ (fun l p => Implements l p.qubits p.fragment) ls ps) (z : ℝ) :
    (ps.map (·.fragment.success)).foldl (· * ·) z =
      z * ‖(ls.map LogicalGate.factor).prod‖ ^ 2 := by
  refine foldl_success_eq (List.forall₂_map_left_iff.mpr (himp.imp ?_)) z
  exact fun _ _ hl => norm_factor_of_implements hl

theorem distinct_of_implements
    (himp : List.Forall₂ (fun l p => Implements l p.qubits p.fragment) ls ps) :
    ∀ l ∈ ls, l.Distinct := by
  induction himp with
  | nil => exact fun l hl => nomatch hl
  | cons hl _ ih => exact List.forall_mem_cons.mpr ⟨hl.distinct, ih⟩

/-- With photons on the zero rails the amplitudes are permanents on the rails. -/
theorem acceptedAmplitude_layout (hr : s.registry.Built) (h : LaysOut s n (2 * n) gs ps)
    {Vs : List (Dense (Amplitude ℝ))}
    (himp : List.Forall₂ (fun l p => Implements l p.qubits p.fragment) ls ps)
    (hV : List.Forall₂ (fun p V => p.circuit.matrix = .ok V) ps Vs) {M : Nat} (hM : 2 * n ≤ M)
    (x : Bits n) :
    acceptedAmplitude (Dense.ofMatrix (gateMatrices M ps Vs).reverse.prod)
        ((List.range n).map (2 * ·)) x =
      Matrix.permanent fun i j : Fin n =>
        (ls.map LogicalGate.railMatrix).reverse.prod (i, x i) (j, 0) := by
  have hrails := onRails_layout hr h (Nat.le_refl _) himp hV (fresh_one hM)
  rw [onRails_one, Matrix.mul_one, Matrix.mul_one] at hrails
  unfold acceptedAmplitude
  congr 1
  funext i j
  have hcolumn : ((List.range n).map (2 * ·)).getD j 0 = railMode (j, (0 : Fin 2)) :=
    getD_map_range _ _ j.isLt
  rw [hcolumn, ← hrails]
  change Amplitude.toComplex (Dense.get _ (railIndex hM (i, x i)).val (railIndex hM (j, 0)).val) = _
  rw [Dense.get_ofMatrix]
  rfl

/-- The pattern of one photon on the rail of each bit of `x`. -/
def codePattern (width : Nat) (x : Bits n) : List Int :=
  (List.range width).map fun i => if ∃ q : Fin n, railMode (q, x q) = i then 1 else 0

theorem codePattern_getD {width : Nat} (hw : 2 * n ≤ width) (x : Bits n) (q : Fin n) (b : Fin 2) :
    (codePattern width x).getD (railMode (q, b)) 0 = if x q = b then 1 else 0 := by
  have hlt : railMode (q, b) < width := (railMode_lt (q, b)).trans_le hw
  rw [codePattern, getD_map_range _ _ hlt]
  refine if_congr ⟨?_, fun hb => ⟨q, by rw [hb]⟩⟩ rfl rfl
  rintro ⟨i, hi⟩
  have he := railMode_injective hi
  rw [Prod.mk.injEq] at he
  rw [← he.1]
  exact he.2

theorem holds_codePattern {width : Nat} (hw : 2 * n ≤ width) (x : Bits n) (q : Fin n) :
    (Ledger.onePhoton (ModeSupply.qubit q.val)).holds (codePattern width x) = true := by
  have hzero := codePattern_getD hw x q 0
  have hone := codePattern_getD hw x q 1
  change (Word.wrap (Word.wrap (0 + (codePattern width x).getD (railMode (q, (0 : Fin 2))) 0) +
    (codePattern width x).getD (railMode (q, (1 : Fin 2))) 0) == 1) = true
  rw [hzero, hone]
  rcases (by omega : x q = 0 ∨ x q = 1) with hx | hx
  · rw [hx]
    rfl
  · rw [hx]
    rfl

theorem accepts_codePattern (hr : s.registry.Built) (h : LaysOut s n (2 * n) gs ps)
    (himp : List.Forall₂ (fun l p => Implements l p.qubits p.fragment) ls ps) {name : String}
    {entries : List (Entry (Component (Device ℝ)))} {heralded : Bool}
    (hvalid : (processorOf heralded name n ps entries).validate = .ok ()) (x : Bits n) :
    (processorOf heralded name n ps entries).accepts
      (codePattern (endOf (2 * n) ps) x) = .ok true := by
  have hw : 2 * n ≤ endOf (2 * n) ps := Nat.le_add_right _ _
  have hheralds : (processorOf heralded name n ps entries).heralds = [] :=
    h.heralds_sorted.trans (heralds_of_implements himp)
  have hconditions : (processorOf heralded name n ps entries).conditions.all
      (·.holds (codePattern (endOf (2 * n) ps) x)) = true := by
    refine List.all_eq_true.mpr fun c hc => ?_
    obtain ⟨p, hp, hpc⟩ := mem_conditions_ledgerOf.mp hc
    obtain ⟨_, q, hq, rfl⟩ := Placement.mem_conditions.mp hpc
    exact holds_codePattern hw x ⟨q, (h.sound hr (Nat.le_refl _) p hp).lt q hq⟩
  have hlength : (codePattern (endOf (2 * n) ps) x).length =
      (processorOf heralded name n ps entries).width := by
    rw [codePattern, List.length_map, List.length_range]
    rfl
  unfold Processor.accepts
  rw [hvalid, ok_bind, if_neg (not_not.mpr hlength), hheralds, hconditions]
  rfl

end Layouts

section Programs

variable {s : Settings (Device ℝ) ℝ} {prog : Program ℝ} {proc : Processor (Device ℝ) ℝ}

/-- A compiled program of postselected gates, seen from its rails. -/
theorem rails_of_compile (hs : s.registry = registry) (hh : s.heralded = false)
    (h : compile s (some prog) = .ok proc) :
    ∃ (n : Nat) (gates : List (LogicalGate n)) (net : Network (Device ℝ))
      (V : Dense (Amplitude ℝ)),
      prog.qubits = n ∧ prog.gates.mapM (Gate.logical n) = some gates ∧
      proc.network = some net ∧ 2 * n ≤ net.width ∧ net.width ≤ 2 * n + 2 * prog.gates.length ∧
      net.matrix = (Dense.identity net.width).map (fun _ : Dense (Amplitude ℝ) => V) ∧
      proc.inputModes = (List.range n).map (2 * ·) ∧
      (∀ x : Bits n, proc.accepts (codePattern net.width x) = .ok true) ∧
      (∀ l ∈ gates, l.Distinct) ∧ proc.success = ‖(gates.map LogicalGate.factor).prod‖ ^ 2 ∧
      ∀ x : Bits n, acceptedAmplitude V proc.inputModes x =
        Matrix.permanent fun i j : Fin n =>
          (gates.map LogicalGate.railMatrix).reverse.prod (i, x i) (j, 0) := by
  have hr : s.registry.Built := by
    rw [hs]
    exact registry_built
  obtain ⟨n, ps, _, hn, hpos, hstore, hps, ho, _, _⟩ := compile_eq_ok hr h
  obtain ⟨ess, hess, hcompile⟩ := compile_eq hr hn hpos hstore hps ho
  obtain ⟨_, hvalid, hproc⟩ := bind_eq_ok (hcompile.symm.trans h)
  obtain rfl := Except.ok.inj hproc
  obtain ⟨ls, hls, himp⟩ := implements_of_laysOut hs hh hps
  obtain ⟨Vs, hVs⟩ := matrices_of_laysOut hs hh hps
  have hw : 2 * n ≤ endOf (2 * n) ps := Nat.le_add_right _ _
  have hend : endOf (2 * n) ps ≤ 2 * n + 2 * prog.gates.length := by
    rw [hps.length_eq]
    exact endOf_le_of_modest (modest_of_laysOut (fun _ _ _ => modest_of_lays hs hh) hps) (2 * n)
  have hmatrix := fun hm => haveProduct_flatten (M := endOf (2 * n) ps) hm
    (hps.sound hr (Nat.le_refl _)) hps.stop_le hess hVs
  have hinput := inputModes_eq (p := processorOf s.heralded (networkName prog.name) n ps
    ess.flatten) (hps.sources_sorted.trans (sources_of_implements himp)) hw
  have hsuccess := Ledger.success_recordAll
    (Ledger.ofQubits ((List.range n).map ModeSupply.qubit)) ps
  refine ⟨n, ls, _, _, hn, hls, rfl, hw, hend, Network.matrix_of_haveProduct hmatrix, hinput,
    accepts_codePattern hr hps himp hvalid, distinct_of_implements himp, ?_, fun x => ?_⟩
  · change (ledgerOf n ps).success = _
    rw [ledgerOf, hsuccess, norm_factors_of_implements himp]
    exact one_mul _
  · rw [hinput]
    exact acceptedAmplitude_layout hr hps himp hVs hw x

theorem factors_ne_zero {n : Nat} (gates : List (LogicalGate n)) :
    (gates.map LogicalGate.factor).prod ≠ 0 := by
  refine List.prod_ne_zero fun hzero => ?_
  obtain ⟨l, _, hl⟩ := List.mem_map.mp hzero
  cases l <;> norm_num [LogicalGate.factor] at hl

theorem unitary_of_mapM {n : Nat} {gs : List (Gate ℝ)} {gates : List (LogicalGate n)}
    (h : gs.mapM (Gate.logical n) = some gates) (hd : ∀ l ∈ gates, l.Distinct) :
    ∀ l ∈ gates, l.matrix ∈ Matrix.unitaryGroup (Bits n) ℂ := by
  induction gs generalizing gates with
  | nil =>
    obtain rfl : [] = gates := Option.some.inj h
    exact fun l hl => nomatch hl
  | cons g gs ih =>
    rw [List.mapM_cons] at h
    obtain ⟨l, hl, h⟩ := Option.bind_eq_some_iff.mp h
    obtain ⟨rest, hrest, h⟩ := Option.bind_eq_some_iff.mp h
    obtain rfl : l :: rest = gates := Option.some.inj h
    obtain ⟨hdl, hd⟩ := List.forall_mem_cons.mp hd
    exact List.forall_mem_cons.mpr ⟨unitary_of_logical hl hdl, ih hrest hd⟩

/-- A processor with matrix `V` gives the amplitudes of a circuit, up to one factor, and is declared
to succeed as often as it does. -/
structure Postselects {n : Nat} (proc : Processor (Device ℝ) ℝ) (V : Dense (Amplitude ℝ))
    (gates : List (LogicalGate n)) : Prop where
  amplitude : ∃ g : ℂ, ‖g‖ ^ 2 = proc.success ∧
    ∀ x : Bits n, acceptedAmplitude V proc.inputModes x = g * circuitAmplitude gates x
  probability : ∑ x : Bits n, ‖acceptedAmplitude V proc.inputModes x‖ ^ 2 = proc.success
  distribution : ∀ x : Bits n,
    ‖acceptedAmplitude V proc.inputModes x‖ ^ 2 /
        ∑ y : Bits n, ‖acceptedAmplitude V proc.inputModes y‖ ^ 2 =
      ‖circuitAmplitude gates x‖ ^ 2

/-- One factor for all amplitudes settles probability and distribution. -/
theorem postselects_of_amplitude {n : Nat} {V : Dense (Amplitude ℝ)}
    {gates : List (LogicalGate n)} {g : ℂ} (hg : ‖g‖ ^ 2 = proc.success) (hne : g ≠ 0)
    (hunit : ∑ x, ‖circuitAmplitude gates x‖ ^ 2 = 1)
    (ha : ∀ x : Bits n, acceptedAmplitude V proc.inputModes x = g * circuitAmplitude gates x) :
    Postselects proc V gates := by
  have hsq : ∀ x : Bits n, ‖acceptedAmplitude V proc.inputModes x‖ ^ 2 =
      proc.success * ‖circuitAmplitude gates x‖ ^ 2 := by
    intro x
    rw [ha, norm_mul, mul_pow, hg]
  have hsum : ∑ x : Bits n, ‖acceptedAmplitude V proc.inputModes x‖ ^ 2 = proc.success := by
    rw [Finset.sum_congr rfl fun x _ => hsq x, ← Finset.mul_sum, hunit, mul_one]
  have hpos : proc.success ≠ 0 := by
    rw [← hg]
    exact pow_ne_zero 2 (norm_ne_zero_iff.mpr hne)
  refine ⟨⟨g, hg, ha⟩, hsum, fun x => ?_⟩
  rw [hsum, hsq, mul_div_cancel_left₀ _ hpos]

/-- A program of postselected gates whose links close no cycle gives the amplitudes of its circuit,
up to one factor whose square is the declared success probability. -/
theorem compile_postselects (hs : s.registry = registry) (hh : s.heralded = false)
    (h : compile s (some prog) = .ok proc) :
    ∃ (n : Nat) (gates : List (LogicalGate n)) (net : Network (Device ℝ))
      (V : Dense (Amplitude ℝ)),
      prog.qubits = n ∧ prog.gates.mapM (Gate.logical n) = some gates ∧
      proc.network = some net ∧
      net.matrix = (Dense.identity net.width).map (fun _ : Dense (Amplitude ℝ) => V) ∧
      proc.inputModes.length = n ∧
      (∀ x : Bits n, proc.accepts (codePattern net.width x) = .ok true) ∧
      (LogicalGate.Treelike gates → Postselects proc V gates) := by
  obtain ⟨n, gates, net, V, hn, hgates, hnet, _, _, hV, hinput, haccepts, hd, hsuccess, hperm⟩ :=
    rails_of_compile hs hh h
  refine ⟨n, gates, net, V, hn, hgates, hnet, hV, ?_, haccepts, fun htree => ?_⟩
  · rw [hinput, List.length_map, List.length_range]
  · refine postselects_of_amplitude hsuccess.symm (factors_ne_zero gates)
      (sum_norm_circuitAmplitude (unitary_of_mapM hgates hd)) fun x => ?_
    rw [hperm, LogicalGate.permanent_run hd htree]

def linkedProgram : Program ℝ :=
  { name := "linked", qubits := 3
    gates := [⟨"h", [0], []⟩, ⟨"cx", [0, 1], []⟩, ⟨"swap", [1, 2], []⟩, ⟨"cx", [2, 1], []⟩] }

theorem compile_linkedProgram :
    ∃ proc, compile Settings.standard (some linkedProgram) = .ok proc := by
  refine compile_of_good (n := 3) rfl rfl rfl (by decide) (fun g hg => ?_) (by decide)
  simp only [linkedProgram, List.mem_cons, List.not_mem_nil, or_false] at hg
  rcases hg with rfl | rfl | rfl | rfl
  · exact good_hadamard rfl 0
  · exact good_cx rfl rfl (c := 0) (t := 1) (by decide)
  · exact good_swap rfl (a := 1) (b := 2) (by decide)
  · exact good_cx rfl rfl (c := 2) (t := 1) (by decide)

theorem compile_postselects_linked :
    ∃ (proc : Processor (Device ℝ) ℝ) (net : Network (Device ℝ)) (V : Dense (Amplitude ℝ)),
      compile Settings.standard (some linkedProgram) = .ok proc ∧
      linkedProgram.gates.mapM (Gate.logical 3) = some linkedCircuit ∧
      LogicalGate.Treelike linkedCircuit ∧ proc.network = some net ∧
      net.matrix = (Dense.identity net.width).map (fun _ : Dense (Amplitude ℝ) => V) ∧
      Postselects proc V linkedCircuit := by
  obtain ⟨proc, h⟩ := compile_linkedProgram
  obtain ⟨n, gates, net, V, hn, hgates, hnet, hV, _, _, hpost⟩ :=
    compile_postselects (s := Settings.standard) rfl rfl h
  obtain rfl : 3 = n := Int.ofNat.inj hn
  have hlogical : linkedProgram.gates.mapM (Gate.logical 3) = some linkedCircuit := rfl
  obtain rfl := Option.some.inj (hlogical.symm.trans hgates)
  have htree : LogicalGate.Treelike linkedCircuit := ⟨by decide, by decide, trivial⟩
  exact ⟨proc, net, V, h, hlogical, htree, hnet, hV, hpost htree⟩

end Programs

section Cycle

def repeatedProgram : Program ℝ :=
  { name := "repeated", qubits := 2, gates := [⟨"cz", [0, 1], []⟩, ⟨"cz", [0, 1], []⟩] }

theorem compile_repeatedProgram :
    ∃ proc, compile Settings.standard (some repeatedProgram) = .ok proc := by
  refine compile_of_good (n := 2) rfl rfl rfl (by decide) (fun g hg => ?_) (by decide)
  simp only [repeatedProgram, List.mem_cons, List.not_mem_nil, or_false, or_self] at hg
  rw [hg]
  exact good_cz rfl rfl (c := 0) (t := 1) (by decide)

theorem circuitAmplitude_repeated : circuitAmplitude repeatedCircuit 0 = 1 := by
  have hcolumn : ∀ x : Bits 2, (LogicalGate.cz (0 : Fin 2) 1).matrix x 0 =
      if x = 0 then 1 else 0 := by
    intro x
    rw [LogicalGate.matrix_cz, if_neg (by decide : ¬ ((0 : Bits 2) 0 = 1 ∧ (0 : Bits 2) 1 = 1))]
  simp only [circuitAmplitude, repeatedCircuit, List.map_cons, List.map_nil, List.reverse_cons,
    List.reverse_nil, List.nil_append, List.cons_append, List.prod_cons, List.prod_nil, mul_one,
    Matrix.mulVec_single_one]
  change ((LogicalGate.cz 0 1).matrix * (LogicalGate.cz 0 1).matrix :
    Matrix (Bits 2) (Bits 2) ℂ) 0 0 = 1
  rw [Matrix.mul_apply, Fintype.sum_eq_single 0]
  · rw [hcolumn, if_pos rfl, mul_one]
  · intro x hx
    rw [hcolumn x, if_neg hx, mul_zero]

theorem permanent_two (A : Matrix (Fin 2) (Fin 2) ℂ) :
    A.permanent = A 0 0 * A 1 1 + A 1 0 * A 0 1 := by
  have huniv : (Finset.univ : Finset (Equiv.Perm (Fin 2))) = {1, Equiv.swap 0 1} := by decide
  rw [Matrix.permanent, huniv, Finset.sum_pair (by decide), Fin.prod_univ_two, Fin.prod_univ_two]
  simp

/-- Passing the gate twice, photons on the zero rails keep a third of their amplitude: what the
target photon leaves at the first gate comes back at the second. -/
theorem permanent_repeated :
    (Matrix.permanent fun i j : Fin 2 =>
      (repeatedCircuit.map LogicalGate.railMatrix).reverse.prod (i, (0 : Bits 2) i) (j, 0)) =
      1 / 3 := by
  have hthird := third_mul_self
  have htwo := twoThirds_mul_self
  have hinside : ∀ r s : Rail 2, (LogicalGate.cz (0 : Fin 2) 1).railMatrix r s =
      coreMatrix (if r.1 = 0 then controlRail r.2 else targetRail r.2)
        (if s.1 = 0 then controlRail s.2 else targetRail s.2) := by
    have hpos : ∀ r : Rail 2, railPosition 0 1 r =
        some (if r.1 = 0 then controlRail r.2 else targetRail r.2) := by decide
    exact fun r s => spread_inside _ (hpos r) (hpos s)
  refine (permanent_two _).trans ?_
  simp only [repeatedCircuit, List.map_cons, List.map_nil, List.reverse_cons, List.reverse_nil,
    List.nil_append, List.cons_append, List.prod_cons, List.prod_nil, mul_one, Matrix.mul_apply,
    Fintype.sum_prod_type, Fin.sum_univ_two, hinside, coreMatrix_entry, coreMatrix_mulVec]
  simp [controlRail, targetRail]
  grind

/-- A controlled gate applied twice does not give the amplitudes of its circuit with the declared
probability. -/
theorem repeated_gate_misses_probability :
    ∃ (proc : Processor (Device ℝ) ℝ) (net : Network (Device ℝ)) (V : Dense (Amplitude ℝ)),
      compile Settings.standard (some repeatedProgram) = .ok proc ∧
      repeatedProgram.gates.mapM (Gate.logical 2) = some repeatedCircuit ∧
      proc.network = some net ∧ net.matrix = .ok V ∧
      ¬ ∃ g : ℂ, ‖g‖ ^ 2 = proc.success ∧
        ∀ x : Bits 2, acceptedAmplitude V proc.inputModes x =
          g * circuitAmplitude repeatedCircuit x := by
  obtain ⟨proc, h⟩ := compile_repeatedProgram
  obtain ⟨n, gates, net, V, hn, hgates, hnet, hlow, hhigh, hV, _, _, _, hsuccess, hperm⟩ :=
    rails_of_compile (s := Settings.standard) rfl rfl h
  obtain rfl : 2 = n := Int.ofNat.inj hn
  have hlogical : repeatedProgram.gates.mapM (Gate.logical 2) = some repeatedCircuit := rfl
  obtain rfl := Option.some.inj (hlogical.symm.trans hgates)
  have hstore : Dense.Storable net.width := by
    have hwidth : net.width ≤ 8 := hhigh
    have hsquare : net.width * net.width ≤ 8 * 8 := Nat.mul_le_mul hwidth hwidth
    exact ⟨by omega, by rw [Storage.limit_eq]; omega⟩
  rw [Dense.identity_of_storable hstore] at hV
  refine ⟨proc, net, V, h, hlogical, hnet, hV, ?_⟩
  rintro ⟨g, hg, ha⟩
  have hzero := ha 0
  rw [hperm, permanent_repeated, circuitAmplitude_repeated, mul_one] at hzero
  rw [← hzero, hsuccess] at hg
  norm_num [repeatedCircuit, LogicalGate.factor] at hg

end Cycle

end DualRail
