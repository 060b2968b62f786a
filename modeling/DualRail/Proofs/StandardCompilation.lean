import DualRail.Proofs.Compilation
import DualRail.Proofs.StandardMeaning

/-!
Programs over the standard catalog, without heralding. No standard fragment overruns as long as the
modes of the program can be stored, none is heralded, and every success probability is positive; so
a program whose gates all resolve compiles.
-/

namespace DualRail.Standard

variable {n : Nat} {l : LogicalGate n} {qubits : List Nat} {f : Fragment (Device ℝ) ℝ}

theorem Implements.ancillas_le (h : Implements l qubits f) : f.ancillas.length ≤ 2 := by
  cases h <;> simp [qubitFragment, controlledFragment, swapFragment]

theorem Implements.width_le (h : Implements l qubits f) : f.width ≤ 6 := by
  cases h <;> simp [Fragment.width, qubitFragment, controlledFragment, swapFragment, cnotCircuit,
    czCircuit]

theorem Implements.heralded_eq (h : Implements l qubits f) : f.heralded = false := by
  cases h <;> rfl

theorem Implements.distinct (h : Implements l qubits f) : l.Distinct := by
  cases h with
  | single _ => trivial
  | cx hct | cz hct => exact hct
  | swap hab _ => exact hab

theorem Implements.photons_eq (h : Implements l qubits f) :
    ∀ anc ∈ f.ancillas, anc.photons = 0 := by
  cases h <;> simp [qubitFragment, controlledFragment, swapFragment]

theorem Implements.success_bounds (h : Implements l qubits f) : 0 < f.success ∧ f.success ≤ 1 := by
  cases h with
  | single _ => simp [qubitFragment]
  | cx _ => constructor <;> norm_num [controlledFragment, num]
  | cz _ => constructor <;> norm_num [controlledFragment, num]
  | swap _ _ => simp [swapFragment]

theorem asPermutation_perm (name : String) {p : Permutation} (h : p.width * 8 ≤ Storage.limit) :
    ∃ inner, (Component.net name p.width [⟨0, .perm p⟩] : Component (Device ℝ)).asPermutation =
      .ok (some inner) := by
  have hpos := p.width_pos
  have hlift : p.lift (p.width : Int) ((0 : Nat) : Int) =
      .ok (p.raise 0 (p.width - (0 + p.width))) := Permutation.lift_of_fits (by omega) h
  have hone : (Permutation.one (p.width - 1)).width = p.width - 1 + 1 := by
    simp [Permutation.width, Permutation.one]
  have hw : (Permutation.one (p.width - 1)).width =
      (p.raise 0 (p.width - (0 + p.width))).width := by
    rw [hone, Permutation.width_raise_of_fits (by omega)]
    omega
  refine ⟨(Permutation.one (p.width - 1)).comp _ hw, ?_⟩
  rw [Component.asPermutation, Permutation.identity_of_le hpos h, settled_ok, ok_bind]
  simp only
  rw [entriesPermutation, Component.asPermutation, ok_bind]
  simp only
  rw [hlift, settled_ok, ok_bind]
  simp only
  rw [Permutation.andThen_eq hw, settled_ok, ok_bind]
  simp only
  rw [entriesPermutation]

/-- A standard fragment overruns only with more modes than can be stored. -/
theorem Implements.not_overruns {p : Placement (Device ℝ) ℝ} (h : Implements l p.qubits p.fragment)
    (hstop : p.stop * 8 ≤ Storage.limit) : ¬ p.Overruns := by
  obtain ⟨f, c, qs, base⟩ := p
  have hcount := h.ancillas_le
  have hwidth := h.width_le
  have hlim := Storage.limit_eq
  rintro (hpairs | ⟨hdirect, hwide | hlimit | ⟨g, herror⟩⟩)
  · simp only [Fragment.ancillaPairs] at hpairs hcount
    omega
  · simp only at hwide hwidth
    omega
  · exact absurd hlimit (Nat.not_lt.mpr hstop)
  · cases h with
    | single _ => cases hdirect
    | cx _ => cases herror
    | cz _ => cases herror
    | @swap a b p hab hp =>
      have hw : p.width = 4 := by simp [Permutation.width, hp]
      obtain ⟨inner, hinner⟩ := asPermutation_perm "swap" (p := p)
        (by rw [hw, Storage.limit_eq]; omega)
      rw [hw] at hinner
      change (Component.net "swap" 4 [⟨0, .perm p⟩] : Component (Device ℝ)).asPermutation = _
        at herror
      rw [hinner] at herror
      cases herror

section Layouts

variable {s : Settings (Device ℝ) ℝ} {base : Nat} {gs : List (Gate ℝ)}
  {ps : List (Placement (Device ℝ) ℝ)}

theorem logical_of_laysOut {Rel : LogicalGate n → Placement (Device ℝ) ℝ → Prop}
    (hrel : ∀ base g p, Lays s n base g p → ∃ l, g.logical n = some l ∧ Rel l p)
    (h : LaysOut s n base gs ps) :
    ∃ ls : List (LogicalGate n), gs.mapM (Gate.logical n) = some ls ∧ List.Forall₂ Rel ls ps := by
  induction h with
  | nil => exact ⟨[], rfl, .nil⟩
  | cons hlay _ ih =>
    obtain ⟨l, hl, himp⟩ := hrel _ _ _ hlay
    obtain ⟨ls, hls, hall⟩ := ih
    exact ⟨l :: ls, by rw [List.mapM_cons, hl, hls]; rfl, .cons himp hall⟩

theorem exists_matrices (h : ∀ p ∈ ps, ∃ V : Dense (Amplitude ℝ), p.circuit.matrix = .ok V) :
    ∃ Vs : List (Dense (Amplitude ℝ)),
      List.Forall₂ (fun p V => p.circuit.matrix = .ok V) ps Vs :=
  exists_forall₂ h

/-- At most `k` new modes, no overrun as long as all modes can be stored, and a probability. -/
structure Modest (k : Nat) (p : Placement (Device ℝ) ℝ) : Prop where
  ancillas_le : p.fragment.ancillas.length ≤ k
  fits : p.stop * 8 ≤ Storage.limit → ¬ p.Overruns
  success : 0 < p.fragment.success ∧ p.fragment.success ≤ 1

theorem modest_of_laysOut {k : Nat} (hmodest : ∀ base g p, Lays s n base g p → Modest k p)
    (h : LaysOut s n base gs ps) : ∀ p ∈ ps, Modest k p := by
  intro p hp
  obtain ⟨_, _, _, hlay⟩ := h.exists_lays p hp
  exact hmodest _ _ _ hlay

theorem endOf_le_of_modest {k : Nat} (h : ∀ p ∈ ps, Modest k p) (base : Nat) :
    endOf base ps ≤ base + k * ps.length := by
  induction ps with
  | nil => simp [endOf]
  | cons p ps ih =>
    obtain ⟨hp, hps⟩ := List.forall_mem_cons.mp h
    have := hp.ancillas_le
    have := ih hps
    simp only [endOf, List.map_cons, List.sum_cons, List.length_cons, Nat.mul_succ] at this ⊢
    omega

theorem success_of_modest {k : Nat} (h : ∀ p ∈ ps, Modest k p) {x : ℝ} (hx : 0 < x ∧ x ≤ 1) :
    0 < (ps.map (·.fragment.success)).foldl (· * ·) x ∧
      (ps.map (·.fragment.success)).foldl (· * ·) x ≤ 1 := by
  induction ps generalizing x with
  | nil => exact hx
  | cons p ps ih =>
    obtain ⟨hp, hps⟩ := List.forall_mem_cons.mp h
    obtain ⟨hpos, hle⟩ := hp.success
    exact ih hps ⟨mul_pos hx.1 hpos, mul_le_one₀ hx.2 hpos.le hle⟩

theorem foldl_success_eq {factors : List ℂ}
    (h : List.Forall₂ (fun z p => ‖z‖ ^ 2 = p.fragment.success) factors ps) (x : ℝ) :
    (ps.map (·.fragment.success)).foldl (· * ·) x = x * ‖factors.prod‖ ^ 2 := by
  induction h generalizing x with
  | nil => simp
  | cons hz _ ih =>
    rw [List.map_cons, List.foldl_cons, ih, List.prod_cons, norm_mul, mul_pow, hz, mul_assoc]

theorem checkProbability_of_bounds {x : ℝ} (h : 0 < x ∧ x ≤ 1) :
    Processor.checkProbability x = .ok () := by
  have hle : Quantity.le x 0 = false := by
    rw [Bool.eq_false_iff, ne_eq, real_le_iff, not_le]
    exact h.1
  have hlt : Quantity.lt 1 x = false := by
    rw [Bool.eq_false_iff, ne_eq, real_lt_iff, not_lt]
    exact h.2
  unfold Processor.checkProbability
  rw [hle, hlt]
  rfl

/-- A program of modest gates that all resolve compiles, if its modes can be stored and it has not
both heralds and conditions. -/
theorem compile_of_modest (hr : s.registry.Built) {prog : Program ℝ} (hq : prog.qubits = n)
    (hn : 0 < n) (hgood : ∀ g ∈ prog.gates, ∃ f, GoodGate s n g f) {k : Nat}
    (hmodest : ∀ base g p, Lays s n base g p → Modest k p)
    (hapart : ∀ ps, LaysOut s n (2 * n) prog.gates ps →
      (ledgerOf n ps).heralds = [] ∨ (ledgerOf n ps).sorted.conditions = [])
    (hsize : (2 * n + k * prog.gates.length) * 8 ≤ Storage.limit) :
    ∃ proc, compile s (some prog) = .ok proc := by
  have hstore : n * 16 ≤ Storage.limit := by omega
  rcases laysOut_or_stops (n := n) hr (2 * n) prog.gates with
    ⟨ps, hps, ho⟩ | ⟨before, g, rest, ps, hgates, hps, ho, hbad | ⟨p, hlay, hover⟩⟩
  · obtain ⟨ess, _, hc⟩ := compile_eq hr hq hn hstore hps ho
    have hvalid := validate_processorOf hps (hps.sound hr (Nat.le_refl _)) hstore s.heralded
      (networkName prog.name) ess.flatten
    have hsuccess : Processor.checkProbability (ledgerOf n ps).success = .ok () := by
      rw [ledgerOf, Ledger.success_recordAll]
      exact checkProbability_of_bounds (success_of_modest (modest_of_laysOut hmodest hps)
        ⟨one_pos, le_refl _⟩)
    rw [if_neg (by rcases hapart ps hps with h | h <;> simp [h]), hsuccess] at hvalid
    rw [hvalid, ok_bind] at hc
    exact ⟨_, hc⟩
  · exact absurd (hgood g (by rw [hgates]; simp)) hbad
  · have hp := hmodest _ _ _ hlay
    have hend := endOf_le_of_modest (modest_of_laysOut hmodest hps) (2 * n)
    have hcount := hp.ancillas_le
    have hlen : ps.length + 1 ≤ prog.gates.length := by
      rw [← hps.length_eq, hgates, List.length_append, List.length_cons]
      omega
    have hmodes := Nat.mul_le_mul_left k hlen
    have hstop : p.stop ≤ 2 * n + k * prog.gates.length := by
      rw [Placement.stop, hlay.base]
      rw [Nat.mul_succ] at hmodes
      omega
    exact absurd hover (hp.fits (by omega))

end Layouts

section Programs

variable {s : Settings (Device ℝ) ℝ} {base : Nat} {gs : List (Gate ℝ)}
  {ps : List (Placement (Device ℝ) ℝ)}

theorem implements_of_lays (hs : s.registry = registry) (hh : s.heralded = false) {g : Gate ℝ}
    {p : Placement (Device ℝ) ℝ} (h : Lays s n base g p) :
    ∃ l, g.logical n = some l ∧ Implements l p.qubits p.fragment := by
  obtain ⟨l, hl, himp⟩ := implements_of_good hs hh h.good
  exact ⟨l, hl, h.qubits ▸ himp⟩

theorem implements_of_laysOut (hs : s.registry = registry) (hh : s.heralded = false)
    (h : LaysOut s n base gs ps) :
    ∃ ls : List (LogicalGate n), gs.mapM (Gate.logical n) = some ls ∧
      List.Forall₂ (fun l p => Implements l p.qubits p.fragment) ls ps :=
  logical_of_laysOut (fun _ _ _ hlay => implements_of_lays hs hh hlay) h

theorem matrices_of_laysOut (hs : s.registry = registry) (hh : s.heralded = false)
    (h : LaysOut s n base gs ps) :
    ∃ Vs : List (Dense (Amplitude ℝ)),
      List.Forall₂ (fun p V => p.circuit.matrix = .ok V) ps Vs := by
  refine exists_matrices fun p hp => ?_
  obtain ⟨_, _, _, hlay⟩ := h.exists_lays p hp
  obtain ⟨l, _, himp⟩ := implements_of_lays hs hh hlay
  obtain ⟨V, hV, _⟩ := himp.exists_matrix hlay.circuit
  exact ⟨V, hV⟩

theorem modest_of_lays (hs : s.registry = registry) (hh : s.heralded = false) {g : Gate ℝ}
    {p : Placement (Device ℝ) ℝ} (h : Lays s n base g p) : Modest 2 p := by
  obtain ⟨l, _, himp⟩ := implements_of_lays hs hh h
  exact ⟨himp.ancillas_le, himp.not_overruns, himp.success_bounds⟩

theorem heralds_of_implements {ls : List (LogicalGate n)}
    (h : List.Forall₂ (fun l p => Implements l p.qubits p.fragment) ls ps) :
    (ledgerOf n ps).heralds = [] := by
  have hnone : ps.flatMap Placement.heralds = [] := by
    induction h with
    | nil => rfl
    | cons himp _ ih =>
      rw [List.flatMap_cons, ih, Placement.heralds, himp.heralded_eq]
      rfl
  rw [ledgerOf, Ledger.heralds_recordAll, hnone]
  rfl

/-- A program whose gates all resolve compiles, if its modes can be stored. -/
theorem compile_of_good (hs : s.registry = registry) (hh : s.heralded = false) {prog : Program ℝ}
    (hq : prog.qubits = n) (hn : 0 < n) (hgood : ∀ g ∈ prog.gates, ∃ f, GoodGate s n g f)
    (hsize : (2 * n + 2 * prog.gates.length) * 8 ≤ Storage.limit) :
    ∃ proc, compile s (some prog) = .ok proc := by
  have hr : s.registry.Built := by
    rw [hs]
    exact registry_built
  refine compile_of_modest hr hq hn hgood (fun _ _ _ => modest_of_lays hs hh) ?_ hsize
  intro ps hps
  obtain ⟨ls, _, hall⟩ := implements_of_laysOut hs hh hps
  exact .inl (heralds_of_implements hall)

end Programs

section Entries

variable {R : Type} [Quantity R] {s : Settings (Device R) R} {g : Gate R}
  {f : Fragment (Device R) R}

theorem good_of_entry (hs : s.registry = registry) {e : GateEntry (Device R) R} (he : e ∈ entries)
    (hname : g.kind = e.kind) (hfit : OperandsFit n e g)
    (hparams : (g.params.length : Int) = e.params) {build : Builder R}
    (hbuild : e.build = some build) (hf : build ⟨s.heralded, g.params⟩ = .ok f)
    (hvalid : f.validate e.arity = .ok ()) : GoodGate s n g f := by
  have hkind : canonicalName e.kind = e.kind := congrArg GateEntry.kind (canonical_of_mem he).1
  refine goodGate_of_entry (hs ▸ registry_built) (hs ▸ mem_registry.mpr he) ?_ hfit hparams hbuild
    hf hvalid
  rw [hname, hkind]
  exact List.mem_cons_self

theorem good_double (hs : s.registry = registry) {kind summary : String} {aliases : List String}
    {build : Builder R} (he : double kind aliases summary build ∈ entries) {a b : Fin n}
    (hab : a ≠ b) (hf : build ⟨s.heralded, []⟩ = .ok f) (hvalid : f.validate 2 = .ok ()) :
    GoodGate s n ⟨kind, [(a.val : Int), (b.val : Int)], []⟩ f := by
  refine good_of_entry hs he rfl ⟨rfl, ?_, ?_⟩ rfl rfl hf hvalid
  · simpa using fun h => hab (Fin.ext h)
  · simp

end Entries

section Resolving

variable {s : Settings (Device ℝ) ℝ} {g : Gate ℝ}

theorem validate_of_bounds {arity : Int} (h : 0 < f.success ∧ f.success ≤ 1)
    (hother : f.validate arity =
      if (Quantity.le f.success 0 || Quantity.lt 1 f.success) = true then
        refuse .invalidFragment
          [.fragmentSuccess ((f.circuit.map (·.name)).getD "") (Quantity.shortest f.success)]
      else .ok ()) :
    f.validate arity = .ok () := by
  have hle : Quantity.le f.success 0 = false := by
    rw [Bool.eq_false_iff, ne_eq, real_le_iff, not_le]
    exact h.1
  have hlt : Quantity.lt 1 f.success = false := by
    rw [Bool.eq_false_iff, ne_eq, real_lt_iff, not_lt]
    exact h.2
  rw [hother, hle, hlt, if_neg (by simp)]

theorem good_hadamard (hs : s.registry = registry) (q : Fin n) :
    ∃ f, GoodGate s n ⟨"h", [(q.val : Int)], []⟩ f := by
  have hfit : OperandsFit n (single "h" [] 0 "Hadamard" hadamardParts)
      ⟨"h", [(q.val : Int)], ([] : List ℝ)⟩ := ⟨rfl, by simp, by simp⟩
  refine ⟨_, good_of_entry hs (by simp [entries]) rfl hfit rfl rfl rfl ?_⟩
  exact validate_of_bounds ⟨one_pos, le_refl _⟩ rfl

theorem validate_controlledFragment {circuit : Network (Device ℝ)} (h : circuit.width = 6) :
    (controlledFragment circuit).validate 2 = .ok () := by
  obtain ⟨name, width, entries⟩ := circuit
  obtain rfl : width = 6 := h
  refine validate_of_bounds (by constructor <;> norm_num [controlledFragment, num]) ?_
  have hoffsets : Fragment.checkOffsets name 6 0 [] [1, 3] = .ok () := rfl
  have hancillas : Fragment.checkAncillas name 0 [⟨0, 0⟩, ⟨0, 0⟩] = .ok () := rfl
  unfold Fragment.validate controlledFragment
  simp only
  rw [if_neg (by decide), if_neg (by decide), if_neg (by decide), hoffsets, ok_bind, hancillas,
    ok_bind]
  rfl

theorem good_cx (hs : s.registry = registry) (hh : s.heralded = false) {c t : Fin n}
    (h : c ≠ t) : ∃ f, GoodGate s n ⟨"cx", [(c.val : Int), (t.val : Int)], []⟩ f := by
  have he : double "cx" ["cnot"] "controlled NOT" cnot ∈
      (entries : List (GateEntry (Device ℝ) ℝ)) := by simp [entries]
  exact ⟨_, good_double hs he h (hh ▸ cnot_eq []) (validate_controlledFragment rfl)⟩

theorem good_cz (hs : s.registry = registry) (hh : s.heralded = false) {c t : Fin n}
    (h : c ≠ t) : ∃ f, GoodGate s n ⟨"cz", [(c.val : Int), (t.val : Int)], []⟩ f := by
  have he : double "cz" [] "controlled Z" cz ∈ (entries : List (GateEntry (Device ℝ) ℝ)) := by
    simp [entries]
  exact ⟨_, good_double hs he h (hh ▸ cz_eq []) (validate_controlledFragment rfl)⟩

theorem good_swap (hs : s.registry = registry) {a b : Fin n} (h : a ≠ b) :
    ∃ f, GoodGate s n ⟨"swap", [(a.val : Int), (b.val : Int)], []⟩ f := by
  obtain ⟨p, hp, hswap⟩ := swap_eq (R := ℝ) ⟨s.heralded, []⟩
  have he : double "swap" [] "exchange two qubits" swap ∈
      (entries : List (GateEntry (Device ℝ) ℝ)) := by simp [entries]
  exact ⟨_, good_double hs he h hswap (validate_of_bounds ⟨one_pos, le_refl _⟩ rfl)⟩

def sampleProgram : Program ℝ :=
  { name := "sample", qubits := 3
    gates := [⟨"h", [1], []⟩, ⟨"cx", [2, 0], []⟩, ⟨"swap", [0, 2], []⟩] }

theorem good_sampleProgram :
    ∀ g ∈ sampleProgram.gates, ∃ f, GoodGate Settings.standard 3 g f := by
  intro g hg
  simp only [sampleProgram, List.mem_cons, List.not_mem_nil, or_false] at hg
  rcases hg with rfl | rfl | rfl
  · exact good_hadamard rfl 1
  · exact good_cx rfl rfl (c := 2) (t := 0) (by decide)
  · exact good_swap rfl (a := 0) (b := 2) (by decide)

theorem compile_sampleProgram :
    ∃ proc, compile Settings.standard (some sampleProgram) = .ok proc :=
  compile_of_good (n := 3) rfl rfl rfl (by decide) good_sampleProgram (by decide)

theorem layout_sampleProgram {ps : List (Placement (Device ℝ) ℝ)}
    (h : LaysOut Settings.standard 3 6 sampleProgram.gates ps) :
    ∃ (turn control exchange : Placement (Device ℝ) ℝ) (kind : String) (parts : List (Piece ℝ))
      (π : Permutation), ps = [turn, control, exchange] ∧
      (turn.qubits = [1] ∧ turn.fragment = qubitFragment kind parts) ∧
      (control.qubits = [2, 0] ∧ control.fragment = controlledFragment cnotCircuit) ∧
      exchange.qubits = [0, 2] ∧ exchange.fragment = swapFragment π ∧
      π.images = #[2, 3, 0, 1] := by
  obtain ⟨ls, hls, hall⟩ := implements_of_laysOut rfl rfl h
  obtain rfl : [.single 1 _, .cx 2 0, .swap 0 2] = ls := Option.some.inj hls
  obtain ⟨turn, _, hturn, hrest, rfl⟩ := List.forall₂_cons_left_iff.mp hall
  obtain ⟨control, _, hcontrol, hlast, rfl⟩ := List.forall₂_cons_left_iff.mp hrest
  obtain ⟨exchange, _, hexchange, hnil, rfl⟩ := List.forall₂_cons_left_iff.mp hlast
  obtain rfl := List.forall₂_nil_left_iff.mp hnil
  generalize hq₁ : turn.qubits = q₁, hf₁ : turn.fragment = f₁ at hturn
  generalize hq₂ : control.qubits = q₂, hf₂ : control.fragment = f₂ at hcontrol
  generalize hq₃ : exchange.qubits = q₃, hf₃ : exchange.fragment = f₃ at hexchange
  cases hturn with
  | single _ =>
    cases hcontrol with
    | cx _ =>
      cases hexchange with
      | swap _ hπ =>
        exact ⟨turn, control, exchange, _, _, _, rfl, ⟨hq₁, hf₁⟩, ⟨hq₂, hf₂⟩, hq₃, hf₃, hπ⟩

end Resolving

end DualRail.Standard
