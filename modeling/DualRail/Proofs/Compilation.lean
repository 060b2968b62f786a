import DualRail.Proofs.ProcessorValidity
import DualRail.Proofs.Records

/-!
Whole compilations. The processor of a layout passes every check but the two last ones, so a program
whose gates can all be placed gives that processor unless its heralds conflict with its conditions
or its success probability is none. A program with a gate that stops gives the failure of that gate.
-/

namespace DualRail

variable {α R : Type} [Quantity R]

structure Placed (s : Settings α R) (n : Nat) (gs : List (Gate R)) (ps : List (Placement α R)) :
    Prop where
  storable : n * 16 ≤ Storage.limit
  laysOut : LaysOut s n (2 * n) gs ps
  fits : ∀ p ∈ ps, ¬ p.Overruns

def processorOf (heralded : Bool) (name : String) (n : Nat) (ps : List (Placement α R))
    (entries : List (Entry (Component α))) : Processor α R :=
  let ledger := (ledgerOf n ps).sorted
  { network := some ⟨name, endOf (2 * n) ps, entries⟩
    qubitModes := (List.range n).map ModeSupply.qubit
    sources := ledger.sources
    heralds := ledger.heralds
    conditions := ledger.conditions
    heralded
    success := ledger.success }

omit [Quantity R] in
theorem Processor.checkPairs_qubits {m n : Nat} (hm : 2 * n ≤ m) (hn : n * 16 ≤ Storage.limit) :
    checkPairs m 0 [] ((List.range n).map ModeSupply.qubit) = .ok () := by
  rw [Storage.limit_eq] at hn
  rw [checkPairs_eq_ok_iff]
  · refine ⟨?_, List.pairwise_map.mpr (List.pairwise_lt_range.imp fun {x y} hxy => ?_)⟩
    · intro pair hp
      obtain ⟨x, hx, rfl⟩ := List.mem_map.mp hp
      have hxn := List.mem_range.mp hx
      simp only [Adjacent, ModeSupply.qubit, ModePair.startingAt, List.not_mem_nil, false_implies,
        implies_true, and_true, true_and]
      omega
    · simp only [shareRail, ModeSupply.qubit, ModePair.startingAt, Bool.or_eq_false_iff,
        beq_eq_false_iff_ne]
      omega
  · intro pair hp
    obtain ⟨x, hx, rfl⟩ := List.mem_map.mp hp
    have hxn := List.mem_range.mp hx
    simp only [ModeSupply.qubit, ModePair.startingAt, Word.InRange, Word.min, Word.max]
    omega

section Validity

variable {s : Settings α R} {n : Nat} {gs : List (Gate R)} {ps : List (Placement α R)}

theorem sources_nonneg :
    ∀ src ∈ (ledgerOf n ps).sources, 0 ≤ src.photons := by
  intro src hsrc
  rw [ledgerOf, Ledger.sources_recordAll] at hsrc
  rcases List.mem_append.mp hsrc with h | h
  · obtain ⟨pair, _, rfl⟩ := List.mem_map.mp h
    exact Int.one_nonneg
  · obtain ⟨p, _, hp⟩ := List.mem_flatMap.mp h
    obtain ⟨j, anc, _, hpos, rfl⟩ := Placement.mem_sources.mp hp
    exact Int.le_of_lt hpos

theorem heralds_nonneg (hs : ∀ p ∈ ps, p.Sound n) :
    ∀ h ∈ (ledgerOf n ps).heralds, 0 ≤ h.count := by
  intro h hh
  rw [ledgerOf, Ledger.heralds_recordAll] at hh
  rcases List.mem_append.mp hh with hh | hh
  · cases hh
  · obtain ⟨p, hp, hh⟩ := List.mem_flatMap.mp hh
    obtain ⟨_, j, anc, hj, rfl⟩ := Placement.mem_heralds.mp hh
    exact ((hs p hp).valid.counts anc (List.mem_of_getElem? hj)).2

theorem conditions_inside (hs : ∀ p ∈ ps, p.Sound n) :
    ∀ c ∈ (ledgerOf n ps).sorted.conditions,
      (∀ x ∈ c.modes, 0 ≤ x ∧ x < (endOf (2 * n) ps : Nat)) ∧ 0 ≤ c.count := by
  intro c hc
  obtain ⟨p, hp, hc⟩ := mem_conditions_ledgerOf.mp hc
  obtain ⟨_, q, hq, rfl⟩ := Placement.mem_conditions.mp hc
  have hqn := (hs p hp).lt q hq
  have hend : 2 * n ≤ endOf (2 * n) ps := Nat.le_add_right _ _
  refine ⟨fun x hx => ?_, Int.one_nonneg⟩
  simp only [Ledger.onePhoton, ModeSupply.qubit, ModePair.startingAt, List.mem_cons,
    List.not_mem_nil, or_false] at hx
  omega

/-- Only the two last checks can refuse the processor of a layout. -/
theorem validate_processorOf (h : LaysOut s n (2 * n) gs ps) (hs : ∀ p ∈ ps, p.Sound n)
    (hn : n * 16 ≤ Storage.limit) (heralded : Bool) (name : String)
    (entries : List (Entry (Component α))) :
    (processorOf heralded name n ps entries).validate =
      if (!(ledgerOf n ps).heralds.isEmpty &&
          !(ledgerOf n ps).sorted.conditions.isEmpty) = true then
        refuse .conflictingConditions []
      else Processor.checkProbability (ledgerOf n ps).success := by
  have hend : 2 * n ≤ endOf (2 * n) ps := Nat.le_add_right _ _
  have hpairs := Processor.checkPairs_qubits hend hn
  obtain ⟨hasc, hin⟩ := ascending_of_sublist h.sources_sublist
  obtain ⟨hasc', hin'⟩ := ascending_of_sublist h.heralds_sublist
  have hsources : Processor.checkRecords (endOf (2 * n) ps) .source (-1)
      ((ledgerOf n ps).sources.map Source.pair) = .ok () := by
    rw [Processor.checkRecords_eq_ok_iff, List.forall_mem_map, List.map_map]
    refine ⟨fun src hsrc => ?_, hasc⟩
    have hinside := hin _ (List.mem_map_of_mem hsrc)
    exact ⟨hinside, Int.lt_of_lt_of_le (by decide) hinside.1, sources_nonneg src hsrc⟩
  have hheralds : Processor.checkRecords (endOf (2 * n) ps) .herald (-1)
      ((ledgerOf n ps).heralds.map Herald.pair) = .ok () := by
    rw [Processor.checkRecords_eq_ok_iff, List.forall_mem_map, List.map_map]
    refine ⟨fun rec hrec => ?_, hasc'⟩
    have hinside := hin' _ (List.mem_map_of_mem hrec)
    exact ⟨hinside, Int.lt_of_lt_of_le (by decide) hinside.1, heralds_nonneg hs rec hrec⟩
  have hconditions := Processor.checkConditions_eq_ok_iff.mpr (conditions_inside hs)
  unfold Processor.validate processorOf
  simp only
  rw [hpairs, ok_bind, h.sources_sorted, hsources, ok_bind, h.heralds_sorted, hheralds, ok_bind,
    hconditions, ok_bind]
  rfl

end Validity

section Whole

variable {s : Settings α R} {n : Nat} {gs : List (Gate R)} {ps : List (Placement α R)}

def blank (n : Nat) (name : String) (keepIdentity : Bool) : Assembly α R :=
  { supply := ⟨n, 2 * n⟩
    network := ⟨name, 2 * n, []⟩
    ledger := .ofQubits ((List.range n).map ModeSupply.qubit)
    keepIdentity }

theorem aligned_blank (n : Nat) (name : String) (keep : Bool) :
    (blank n name keep : Assembly α R).Aligned n := ⟨rfl, rfl, Nat.le_refl _⟩

theorem start_of_nonpos {q : Int} (hq : q ≤ 0) (name : String) (keep : Bool) :
    (Assembly.start q name keep : Except Failure (Assembly α R)) =
      refuse .noQubits [.programQubits q] := by
  unfold Assembly.start ModeSupply.ofQubits
  rw [if_pos hq]
  rfl

theorem start_overrun (hn : 0 < n) (h : Storage.limit < n * 16) (name : String) (keep : Bool) :
    (Assembly.start n name keep : Except Failure (Assembly α R)) =
      .error (.overrun .allocation) := by
  unfold Assembly.start ModeSupply.ofQubits
  rw [if_neg (by omega), Storage.reserve_eq_error h]
  rfl

theorem start_eq (hn : 0 < n) (h : n * 16 ≤ Storage.limit) (name : String) (keep : Bool) :
    (Assembly.start n name keep : Except Failure (Assembly α R)) = .ok (blank n name keep) := by
  have hempty : (Network.empty ((2 * n : Nat) : Int) name : Except Failure (Network α)) =
      .ok ⟨name, 2 * n, []⟩ := by
    unfold Network.empty
    rw [if_neg (by omega)]
    rfl
  unfold Assembly.start ModeSupply.ofQubits
  rw [if_neg (by omega), Storage.reserve_of_le h, ok_bind]
  change (Network.empty ((2 * n : Nat) : Int) name >>= _) = _
  rw [hempty]
  rfl

theorem finishProgram_result (prog : Program R) (name : String)
    (entries : List (Entry (Component α))) :
    (finishProgram s prog ((blank n name s.keepIdentity).afterAll ps entries)).result =
      (processorOf s.heralded name n ps entries).validate >>= fun _ =>
        .ok (processorOf s.heralded name n ps entries) := by
  have hfinish : Assembly.finish s.heralded ((blank n name s.keepIdentity).afterAll ps entries) =
      (do
        Assembly.ofExcept (processorOf s.heralded name n ps entries).validate
        return processorOf s.heralded name n ps entries : Assembly.Step α R (Processor α R))
        { (blank n name s.keepIdentity).afterAll ps entries with
          ledger := (ledgerOf n ps).sorted } := by
    have hw := (Assembly.aligned_afterAll (aligned_blank n name s.keepIdentity) ps entries).width
    unfold Assembly.finish
    rw [Assembly.bind_of_ok (Assembly.get_eq _), if_neg (not_not.mpr hw)]
    rfl
  unfold finishProgram
  rw [hfinish]
  cases (processorOf s.heralded name n ps entries).validate with
  | error f => rfl
  | ok u => rfl

variable [Element α]

theorem compile_eq_bind (prog : Program R) :
    compile s (some prog) =
      (do
        let a ← Assembly.start prog.qubits (networkName prog.name) s.keepIdentity
        let b ← (compileGates s 0 prog.gates a).result
        (finishProgram s prog b).result) := by
  unfold compile compileJournaled
  dsimp only
  cases Assembly.start (α := α) (R := R) prog.qubits (networkName prog.name) s.keepIdentity with
  | error f => rfl
  | ok a =>
    dsimp only
    rw [ok_bind]
    cases (compileGates s 0 prog.gates a).result with
    | error f => rfl
    | ok b => rfl

theorem compile_of_nonpos {prog : Program R} (hq : prog.qubits ≤ 0) :
    compile s (some prog) = refuse .noQubits [.programQubits prog.qubits] := by
  rw [compile_eq_bind, start_of_nonpos hq]
  rfl

theorem compile_of_limit_lt {prog : Program R} (hq : prog.qubits = n) (hn : 0 < n)
    (h : Storage.limit < n * 16) : compile s (some prog) = .error (.overrun .allocation) := by
  rw [compile_eq_bind, hq, start_overrun hn h]
  rfl

/-- Otherwise a compilation is the run of its gates from the blank construction, finished. -/
theorem compile_eq_run {prog : Program R} (hq : prog.qubits = n) (hn : 0 < n)
    (hstore : n * 16 ≤ Storage.limit) :
    compile s (some prog) =
      (compileGates s 0 prog.gates (blank n (networkName prog.name) s.keepIdentity)).result >>=
        fun a => (finishProgram s prog a).result := by
  rw [compile_eq_bind, hq, start_eq hn hstore, ok_bind]

theorem compile_of_placed (hr : s.registry.Built) {prog : Program R} (hq : prog.qubits = n)
    (hn : 0 < n) (h : Placed s n prog.gates ps) :
    compile s (some prog) =
      (processorOf s.heralded (networkName prog.name) n ps
        (ps.flatMap (Placement.entries s.keepIdentity))).validate >>= fun _ =>
          .ok (processorOf s.heralded (networkName prog.name) n ps
            (ps.flatMap (Placement.entries s.keepIdentity))) := by
  rw [compile_eq_run hq hn h.storable, ← finishProgram_result prog,
    compileGates_eq hr (aligned_blank ..) h.laysOut h.fits 0]
  rfl

theorem compile_eq (hr : s.registry.Built) {prog : Program R} (hq : prog.qubits = n) (hn : 0 < n)
    (hstore : n * 16 ≤ Storage.limit) (h : LaysOut s n (2 * n) prog.gates ps)
    (ho : ∀ p ∈ ps, ¬ p.Overruns) :
    ∃ ess, List.Forall₂ (Placement.Emits s.keepIdentity) ps ess ∧
      compile s (some prog) =
        (processorOf s.heralded (networkName prog.name) n ps ess.flatten).validate >>= fun _ =>
          .ok (processorOf s.heralded (networkName prog.name) n ps ess.flatten) := by
  have hs := h.sound hr (Nat.le_refl _)
  refine ⟨ps.map (Placement.entries s.keepIdentity), ?_, compile_of_placed hr hq hn ⟨hstore, h, ho⟩⟩
  rw [List.forall₂_map_right_iff, List.forall₂_same]
  exact fun p hp => (hs p hp).emits (ho p hp) _

theorem compile_error (hr : s.registry.Built) {prog : Program R} (hq : prog.qubits = n)
    (hn : 0 < n) {before rest : List (Gate R)} {g : Gate R} (h : Placed s n before ps)
    (hgates : prog.gates = before ++ g :: rest) {f : Failure} {c : Assembly α R}
    (hg : compileGate s g ((blank n (networkName prog.name) s.keepIdentity).afterAll ps
      (ps.flatMap (Placement.entries s.keepIdentity))) = .error f c) :
    compile s (some prog) = .error (f.noted (.gate before.length g.kind)) := by
  have hrun := compileGates_eq (a := blank n (networkName prog.name) s.keepIdentity) hr
    (aligned_blank ..) h.laysOut h.fits 0
  rw [compile_eq_run hq hn h.storable, hgates, compileGates_error hrun hg, Nat.zero_add]
  rfl

/-- A gate that stops decides the compilation of every program that comes to it, whatever follows
and whether identity permutations are kept or not. -/
theorem compile_stops_alike (hr : s.registry.Built) (hn : 0 < n) {before : List (Gate R)}
    {g : Gate R} (h : Placed s n before ps) (hstop : Stops s n (endOf (2 * n) ps) g) :
    ∃ f, (∀ (keep : Bool) (prog : Program R) (rest : List (Gate R)), prog.qubits = n →
        prog.gates = before ++ g :: rest →
        compile (s.keeping keep) (some prog) = .error (f.noted (.gate before.length g.kind))) ∧
      ((¬ ∃ f, GoodGate s n g f) ∧ Refuses s n g f ∨
        (∃ p, Lays s n (endOf (2 * n) ps) g p ∧ p.Overruns) ∧ f.IsOverrun) := by
  obtain ⟨f, hgate, hf⟩ := hstop.compileGate_error hr (Nat.le_add_right _ _)
  refine ⟨f, fun keep prog rest hq hgates => ?_, hf⟩
  obtain ⟨c, hg⟩ := hgate _ (Assembly.aligned_afterAll
    (aligned_blank n (networkName prog.name) keep) ps (ps.flatMap (Placement.entries keep))) rfl
  exact compile_error (s := s.keeping keep) hr hq hn ⟨h.storable, h.laysOut.keeping keep, h.fits⟩
    hgates hg

theorem compile_stops (hr : s.registry.Built) {prog : Program R} (hq : prog.qubits = n)
    (hn : 0 < n) (hstore : n * 16 ≤ Storage.limit) {before rest : List (Gate R)} {g : Gate R}
    (hgates : prog.gates = before ++ g :: rest) (h : LaysOut s n (2 * n) before ps)
    (ho : ∀ p ∈ ps, ¬ p.Overruns) (hstop : Stops s n (endOf (2 * n) ps) g) :
    ∃ f, compile s (some prog) = .error (f.noted (.gate before.length g.kind)) ∧
      ((¬ ∃ f, GoodGate s n g f) ∧ Refuses s n g f ∨
        (∃ p, Lays s n (endOf (2 * n) ps) g p ∧ p.Overruns) ∧ f.IsOverrun) := by
  obtain ⟨f, hall, hf⟩ := compile_stops_alike hr hn ⟨hstore, h, ho⟩ hstop
  exact ⟨f, hall s.keepIdentity prog rest hq hgates, hf⟩

/-- How far the compilation of a program comes. -/
inductive Extent (s : Settings α R) (prog : Program R) : Prop where
  | empty : prog.qubits ≤ 0 → Extent s prog
  | large {n : Nat} : prog.qubits = n → 0 < n → Storage.limit < n * 16 → Extent s prog
  | placed {n : Nat} {ps : List (Placement α R)} : prog.qubits = n → 0 < n →
      Placed s n prog.gates ps → Extent s prog
  | stopped {n : Nat} {before rest : List (Gate R)} {g : Gate R} {ps : List (Placement α R)} :
      prog.qubits = n → 0 < n → prog.gates = before ++ g :: rest → Placed s n before ps →
      Stops s n (endOf (2 * n) ps) g → Extent s prog

omit [Element α] in
theorem exists_extent (hr : s.registry.Built) (prog : Program R) : Extent s prog := by
  by_cases hq : prog.qubits ≤ 0
  · exact .empty hq
  obtain ⟨n, hn⟩ := Int.eq_ofNat_of_zero_le (Int.le_of_lt (Int.not_le.mp hq))
  have hpos : 0 < n := by omega
  by_cases hstore : n * 16 ≤ Storage.limit
  · rcases laysOut_or_stops (n := n) hr (2 * n) prog.gates with
      ⟨ps, hps, ho⟩ | ⟨before, g, rest, ps, hgates, hps, ho, hstop⟩
    · exact .placed hn hpos ⟨hstore, hps, ho⟩
    · exact .stopped hn hpos hgates ⟨hstore, hps, ho⟩ hstop
  · exact .large hn hpos (Nat.not_le.mp hstore)

/-- The processor is that of a whole layout, and it passed its checks. -/
structure Compiles (s : Settings α R) (prog : Program R) (n : Nat) (ps : List (Placement α R))
    (proc : Processor α R) : Prop where
  qubits : prog.qubits = n
  pos : 0 < n
  placed : Placed s n prog.gates ps
  valid : proc.validate = .ok ()
  eq : proc = processorOf s.heralded (networkName prog.name) n ps
    (ps.flatMap (Placement.entries s.keepIdentity))

/-- What a successful compilation is: a layout of all gates and its processor. -/
theorem compile_ok_iff (hr : s.registry.Built) {prog : Program R} {proc : Processor α R} :
    compile s (some prog) = .ok proc ↔ ∃ n ps, Compiles s prog n ps proc := by
  constructor
  · intro h
    cases exists_extent hr prog with
    | empty hq =>
      rw [compile_of_nonpos hq] at h
      cases h
    | large hn hpos hlarge =>
      rw [compile_of_limit_lt hn hpos hlarge] at h
      cases h
    | @placed n ps hn hpos hplaced =>
      rw [compile_of_placed hr hn hpos hplaced] at h
      obtain ⟨_, hvalid, heq⟩ := bind_eq_ok h
      obtain rfl := Except.ok.inj heq
      exact ⟨n, ps, hn, hpos, hplaced, hvalid, rfl⟩
    | stopped hn hpos hgates hplaced hstop =>
      obtain ⟨f, hf, _⟩ :=
        compile_stops hr hn hpos hplaced.storable hgates hplaced.laysOut hplaced.fits hstop
      rw [hf] at h
      cases h
  · rintro ⟨n, ps, h⟩
    rw [compile_of_placed hr h.qubits h.pos h.placed, ← h.eq, h.valid]
    rfl

theorem compile_eq_ok (hr : s.registry.Built) {prog : Program R} {proc : Processor α R}
    (h : compile s (some prog) = .ok proc) :
    ∃ (n : Nat) (ps : List (Placement α R)) (ess : List (List (Entry (Component α)))),
      prog.qubits = n ∧ 0 < n ∧ n * 16 ≤ Storage.limit ∧
      LaysOut s n (2 * n) prog.gates ps ∧ (∀ p ∈ ps, ¬ p.Overruns) ∧
      List.Forall₂ (Placement.Emits s.keepIdentity) ps ess ∧
      proc = processorOf s.heralded (networkName prog.name) n ps ess.flatten := by
  obtain ⟨n, ps, hq, hn, hp, _, _⟩ := (compile_ok_iff hr).mp h
  obtain ⟨ess, hess, hc⟩ := compile_eq hr hq hn hp.storable hp.laysOut hp.fits
  obtain ⟨_, _, heq⟩ := bind_eq_ok (hc.symm.trans h)
  exact ⟨n, ps, ess, hq, hn, hp.storable, hp.laysOut, hp.fits, hess, (Except.ok.inj heq).symm⟩

end Whole

end DualRail
