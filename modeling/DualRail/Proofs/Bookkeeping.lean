import DualRail.Proofs.StandardCompilation

/-!
The books of a compiled processor. Every gate gets new modes of its own, one interval after the
other above the rails of the qubits; sources, heralds and conditions hold what the fragments ask for
on just these modes, in ascending order and nothing twice.
-/

namespace DualRail

variable {α R : Type}

/-- Mode `x` holds the ancilla `anc` of gate `t`, which has the placement `p`: counted from the
first mode after those of the gates before. -/
def Holds [Quantity R] (n : Nat) (ps : List (Placement α R)) (t : Nat) (p : Placement α R)
    (anc : Ancilla) (x : Nat) : Prop :=
  ps[t]? = some p ∧
    ∃ j : Nat, p.fragment.ancillas[j]? = some anc ∧ x = endOf (2 * n) (ps.take t) + j

/-- What the records of a processor are. -/
structure Books [Quantity R] (n : Nat) (ps : List (Placement α R)) (proc : Processor α R) :
    Prop where
  width : proc.width = 2 * n + (ps.map fun p => p.fragment.ancillas.length).sum
  qubitModes : proc.qubitModes = (List.range n).map fun i : Nat => ⟨2 * i, 2 * i + 1⟩
  sources_ascend : (proc.sources.map (·.mode)).Pairwise (· < ·)
  mem_sources : ∀ src, src ∈ proc.sources ↔
    (∃ i, i < n ∧ src = ⟨(2 * i : Nat), 1⟩) ∨
      ∃ t p anc x, Holds n ps t p anc x ∧ 0 < anc.photons ∧ src = ⟨(x : Nat), anc.photons⟩
  heralds_ascend : (proc.heralds.map (·.mode)).Pairwise (· < ·)
  mem_heralds : ∀ h, h ∈ proc.heralds ↔
    ∃ t p anc x, Holds n ps t p anc x ∧ p.fragment.heralded = true ∧ h = ⟨(x : Nat), anc.herald⟩
  conditions_ascend : proc.conditions.Pairwise fun c d => c.modes.headD 0 < d.modes.headD 0
  mem_conditions : ∀ c, c ∈ proc.conditions ↔
    ∃ p ∈ ps, p.fragment.postSelect = true ∧
      ∃ q ∈ p.qubits, c = ⟨[((2 * q : Nat) : Int), ((2 * q : Nat) : Int) + 1], 1⟩

section Records

variable [Quantity R] {s : Settings α R} {n : Nat} {gs : List (Gate R)}
  {ps : List (Placement α R)}

theorem exists_holds_iff (h : LaysOut s n (2 * n) gs ps)
    {P : Placement α R → Ancilla → Nat → Prop} :
    (∃ t p anc x, Holds n ps t p anc x ∧ P p anc x) ↔
      ∃ p ∈ ps, ∃ (j : Nat) (anc : Ancilla), p.fragment.ancillas[j]? = some anc ∧
        P p anc (p.base + j) := by
  constructor
  · rintro ⟨t, p, anc, x, ⟨hp, j, hj, rfl⟩, hP⟩
    rw [← h.base_eq hp] at hP
    exact ⟨p, List.mem_of_getElem? hp, j, anc, hj, hP⟩
  · rintro ⟨p, hmem, j, anc, hj, hP⟩
    obtain ⟨t, hp⟩ := List.mem_iff_getElem?.mp hmem
    rw [h.base_eq hp] at hP
    exact ⟨t, p, anc, _, ⟨hp, j, hj, rfl⟩, hP⟩

theorem mem_sources_ledgerOf (h : LaysOut s n (2 * n) gs ps) (src : Source) :
    src ∈ (ledgerOf n ps).sources ↔
      (∃ i, i < n ∧ src = ⟨(2 * i : Nat), 1⟩) ∨
        ∃ t p anc x, Holds n ps t p anc x ∧ 0 < anc.photons ∧ src = ⟨(x : Nat), anc.photons⟩ := by
  rw [exists_holds_iff h (P := fun _ anc x => 0 < anc.photons ∧ src = ⟨(x : Nat), anc.photons⟩),
    ledgerOf, Ledger.sources_recordAll, List.mem_append]
  refine or_congr ?_ ?_
  · rw [Ledger.ofQubits, List.map_map, List.mem_map]
    constructor
    · rintro ⟨i, hi, rfl⟩
      exact ⟨i, List.mem_range.mp hi, rfl⟩
    · rintro ⟨i, hi, rfl⟩
      exact ⟨i, List.mem_range.mpr hi, rfl⟩
  · rw [List.mem_flatMap]
    exact exists_congr fun p => and_congr_right fun _ => Placement.mem_sources

theorem mem_heralds_ledgerOf (h : LaysOut s n (2 * n) gs ps) (her : Herald) :
    her ∈ (ledgerOf n ps).heralds ↔
      ∃ t p anc x, Holds n ps t p anc x ∧ p.fragment.heralded = true ∧
        her = ⟨(x : Nat), anc.herald⟩ := by
  rw [exists_holds_iff h
      (P := fun p anc x => p.fragment.heralded = true ∧ her = ⟨(x : Nat), anc.herald⟩),
    ledgerOf, Ledger.heralds_recordAll]
  change her ∈ [] ++ _ ↔ _
  rw [List.nil_append, List.mem_flatMap]
  refine exists_congr fun p => and_congr_right fun _ => ?_
  rw [Placement.mem_heralds]
  constructor
  · rintro ⟨hh, j, anc, hj, rfl⟩
    exact ⟨j, anc, hj, hh, rfl⟩
  · rintro ⟨j, anc, hj, hh, rfl⟩
    exact ⟨hh, j, anc, hj, rfl⟩

/-- The processor of a layout keeps its books. -/
theorem books_processorOf (h : LaysOut s n (2 * n) gs ps) (heralded : Bool) (name : String)
    (entries : List (Entry (Component α))) :
    Books n ps (processorOf heralded name n ps entries) := by
  refine ⟨rfl, rfl, ?_, ?_, ?_, ?_, conditions_ascending, fun c => ?_⟩
  · change ((ledgerOf n ps).sorted.sources.map _).Pairwise _
    rw [h.sources_sorted]
    exact (ascending_of_sublist h.sources_sublist).1
  · change ∀ src, src ∈ (ledgerOf n ps).sorted.sources ↔ _
    rw [h.sources_sorted]
    exact mem_sources_ledgerOf h
  · change ((ledgerOf n ps).sorted.heralds.map _).Pairwise _
    rw [h.heralds_sorted]
    exact (ascending_of_sublist h.heralds_sublist).1
  · change ∀ her, her ∈ (ledgerOf n ps).sorted.heralds ↔ _
    rw [h.heralds_sorted]
    exact mem_heralds_ledgerOf h
  · change c ∈ (ledgerOf n ps).sorted.conditions ↔ _
    rw [mem_conditions_ledgerOf]
    exact exists_congr fun p => and_congr_right fun _ => Placement.mem_conditions

theorem LaysOut.newModes_fresh (h : LaysOut s n (2 * n) gs ps) :
    ps.Pairwise (fun p q => p.newModes.Disjoint q.newModes) ∧
      ∀ p ∈ ps, ∀ x ∈ p.newModes, 2 * n ≤ x ∧ x < endOf (2 * n) ps := by
  have hflat := h.flatMap_newModes
  have hnd : (ps.flatMap Placement.newModes).Nodup := by
    rw [hflat]
    exact List.nodup_range'
  refine ⟨(List.nodup_flatMap.mp hnd).2, fun p hp x hx => ?_⟩
  have hx : x ∈ ps.flatMap Placement.newModes := List.mem_flatMap.mpr ⟨p, hp, hx⟩
  rw [hflat] at hx
  exact List.mem_range'_1.mp hx

omit [Quantity R] in
theorem Placement.mem_newModes {p : Placement α R} {j : Nat} {a : Ancilla}
    (ha : p.fragment.ancillas[j]? = some a) : p.base + j ∈ p.newModes := by
  have hlt := (List.getElem?_eq_some_iff.mp ha).1
  exact List.mem_range'_1.mpr ⟨Nat.le_add_right _ _, Nat.add_lt_add_left hlt _⟩

theorem LaysOut.ancilla_unique (h : LaysOut s n (2 * n) gs ps) {p q : Placement α R} (hp : p ∈ ps)
    (hq : q ∈ ps) {j k : Nat} {a b : Ancilla} (ha : p.fragment.ancillas[j]? = some a)
    (hb : q.fragment.ancillas[k]? = some b) (he : p.base + j = q.base + k) : a = b := by
  have hsymm : Std.Symm fun p q : Placement α R => p.newModes.Disjoint q.newModes :=
    ⟨fun _ _ h => h.symm⟩
  have hsame : p = q := by
    by_contra hne
    have hdisjoint := h.newModes_fresh.1.forall hp hq hne
    exact hdisjoint (Placement.mem_newModes ha) (he ▸ Placement.mem_newModes hb)
  subst hsame
  obtain rfl : j = k := Nat.add_left_cancel he
  exact Option.some.inj (ha.symm.trans hb)

theorem LaysOut.exists_ancilla (h : LaysOut s n (2 * n) gs ps) {x : Nat} (hlow : 2 * n ≤ x)
    (hhigh : x < endOf (2 * n) ps) :
    ∃ p ∈ ps, ∃ (j : Nat) (a : Ancilla), p.fragment.ancillas[j]? = some a ∧ x = p.base + j := by
  have hmem : x ∈ ps.flatMap Placement.newModes := by
    rw [h.flatMap_newModes]
    exact List.mem_range'_1.mpr ⟨hlow, hhigh⟩
  obtain ⟨p, hp, hx⟩ := List.mem_flatMap.mp hmem
  obtain ⟨hbase, hlt⟩ := List.mem_range'_1.mp hx
  obtain ⟨j, rfl⟩ := Nat.exists_eq_add_of_le hbase
  exact ⟨p, hp, j, _, List.getElem?_eq_getElem (Nat.lt_of_add_lt_add_left hlt), rfl⟩

end Records

section Input

theorem filter_mode {sources : List Source} (hnd : (sources.map (·.mode)).Nodup)
    (hone : ∀ src ∈ sources, src.photons = 1) (i : Int) :
    sources.filter (·.mode == i) = if ⟨i, 1⟩ ∈ sources then [⟨i, 1⟩] else [] := by
  induction sources with
  | nil => rfl
  | cons src sources ih =>
    rw [List.map_cons, List.nodup_cons] at hnd
    obtain ⟨hfirst, hrest⟩ := List.forall_mem_cons.mp hone
    obtain ⟨mode, photons⟩ := src
    obtain rfl : photons = 1 := hfirst
    rw [List.filter_cons, ih hnd.2 hrest]
    by_cases hi : mode = i
    · subst hi
      have hout : (⟨mode, 1⟩ : Source) ∉ sources := fun hmem =>
        hnd.1 (List.mem_map_of_mem (f := fun src : Source => src.mode) hmem)
      simp [hout]
    · simp [hi, Ne.symm hi]

theorem getD_map_range {β : Type} (f : Nat → β) (d : β) {m i : Nat} (hi : i < m) :
    ((List.range m).map f).getD i d = f i := by
  rw [List.getD_eq_getElem?_getD, List.getElem?_map, List.getElem?_range hi]
  rfl

theorem inputState_of_sources {proc : Processor α R} (hnd : (proc.sources.map (·.mode)).Nodup)
    (hone : ∀ src ∈ proc.sources, src.photons = 1) {i : Nat} (hi : i < proc.width) :
    proc.inputState.getD i 0 = if ⟨i, 1⟩ ∈ proc.sources then 1 else 0 := by
  rw [Processor.inputState, getD_map_range _ _ hi, filter_mode hnd hone]
  split
  · rfl
  · rfl

end Input

section Allotment

variable [Element α] [Quantity R]

/-- Once the gates before gate `t` are compiled, this gate resolves to the fragment of its
placement, and the new modes it is handed are the interval after those of the gates before. -/
def Allots (s : Settings α R) (prog : Program R) (n : Nat) (ps : List (Placement α R)) (t : Nat)
    (g : Gate R) (p : Placement α R) : Prop :=
  ∃ (a₀ a b : Assembly α R) (r : ResolvedGate α R),
    Assembly.start prog.qubits (networkName prog.name) s.keepIdentity = .ok a₀ ∧
    (compileGates s 0 (prog.gates.take t) a₀).result = .ok a ∧
    Assembly.resolve s.registry s.heralded g a = .ok r b ∧ r.fragment = p.fragment ∧
    railsOf r.ancillas =
      (List.range' (endOf (2 * n) (ps.take t)) p.fragment.ancillas.length).map Int.ofNat

theorem allots_of_laysOut {s : Settings α R} (hr : s.registry.Built) {prog : Program R} {n : Nat}
    {ps : List (Placement α R)} (hq : prog.qubits = n) (hn : 0 < n)
    (hstore : n * 16 ≤ Storage.limit) (h : LaysOut s n (2 * n) prog.gates ps)
    (ho : ∀ p ∈ ps, ¬ p.Overruns) {t : Nat} {g : Gate R} (hg : prog.gates[t]? = some g) :
    ∃ p, ps[t]? = some p ∧ Allots s prog n ps t g p := by
  obtain ⟨p, hp, hlay, hbefore⟩ := h.lays hg
  have ha : (blank n (networkName prog.name) s.keepIdentity : Assembly α R).Aligned n :=
    aligned_blank ..
  have hrun := compileGates_eq hr ha hbefore (fun q hq => ho q (List.mem_of_mem_take hq)) 0
  have hb := Assembly.aligned_afterAll ha (ps.take t)
    ((ps.take t).flatMap (Placement.entries s.keepIdentity))
  have hsound := hlay.sound hr (Nat.le_add_right _ _)
  have hpairs : p.fragment.ancillaPairs * 16 ≤ Storage.limit :=
    Nat.not_lt.mp fun hlt => ho p (List.mem_of_getElem? hp) (.inl hlt)
  obtain ⟨e, he, hfit, hf⟩ := hlay.good
  have hres := Assembly.resolve_eq hb.qubits he hfit hf
  rw [Assembly.allotment_eq hlay hsound rfl hpairs] at hres
  refine ⟨p, hp, _, _, _, _, by rw [hq, start_eq hn hstore], hrun, hres, rfl, ?_⟩
  rw [← hlay.base]
  exact hsound.railsOf_newPairs

/-- Compilation keeps its books: every gate is handed an interval of new modes of its own, and the
records of the processor are what the fragments ask for on these modes. -/
theorem compile_keeps_books {s : Settings α R} (hr : s.registry.Built) {prog : Program R}
    {proc : Processor α R} (h : compile s (some prog) = .ok proc) :
    ∃ (n : Nat) (ps : List (Placement α R)), prog.qubits = n ∧
      LaysOut s n (2 * n) prog.gates ps ∧ Books n ps proc ∧
      ps.Pairwise (fun p q => p.newModes.Disjoint q.newModes) ∧
      (∀ p ∈ ps, ∀ x ∈ p.newModes, 2 * n ≤ x ∧ x < proc.width) ∧
      ∀ t g, prog.gates[t]? = some g →
        ∃ p, ps[t]? = some p ∧
          p.newModes = List.range' (endOf (2 * n) (ps.take t)) p.fragment.ancillas.length ∧
          Allots s prog n ps t g p := by
  obtain ⟨n, ps, ess, hq, hn, hstore, hps, ho, _, rfl⟩ := compile_eq_ok hr h
  obtain ⟨hdisjoint, hfresh⟩ := hps.newModes_fresh
  refine ⟨n, ps, hq, hps, books_processorOf hps _ _ _, hdisjoint, hfresh, fun t g hg => ?_⟩
  obtain ⟨p, hp, hall⟩ := allots_of_laysOut hr hq hn hstore hps ho hg
  refine ⟨p, hp, ?_, hall⟩
  rw [Placement.newModes, hps.base_eq hp]

end Allotment

theorem compile_keeps_books_sample :
    ∃ (proc : Processor (Device ℝ) ℝ) (n : Nat) (ps : List (Placement (Device ℝ) ℝ)),
      compile Settings.standard (some Standard.sampleProgram) = .ok proc ∧
      Standard.sampleProgram.qubits = n ∧
      LaysOut Settings.standard n (2 * n) Standard.sampleProgram.gates ps ∧ Books n ps proc := by
  obtain ⟨proc, h⟩ := Standard.compile_sampleProgram
  obtain ⟨n, ps, hq, hps, hbooks, _⟩ := compile_keeps_books Standard.standard_built h
  exact ⟨proc, n, ps, h, hq, hps, hbooks⟩

end DualRail
