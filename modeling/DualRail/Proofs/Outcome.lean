import DualRail.Proofs.StandardCompilation

/-!
How a compilation ends. Every ending has its exact condition: no qubits, more qubits than can be
stored, a first gate that does not resolve, a first gate that overruns, heralds beside conditions, a
product that is no probability, or the processor of the layout. No other check of the compiler can
refuse a program.
-/

namespace DualRail

variable {α R : Type} [Quantity R]

/-- The causes the failure at a gate that does not resolve carries. -/
inductive Blames (s : Settings α R) (n : Nat) (g : Gate R) : List Cause → Prop where
  | unknown : s.registry.find? g.kind = none → Blames s n g [.unsupportedGate]
  | operands {e : GateEntry α R} : s.registry.find? g.kind = some e → ¬ OperandsFit n e g →
      Blames s n g [.invalidOperand]
  | parameters {e : GateEntry α R} {f : Failure} : s.registry.find? g.kind = some e →
      OperandsFit n e g → fragmentFor s e g = .error f → f.wraps .parameterCount = true →
      Blames s n g (.invalidOperand :: f.causes)
  | fragment {e : GateEntry α R} {f : Failure} : s.registry.find? g.kind = some e →
      OperandsFit n e g → fragmentFor s e g = .error f → f.wraps .parameterCount = false →
      Blames s n g f.causes

/-- Some fragment brings heralds, and some fragment brings conditions. -/
def Conflicting (ps : List (Placement α R)) : Prop :=
  (∃ p ∈ ps, p.fragment.heralded = true ∧ p.fragment.ancillas ≠ []) ∧
    ∃ p ∈ ps, p.fragment.postSelect = true

/-- The success probabilities multiplied from left to right. -/
def successOf (ps : List (Placement α R)) : R := (ps.map (·.fragment.success)).foldl (· * ·) 1

theorem success_ledgerOf (n : Nat) (ps : List (Placement α R)) :
    (ledgerOf n ps).success = successOf ps := by
  rw [ledgerOf, Ledger.success_recordAll]
  rfl

/-- The endings of a compilation with their conditions. -/
inductive Outcome (s : Settings α R) :
    Option (Program R) → Except Failure (Processor α R) → Prop where
  | noProgram : Outcome s none (refuse .noQubits [.noCircuit])
  | noQubits {prog : Program R} : prog.qubits ≤ 0 →
      Outcome s (some prog) (refuse .noQubits [.programQubits prog.qubits])
  | tooLarge {prog : Program R} {n : Nat} : prog.qubits = n → 0 < n → Storage.limit < n * 16 →
      Outcome s (some prog) (.error (.overrun .allocation))
  | refused {prog : Program R} {n : Nat} {before rest : List (Gate R)} {g : Gate R}
      {ps : List (Placement α R)} {f r : Failure} : prog.qubits = n → 0 < n →
      prog.gates = before ++ g :: rest → Placed s n before ps → (¬ ∃ f, GoodGate s n g f) →
      Refuses s n g f → r = f.noted (.gate before.length g.kind) →
      r.gate? = some (before.length, g.kind) → Blames s n g r.causes →
      Outcome s (some prog) (.error r)
  | overrun {prog : Program R} {n : Nat} {before rest : List (Gate R)} {g : Gate R}
      {ps : List (Placement α R)} {p : Placement α R} {f : Failure} : prog.qubits = n → 0 < n →
      prog.gates = before ++ g :: rest → Placed s n before ps →
      Lays s n (endOf (2 * n) ps) g p → p.Overruns → f.IsOverrun →
      Outcome s (some prog) (.error f)
  | conflict {prog : Program R} {n : Nat} {ps : List (Placement α R)} : prog.qubits = n → 0 < n →
      Placed s n prog.gates ps → Conflicting ps →
      Outcome s (some prog) (refuse .conflictingConditions [])
  | improbable {prog : Program R} {n : Nat} {ps : List (Placement α R)} : prog.qubits = n →
      0 < n → Placed s n prog.gates ps → ¬ Conflicting ps →
      (Quantity.le (successOf ps) 0 || Quantity.lt 1 (successOf ps)) = true →
      Outcome s (some prog)
        (refuse .invalidProbability [.probability (Quantity.shortest (successOf ps))])
  | done {prog : Program R} {n : Nat} {ps : List (Placement α R)}
      {entries : List (Entry (Component α))} : prog.qubits = n → 0 < n →
      Placed s n prog.gates ps → ¬ Conflicting ps →
      (Quantity.le (successOf ps) 0 || Quantity.lt 1 (successOf ps)) = false →
      Outcome s (some prog)
        (.ok (processorOf s.heralded (networkName prog.name) n ps entries))

section Refusal

variable {s : Settings α R} {n : Nat} {g : Gate R} {f : Failure}

theorem Failure.noted_of_not_overrun (h : ¬ f.IsOverrun) (note : Note) :
    f.noted note = { f with notes := note :: f.notes } := by
  obtain ⟨notes, root⟩ := f
  cases root with
  | overrun o => exact absurd ⟨o, rfl⟩ h
  | _ => rfl

theorem Failure.gate?_noted (h : ¬ f.IsOverrun) (index : Nat) (kind : String) :
    (f.noted (.gate index kind)).gate? = some (index, kind) := by
  rw [Failure.noted_of_not_overrun h]
  rfl

theorem Failure.causes_noted_gate (h : ¬ f.IsOverrun) (index : Nat) (kind : String) :
    (f.noted (.gate index kind)).causes = f.causes := by
  rw [Failure.noted_of_not_overrun h]
  rfl

theorem Failure.causes_noted_because (h : ¬ f.IsOverrun) (c : Cause) :
    (f.noted (.because c)).causes = c :: f.causes := by
  rw [Failure.noted_of_not_overrun h]
  rfl

theorem Failure.causes_of {c : Cause} {notes : List Note}
    (h : ∀ note ∈ notes, ∀ c, note ≠ .because c) : (Failure.of c notes).causes = [c] := by
  unfold Failure.causes Failure.of
  simp only
  rw [List.filterMap_eq_nil_iff.mpr, List.nil_append]
  intro note hnote
  cases note with
  | because c => exact absurd rfl (h _ hnote c)
  | _ => rfl

/-- Lookups that fail do so with a refusal. -/
def LookupReturns (s : Settings α R) (g : Gate R) : Prop :=
  ∀ e f, s.registry.find? g.kind = some e → fragmentFor s e g = .error f → ¬ f.IsOverrun

theorem Refuses.not_overrun (h : Refuses s n g f) (hl : LookupReturns s g) : ¬ f.IsOverrun := by
  cases h with
  | unknown _ => rintro ⟨o, ho⟩; cases ho
  | operands notes _ _ _ => rintro ⟨o, ho⟩; cases ho
  | @parameters e f he _ hf _ =>
    have hn := hl e f he hf
    rw [Failure.noted_of_not_overrun hn]
    exact hn
  | fragment he _ hf _ => exact hl _ _ he hf

theorem Refuses.blames (h : Refuses s n g f) (hl : LookupReturns s g) : Blames s n g f.causes := by
  cases h with
  | unknown he => exact .unknown he
  | operands notes he hfit hnotes =>
    rw [Failure.causes_of hnotes]
    exact .operands he hfit
  | parameters he hfit hf hw =>
    rw [Failure.causes_noted_because (hl _ _ he hf)]
    exact .parameters he hfit hf hw
  | fragment he hfit hf hw => exact .fragment he hfit hf hw

end Refusal

section Checks

variable {s : Settings α R} {n : Nat} {gs : List (Gate R)} {ps : List (Placement α R)}

theorem heralds_isEmpty_iff :
    (ledgerOf n ps).heralds.isEmpty = true ↔
      ¬ ∃ p ∈ ps, p.fragment.heralded = true ∧ p.fragment.ancillas ≠ [] := by
  rw [ledgerOf, Ledger.heralds_recordAll]
  change (([] : List Herald) ++ _).isEmpty = true ↔ _
  rw [List.nil_append, List.isEmpty_iff, List.flatMap_eq_nil_iff]
  constructor
  · rintro h ⟨p, hp, hher, hanc⟩
    obtain ⟨anc, hmem⟩ := List.exists_mem_of_ne_nil _ hanc
    obtain ⟨j, hj⟩ := List.mem_iff_getElem?.mp hmem
    have hin : (⟨(p.base + j : Nat), anc.herald⟩ : Herald) ∈ p.heralds :=
      Placement.mem_heralds.mpr ⟨hher, j, anc, hj, rfl⟩
    rw [h p hp] at hin
    cases hin
  · intro h p hp
    rw [List.eq_nil_iff_forall_not_mem]
    intro x hx
    obtain ⟨hher, j, anc, hj, _⟩ := Placement.mem_heralds.mp hx
    exact h ⟨p, hp, hher, List.ne_nil_of_mem (List.mem_of_getElem? hj)⟩

theorem conditions_isEmpty_iff (hs : ∀ p ∈ ps, p.Sound n) :
    (ledgerOf n ps).sorted.conditions.isEmpty = true ↔
      ¬ ∃ p ∈ ps, p.fragment.postSelect = true := by
  rw [List.isEmpty_iff, List.eq_nil_iff_forall_not_mem]
  constructor
  · rintro h ⟨p, hp, hpost⟩
    obtain ⟨q, hq⟩ := List.exists_mem_of_ne_nil _ (hs p hp).nonempty
    exact h _ (mem_conditions_ledgerOf.mpr
      ⟨p, hp, Placement.mem_conditions.mpr ⟨hpost, q, hq, rfl⟩⟩)
  · intro h c hc
    obtain ⟨p, hp, hc⟩ := mem_conditions_ledgerOf.mp hc
    exact h ⟨p, hp, (Placement.mem_conditions.mp hc).1⟩

theorem conflicting_iff (hs : ∀ p ∈ ps, p.Sound n) :
    (!(ledgerOf n ps).heralds.isEmpty && !(ledgerOf n ps).sorted.conditions.isEmpty) = true ↔
      Conflicting ps := by
  rw [Bool.and_eq_true, Bool.not_eq_true', Bool.not_eq_true', Bool.eq_false_iff, Bool.eq_false_iff,
    ne_eq, ne_eq, heralds_isEmpty_iff, conditions_isEmpty_iff hs, not_not, not_not]
  rfl

end Checks

variable [Element α]

section Endings

variable {s : Settings α R} {n : Nat} {ps : List (Placement α R)} {prog : Program R}

theorem compile_placed (hr : s.registry.Built) (hq : prog.qubits = n) (hn : 0 < n)
    (h : Placed s n prog.gates ps) : Outcome s (some prog) (compile s (some prog)) := by
  have hs := h.laysOut.sound hr (Nat.le_refl _)
  obtain ⟨ess, _, hc⟩ := compile_eq hr hq hn h.storable h.laysOut h.fits
  rw [validate_processorOf h.laysOut hs h.storable, success_ledgerOf] at hc
  by_cases hconf : Conflicting ps
  · rw [if_pos ((conflicting_iff hs).mpr hconf)] at hc
    rw [hc]
    exact .conflict hq hn h hconf
  · rw [if_neg fun hb => hconf ((conflicting_iff hs).mp hb)] at hc
    cases hprob : Quantity.le (successOf ps) 0 || Quantity.lt 1 (successOf ps) with
    | true =>
      rw [Processor.checkProbability, if_pos hprob] at hc
      rw [hc]
      exact .improbable hq hn h hconf hprob
    | false =>
      rw [Processor.checkProbability, if_neg (by rw [hprob]; simp)] at hc
      rw [hc]
      exact .done hq hn h hconf hprob

theorem compile_stopped (hr : s.registry.Built) (hq : prog.qubits = n) (hn : 0 < n)
    {before rest : List (Gate R)} {g : Gate R} (hgates : prog.gates = before ++ g :: rest)
    (h : Placed s n before ps) (hstop : Stops s n (endOf (2 * n) ps) g)
    (hl : LookupReturns s g) : Outcome s (some prog) (compile s (some prog)) := by
  obtain ⟨f, hf, ⟨hbad, href⟩ | ⟨⟨p, hlay, hover⟩, ho⟩⟩ :=
    compile_stops hr hq hn h.storable hgates h.laysOut h.fits hstop
  · have hn' := href.not_overrun hl
    have hb := href.blames hl
    rw [← Failure.causes_noted_gate hn' before.length g.kind] at hb
    rw [hf]
    exact .refused hq hn hgates h hbad href rfl (Failure.gate?_noted hn' _ _) hb
  · rw [hf, ho.noted_eq]
    exact .overrun hq hn hgates h hlay hover ho

end Endings

/-- Every compilation ends in one of the outcomes. -/
theorem compile_outcome {s : Settings α R} (hr : s.registry.Built) (prog : Option (Program R))
    (hl : ∀ p ∈ prog, ∀ g ∈ p.gates, LookupReturns s g) : Outcome s prog (compile s prog) := by
  cases prog with
  | none => exact .noProgram
  | some prog =>
    by_cases hq : prog.qubits ≤ 0
    · have hstart : compile s (some prog) = refuse .noQubits [.programQubits prog.qubits] := by
        unfold compile compileJournaled
        simp only
        rw [start_of_nonpos hq]
        rfl
      rw [hstart]
      exact .noQubits hq
    obtain ⟨n, hn⟩ := Int.eq_ofNat_of_zero_le (Int.le_of_lt (Int.not_le.mp hq))
    have hpos : 0 < n := by omega
    by_cases hstore : n * 16 ≤ Storage.limit
    · rcases laysOut_or_stops (n := n) hr (2 * n) prog.gates with
        ⟨ps, hps, ho⟩ | ⟨before, g, rest, ps, hgates, hps, ho, hstop⟩
      · exact compile_placed hr hn hpos ⟨hstore, hps, ho⟩
      · exact compile_stopped hr hn hpos hgates ⟨hstore, hps, ho⟩ hstop
          (hl prog rfl g (by rw [hgates]; simp))
    · have hstart : compile s (some prog) = .error (.overrun .allocation) := by
        unfold compile compileJournaled
        simp only
        rw [hn, start_overrun hpos (Nat.not_le.mp hstore)]
      rw [hstart]
      exact .tooLarge hn hpos (Nat.not_le.mp hstore)

theorem compile_outcome_sample :
    (∀ g ∈ Standard.sampleProgram.gates, LookupReturns Settings.standard g) ∧
      Outcome Settings.standard (some Standard.sampleProgram)
        (compile Settings.standard (some Standard.sampleProgram)) := by
  have hl : ∀ g ∈ Standard.sampleProgram.gates, LookupReturns Settings.standard g := by
    intro g hg e f he hf
    obtain ⟨f', e', he', _, hf'⟩ := Standard.good_sampleProgram g hg
    obtain rfl := Option.some.inj (he.symm.trans he')
    rw [hf'] at hf
    cases hf
  refine ⟨hl, compile_outcome Standard.standard_built _ ?_⟩
  rintro p ⟨⟩
  exact hl

section Far

def farFragment : Fragment (Device ℝ) ℝ :=
  { circuit := some ⟨"far", 4, [⟨9223372036854775807, .perm .crossing⟩]⟩, qubitOffsets := [0, 2],
    ancillas := [], heralded := false, postSelect := false, success := 1 }

noncomputable def farEntry : GateEntry (Device ℝ) ℝ :=
  { kind := "far", aliases := [], arity := 2, params := 0, summary := ""
    build := some fun _ => .ok farFragment }

theorem asPermutation_farFragment : ∃ f, farFragment.asPermutation = .error f := by
  have hid : Permutation.identity ((4 : Nat) : Int) = .ok (.one 3) :=
    Permutation.identity_of_le (by decide) (by decide)
  have hlift : Permutation.crossing.lift ((4 : Nat) : Int) ((9223372036854775807 : Nat) : Int) =
      .error (.overrun (.index 9223372036854775807 4)) := by
    unfold Permutation.lift
    rw [if_neg (by decide), if_neg (by decide), Storage.reserve_of_le (by decide), ok_bind,
      if_neg (by decide)]
    rfl
  refine ⟨.overrun (.index 9223372036854775807 4), ?_⟩
  change (Component.net "far" 4 [⟨9223372036854775807, .perm .crossing⟩] :
    Component (Device ℝ)).asPermutation = _
  rw [Component.asPermutation, hid, settled_ok, ok_bind]
  simp only
  rw [entriesPermutation, Component.asPermutation, ok_bind]
  simp only
  rw [hlift]
  rfl

theorem farEntry_registry :
    ∃ r : Registry (Device ℝ) ℝ, r.Built ∧ farEntry ∈ r.entries := by
  have hcanonical : farEntry.canonical = farEntry := by
    have hname : canonicalName "far" = "far" := by decide
    simp only [GateEntry.canonical, farEntry, hname, List.map_nil]
  exact Registry.exists_of_entry hcanonical rfl (by simp [GateEntry.names, farEntry])
    (List.nodup_singleton "far")

/-- All gates of a program can be good and the compilation overrun all the same. -/
theorem good_program_overruns :
    ∃ (s : Settings (Device ℝ) ℝ) (prog : Program ℝ), s.registry.Built ∧ prog.qubits = 2 ∧
      (∀ g ∈ prog.gates, ∃ f, GoodGate s 2 g f) ∧
      ∃ f, compile s (some prog) = .error f ∧ f.IsOverrun := by
  obtain ⟨r, hr, hmem⟩ := farEntry_registry
  have hname : canonicalName "far" = "far" := by decide
  have hgood : GoodGate (Settings.ofRegistry r) 2 ⟨"far", [0, 1], []⟩ farFragment := by
    refine ⟨farEntry, Registry.find?_of_mem hmem ?_, ⟨rfl, by simp, by simp⟩, ?_⟩
    · rw [hname]
      exact List.mem_singleton_self _
    · rw [fragmentFor]
      change r.lookup farEntry.kind _ = _
      rw [hr.lookup_kind hmem]
      exact Registry.buildFragment_eq_ok.mpr ⟨rfl, _, rfl, rfl,
        Standard.validate_of_bounds ⟨one_pos, le_refl _⟩ rfl⟩
  obtain ⟨p, hlay, hp⟩ := hgood.lays hr 4
  have hdirect : p.isDirect = false := by
    rw [Placement.isDirect, hlay.qubits]
    rfl
  have hover : p.Overruns := .inr ⟨hdirect, .inr (.inr (hp ▸ asPermutation_farFragment))⟩
  have hgates : (⟨"", 2, [⟨"far", [0, 1], []⟩]⟩ : Program ℝ).gates =
      [] ++ ⟨"far", [0, 1], []⟩ :: [] := rfl
  obtain ⟨f, hf, ⟨hbad, _⟩ | ⟨_, ho⟩⟩ := compile_stops (s := Settings.ofRegistry r) (n := 2) hr rfl
    (by decide) (by decide) hgates .nil (by simp) (.inr ⟨p, hlay, hover⟩)
  · exact absurd ⟨_, hgood⟩ hbad
  · rw [ho.noted_eq] at hf
    refine ⟨Settings.ofRegistry r, _, hr, rfl, fun g hg => ?_, f, hf, ho⟩
    obtain rfl := List.mem_singleton.mp hg
    exact ⟨_, hgood⟩

end Far

end DualRail
