import DualRail.Proofs.Bookkeeping

/-!
What the choice of operands cannot change. A placement without the identity of its qubits still
determines the new modes, the photons and heralds on them, the success probability and, with
identities kept, the form of every entry; only conditions follow the operands, and a relabelling of
the qubits relabels them.
-/

namespace DualRail

variable {α R : Type}

/-- The same kind on the same parameters; the operands are free. -/
structure Gate.SameCall (g g' : Gate R) : Prop where
  kind : g.kind = g'.kind
  params : g.params = g'.params

/-- What an entry of a compiled network is. -/
inductive Form (α : Type) where
  | rewiring
  | nested (circuit : Network α)

inductive Entry.HasForm : Entry (Component α) → Form α → Prop where
  | rewiring (offset : Nat) (p : Permutation) : HasForm ⟨offset, .perm p⟩ .rewiring
  | nested (offset : Nat) (circuit : Network α) :
      HasForm ⟨offset, circuit.toComponent⟩ (.nested circuit)

/-- The entries of the network are, one by one, of the given forms. -/
def Processor.HasForms (proc : Processor α R) (forms : List (Form α)) : Prop :=
  ∃ network, proc.network = some network ∧ List.Forall₂ Entry.HasForm network.entries forms

/-- What two processors have in common that an observer of the resources sees. -/
structure Processor.SameResources (proc proc' : Processor α R) : Prop where
  width : proc.width = proc'.width
  sources : proc.sources = proc'.sources
  heralds : proc.heralds = proc'.heralds
  success : proc.success = proc'.success

def Gate.relabelled (σ : Int → Int) (g : Gate R) : Gate R := { g with qubits := g.qubits.map σ }

theorem Gate.sameCall_relabelled (σ : Int → Int) (g : Gate R) : g.SameCall (g.relabelled σ) :=
  ⟨rfl, rfl⟩

def relabelledMode (σ : Int → Int) (x : Int) : Int := 2 * σ (x / 2) + x % 2

def Condition.relabelled (σ : Int → Int) (c : Condition) : Condition :=
  { c with modes := c.modes.map (relabelledMode σ) }

def Condition.onQubit (q : Int) : Condition := ⟨[2 * q, 2 * q + 1], 1⟩

theorem Condition.relabelled_onQubit (σ : Int → Int) (q : Int) :
    (onQubit q).relabelled σ = onQubit (σ q) := by
  have hzero : relabelledMode σ (2 * q) = 2 * σ q := by
    rw [relabelledMode, show 2 * q / 2 = q by omega, show 2 * q % 2 = 0 by omega, add_zero]
  have hone : relabelledMode σ (2 * q + 1) = 2 * σ q + 1 := by
    rw [relabelledMode, show (2 * q + 1) / 2 = q by omega, show (2 * q + 1) % 2 = 1 by omega]
  simp only [onQubit, relabelled, List.map_cons, List.map_nil, hzero, hone]

namespace Placement

def anonymous (p : Placement α R) : Placement α R :=
  { p with qubits := List.replicate p.qubits.length 0 }

variable {p : Placement α R}

theorem sources_anonymous (p : Placement α R) : p.anonymous.sources = p.sources := rfl

theorem heralds_anonymous (p : Placement α R) : p.anonymous.heralds = p.heralds := rfl

/-- The forms of the entries, with identities kept: a circuit where it stands, one rewiring, or a
circuit between two. -/
def forms (p : Placement α R) : List (Form α) :=
  if p.isDirect then [.nested p.circuit]
  else
    match p.fragment.asPermutation with
    | .ok (some _) => [.rewiring]
    | _ => [.rewiring, .nested p.circuit, .rewiring]

theorem forms_anonymous (p : Placement α R) : p.anonymous.forms = p.forms := by
  have hdirect : p.anonymous.isDirect = p.isDirect := by simp [isDirect, anonymous]
  rw [forms, hdirect]
  rfl

theorem hasForm_permutationEntries (π : Permutation) :
    List.Forall₂ Entry.HasForm (permutationEntries true π : List (Entry (Component α)))
      [.rewiring] := by
  rw [permutationEntries, Bool.not_true, Bool.and_false, if_neg Bool.false_ne_true]
  exact .cons (.rewiring 0 π) .nil

theorem hasForm_foldedEntries (π : Permutation) :
    List.Forall₂ Entry.HasForm (foldedEntries true π : List (Entry (Component α)))
      [.rewiring] := by
  unfold foldedEntries
  cases π.trim with
  | none => exact hasForm_permutationEntries π
  | some core => exact .cons (.rewiring core.1 core.2) .nil

theorem Course.hasForm [Quantity R] (h : p.Course) :
    List.Forall₂ Entry.HasForm (p.entries true) p.forms := by
  cases h with
  | direct hd _ _ hentries =>
    rw [hentries, forms, hd, if_pos rfl]
    exact .cons (.nested _ _) .nil
  | folded hd _ _ hi _ _ _ hentries =>
    rw [hentries, forms, hd, if_neg Bool.false_ne_true, hi]
    exact hasForm_foldedEntries _
  | @routed r hd _ _ hi hentries =>
    rw [hentries, forms, hd, if_neg Bool.false_ne_true, hi]
    exact List.rel_append (List.rel_append (hasForm_permutationEntries r.forward)
      (.cons (.nested _ _) .nil)) (hasForm_permutationEntries r.inverse)

end Placement

section Layouts

variable [Quantity R] {s : Settings α R} {n : Nat}

theorem GoodGate.unique_of_sameCall {g g' : Gate R} {f f' : Fragment α R} (hg : g.SameCall g')
    (h : GoodGate s n g f) (h' : GoodGate s n g' f') : f = f' := by
  obtain ⟨e, he, _, hf⟩ := h
  obtain ⟨e', he', _, hf'⟩ := h'
  rw [hg.kind, he'] at he
  obtain rfl := Option.some.inj he
  unfold fragmentFor at hf hf'
  rw [hg.params, hf'] at hf
  exact (Except.ok.inj hf).symm

/-- Gates of the same call get places that differ in their qubits only. -/
theorem Lays.anonymous_eq {base : Nat} {g g' : Gate R} {p p' : Placement α R}
    (hg : g.SameCall g') (h : Lays s n base g p) (h' : Lays s n base g' p') :
    p.anonymous = p'.anonymous := by
  have hfragment : p.fragment = p'.fragment := h.good.unique_of_sameCall hg h'.good
  have hcircuit : p.circuit = p'.circuit :=
    Option.some.inj (by rw [← h.circuit, ← h'.circuit, hfragment])
  have hlength : g.qubits.length = g'.qubits.length := by
    obtain ⟨e, he, hfit, _⟩ := h.good
    obtain ⟨e', he', hfit', _⟩ := h'.good
    rw [hg.kind, he'] at he
    obtain rfl := Option.some.inj he
    exact Int.ofNat.inj (hfit.arity.trans hfit'.arity.symm)
  have hcount : p.qubits.length = p'.qubits.length := by
    rw [h.qubits, h'.qubits, List.length_map, List.length_map, hlength]
  simp only [Placement.anonymous, hfragment, hcircuit, hcount, h.base, h'.base]

theorem LaysOut.anonymous_eq {base : Nat} {gs gs' : List (Gate R)} {ps ps' : List (Placement α R)}
    (hg : List.Forall₂ Gate.SameCall gs gs') (h : LaysOut s n base gs ps)
    (h' : LaysOut s n base gs' ps') :
    ps.map Placement.anonymous = ps'.map Placement.anonymous := by
  induction h generalizing gs' ps' with
  | nil =>
    cases hg
    cases h'
    rfl
  | @cons base g gs p ps hlay _ ih =>
    cases hg with
    | cons hcall hrest =>
      cases h' with
      | @cons _ g' gs' p' ps' hlay' htail =>
        have hp := hlay.anonymous_eq hcall hlay'
        have hstop : p'.stop = p.stop := (congrArg Placement.stop hp).symm
        rw [List.map_cons, List.map_cons, hp, ih hrest (hstop ▸ htail)]

omit [Quantity R] in
theorem flatMap_anonymous {β : Type} {F : Placement α R → List β}
    (hF : ∀ p, F p.anonymous = F p) (ps : List (Placement α R)) :
    (ps.map Placement.anonymous).flatMap F = ps.flatMap F := by
  rw [List.flatMap_map]
  exact congrArg ps.flatMap (funext hF)

/-- Layouts that differ in their qubits only need the same resources. -/
theorem sameResources_processorOf {ps ps' : List (Placement α R)}
    (h : ps.map Placement.anonymous = ps'.map Placement.anonymous) (heralded : Bool)
    (name name' : String) (entries entries' : List (Entry (Component α))) :
    (processorOf heralded name n ps entries).SameResources
      (processorOf heralded name' n ps' entries') := by
  have hfragments : ps.map (·.fragment) = ps'.map (·.fragment) := by
    have := congrArg (List.map (·.fragment)) h
    rwa [List.map_map, List.map_map] at this
  have hsources : (ledgerOf n ps).sources = (ledgerOf n ps').sources := by
    rw [ledgerOf, ledgerOf, Ledger.sources_recordAll, Ledger.sources_recordAll,
      ← flatMap_anonymous Placement.sources_anonymous ps, h,
      flatMap_anonymous Placement.sources_anonymous ps']
  have hheralds : (ledgerOf n ps).heralds = (ledgerOf n ps').heralds := by
    rw [ledgerOf, ledgerOf, Ledger.heralds_recordAll, Ledger.heralds_recordAll,
      ← flatMap_anonymous Placement.heralds_anonymous ps, h,
      flatMap_anonymous Placement.heralds_anonymous ps']
  refine ⟨?_, ?_, ?_, ?_⟩
  · change endOf (2 * n) ps = endOf (2 * n) ps'
    have := congrArg (fun fs => (fs.map fun f => f.ancillas.length).sum) hfragments
    simp only [List.map_map] at this
    exact congrArg (2 * n + ·) this
  · change (ledgerOf n ps).sources.mergeSort _ = (ledgerOf n ps').sources.mergeSort _
    rw [hsources]
  · change (ledgerOf n ps).heralds.mergeSort _ = (ledgerOf n ps').heralds.mergeSort _
    rw [hheralds]
  · change (ledgerOf n ps).success = (ledgerOf n ps').success
    have := congrArg (List.map (·.success)) hfragments
    rw [List.map_map, List.map_map] at this
    rw [ledgerOf, ledgerOf, Ledger.success_recordAll, Ledger.success_recordAll]
    exact congrArg _ this

theorem hasForm_flatMap {ps : List (Placement α R)} (hs : ∀ p ∈ ps, p.Sound n)
    (ho : ∀ p ∈ ps, ¬ p.Overruns) :
    List.Forall₂ Entry.HasForm (ps.flatMap (Placement.entries true))
      (ps.flatMap Placement.forms) := by
  induction ps with
  | nil => exact .nil
  | cons p ps ih =>
    obtain ⟨hp, hps⟩ := List.forall_mem_cons.mp hs
    obtain ⟨hfits, hrest⟩ := List.forall_mem_cons.mp ho
    exact List.rel_append (hp.course hfits).hasForm (ih hps hrest)

theorem LaysOut.exists_good {base : Nat} {gs : List (Gate R)} {ps : List (Placement α R)}
    (h : LaysOut s n base gs ps) {g : Gate R} (hg : g ∈ gs) : ∃ f, GoodGate s n g f := by
  obtain ⟨t, ht⟩ := List.mem_iff_getElem?.mp hg
  obtain ⟨p, _, hlay, _⟩ := h.lays ht
  exact ⟨p.fragment, hlay.good⟩

/-- A layout has a condition on the rails of each qubit that a postselected fragment acts on. -/
theorem LaysOut.mem_conditions {base : Nat} {gs : List (Gate R)} {ps : List (Placement α R)}
    (h : LaysOut s n base gs ps) (c : Condition) :
    (∃ p ∈ ps, c ∈ p.conditions) ↔
      ∃ g ∈ gs, ∃ f, GoodGate s n g f ∧ f.postSelect = true ∧
        ∃ q ∈ g.qubits, c = .onQubit q := by
  induction h with
  | nil => simp
  | @cons base g gs p ps hlay _ ih =>
    have hone : c ∈ p.conditions ↔ ∃ f, GoodGate s n g f ∧ f.postSelect = true ∧
        ∃ q ∈ g.qubits, c = .onQubit q := by
      have hpair : ∀ q ∈ g.qubits,
          Ledger.onePhoton (ModeSupply.qubit q.toNat) = .onQubit q := by
        intro q hq
        obtain ⟨e, _, hfit, _⟩ := hlay.good
        have hpos := (hfit.inside q hq).1
        have hrail : ((2 * q.toNat : Nat) : Int) = 2 * q := by omega
        simp only [Ledger.onePhoton, ModeSupply.qubit, ModePair.startingAt, Condition.onQubit,
          hrail]
      rw [Placement.mem_conditions, hlay.qubits]
      constructor
      · rintro ⟨hsel, _, hmem, rfl⟩
        obtain ⟨q, hq, rfl⟩ := List.mem_map.mp hmem
        exact ⟨_, hlay.good, hsel, q, hq, hpair q hq⟩
      · rintro ⟨f, hf, hsel, q, hq, rfl⟩
        obtain rfl : p.fragment = f := hlay.good.unique hf
        exact ⟨hsel, q.toNat, List.mem_map_of_mem hq, (hpair q hq).symm⟩
    simp only [List.mem_cons, or_and_right, exists_or, exists_eq_left]
    exact or_congr hone ih

end Layouts

section Programs

variable [Quantity R] {s : Settings α R}

theorem Compiles.mem_conditions {prog : Program R} {n : Nat} {ps : List (Placement α R)}
    {proc : Processor α R} (h : Compiles s prog n ps proc) (c : Condition) :
    c ∈ proc.conditions ↔ ∃ g ∈ prog.gates, ∃ f, GoodGate s n g f ∧ f.postSelect = true ∧
      ∃ q ∈ g.qubits, c = .onQubit q := by
  rw [← h.placed.laysOut.mem_conditions, h.eq]
  exact mem_conditions_ledgerOf

theorem Compiles.mem_conditions_relabelled {prog prog' : Program R} {n : Nat}
    {ps ps' : List (Placement α R)} {proc proc' : Processor α R}
    (h : Compiles s prog n ps proc) (h' : Compiles s prog' n ps' proc') {σ : Int → Int}
    (hg : prog'.gates = prog.gates.map (Gate.relabelled σ)) (c : Condition) :
    c ∈ proc'.conditions ↔ c ∈ proc.conditions.map (Condition.relabelled σ) := by
  -- A gate and its relabelling resolve to one fragment, as both programs compile.
  have hgood : ∀ g ∈ prog.gates, ∃ f, GoodGate s n g f ∧ GoodGate s n (g.relabelled σ) f := by
    intro g hmem
    obtain ⟨f, hf⟩ := h.placed.laysOut.exists_good hmem
    obtain ⟨f', hf'⟩ := h'.placed.laysOut.exists_good (hg ▸ List.mem_map_of_mem hmem)
    obtain rfl : f = f' := hf.unique_of_sameCall (g.sameCall_relabelled σ) hf'
    exact ⟨f, hf, hf'⟩
  rw [h'.mem_conditions, List.mem_map, hg]
  constructor
  · rintro ⟨_, hmem, f', hf', hsel, _, hσ, rfl⟩
    obtain ⟨g, hgmem, rfl⟩ := List.mem_map.mp hmem
    obtain ⟨q, hq, rfl⟩ := List.mem_map.mp hσ
    obtain ⟨f, hf, hfσ⟩ := hgood g hgmem
    obtain rfl : f = f' := hfσ.unique hf'
    exact ⟨.onQubit q, (h.mem_conditions _).mpr ⟨g, hgmem, f, hf, hsel, q, hq, rfl⟩,
      Condition.relabelled_onQubit σ q⟩
  · rintro ⟨_, hc, rfl⟩
    obtain ⟨g, hgmem, f', hf', hsel, q, hq, rfl⟩ := (h.mem_conditions _).mp hc
    obtain ⟨f, hf, hfσ⟩ := hgood g hgmem
    obtain rfl : f = f' := hf.unique hf'
    exact ⟨g.relabelled σ, List.mem_map_of_mem hgmem, f, hfσ, hsel, σ q, List.mem_map_of_mem hq,
      Condition.relabelled_onQubit σ q⟩

/-- Programs of the same calls that both compile need the same resources; with identities kept
their networks have the same form; and if one relabelling of the qubits gives the operands of one
from those of the other, it gives the conditions too. -/
theorem resources_independent_of_operands [Element α] (hr : s.registry.Built)
    {prog prog' : Program R} {proc proc' : Processor α R} (hq : prog.qubits = prog'.qubits)
    (hg : List.Forall₂ Gate.SameCall prog.gates prog'.gates)
    (h : compile s (some prog) = .ok proc) (h' : compile s (some prog') = .ok proc') :
    proc.SameResources proc' ∧
    (s.keepIdentity = true → ∃ forms, proc.HasForms forms ∧ proc'.HasForms forms) ∧
    ∀ σ : Int → Int, prog'.gates = prog.gates.map (Gate.relabelled σ) →
      ∀ c, c ∈ proc'.conditions ↔ c ∈ proc.conditions.map (Condition.relabelled σ) := by
  obtain ⟨n, ps, hc⟩ := (compile_ok_iff hr).mp h
  obtain ⟨n', ps', hc'⟩ := (compile_ok_iff hr).mp h'
  obtain rfl : n = n' := Int.ofNat.inj (hc.qubits.symm.trans (hq.trans hc'.qubits))
  have hsame := hc.placed.laysOut.anonymous_eq hg hc'.placed.laysOut
  refine ⟨?_, fun hkeep => ?_, fun σ hσ => hc.mem_conditions_relabelled hc' hσ⟩
  · rw [hc.eq, hc'.eq]
    exact sameResources_processorOf hsame _ _ _ _ _
  · have hforms : ps.flatMap Placement.forms = ps'.flatMap Placement.forms := by
      rw [← flatMap_anonymous Placement.forms_anonymous ps, hsame,
        flatMap_anonymous Placement.forms_anonymous ps']
    refine ⟨ps.flatMap Placement.forms, ⟨_, by rw [hc.eq]; rfl, ?_⟩, ⟨_, by rw [hc'.eq]; rfl, ?_⟩⟩
    · rw [hkeep]
      exact hasForm_flatMap (hc.placed.laysOut.sound hr (Nat.le_refl _)) hc.placed.fits
    · rw [hkeep, hforms]
      exact hasForm_flatMap (hc'.placed.laysOut.sound hr (Nat.le_refl _)) hc'.placed.fits

end Programs

def Standard.movedProgram : Program ℝ :=
  { Standard.sampleProgram with
    gates := [⟨"h", [2], []⟩, ⟨"cx", [0, 1], []⟩, ⟨"swap", [1, 0], []⟩] }

theorem Standard.good_movedProgram :
    ∀ g ∈ movedProgram.gates, ∃ f, GoodGate (Settings.standard.keeping true) 3 g f := by
  intro g hg
  simp only [movedProgram, List.mem_cons, List.not_mem_nil, or_false] at hg
  rcases hg with rfl | rfl | rfl
  · exact good_hadamard rfl 2
  · exact good_cx rfl rfl (c := 0) (t := 1) (by decide)
  · exact good_swap rfl (a := 1) (b := 0) (by decide)

theorem resources_independent_of_operands_sample :
    ∃ proc proc' : Processor (Device ℝ) ℝ,
      compile (Settings.standard.keeping true) (some Standard.sampleProgram) = .ok proc ∧
      compile (Settings.standard.keeping true) (some Standard.movedProgram) = .ok proc' ∧
      proc.SameResources proc' ∧ (∃ forms, proc.HasForms forms ∧ proc'.HasForms forms) ∧
      ∀ c, c ∈ proc'.conditions ↔
        c ∈ proc.conditions.map (Condition.relabelled fun q => (q + 1) % 3) := by
  have hbuilt : ((Settings.standard : Settings (Device ℝ) ℝ).keeping true).registry.Built := by
    simp only [Settings.keeping]
    exact Standard.standard_built
  have hq : Standard.sampleProgram.qubits = Standard.movedProgram.qubits := rfl
  have hcalls : List.Forall₂ Gate.SameCall Standard.sampleProgram.gates
      Standard.movedProgram.gates :=
    .cons ⟨rfl, rfl⟩ (.cons ⟨rfl, rfl⟩ (.cons ⟨rfl, rfl⟩ .nil))
  obtain ⟨proc, hproc⟩ : ∃ proc : Processor (Device ℝ) ℝ,
      compile (Settings.standard.keeping true) (some Standard.sampleProgram) = .ok proc :=
    Standard.compile_of_good (n := 3) rfl rfl rfl (by decide) Standard.good_sampleProgram
      (by decide)
  obtain ⟨proc', hproc'⟩ : ∃ proc' : Processor (Device ℝ) ℝ,
      compile (Settings.standard.keeping true) (some Standard.movedProgram) = .ok proc' :=
    Standard.compile_of_good (n := 3) rfl rfl rfl (by decide) Standard.good_movedProgram
      (by decide)
  obtain ⟨hsame, hforms, hconditions⟩ :=
    resources_independent_of_operands hbuilt hq hcalls hproc hproc'
  exact ⟨proc, proc', hproc, hproc', hsame, hforms rfl,
    hconditions (fun q => (q + 1) % 3) rfl⟩

end DualRail
