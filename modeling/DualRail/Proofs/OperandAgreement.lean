import DualRail.Proofs.Defects
import DualRail.Proofs.OperandChoice

/-!
The check of a program and its compilation look at operands independently of each other. They agree:
a gate that resolves has no defect but parameters that are no numbers, and a program without defects
whose gates have the counts of their entries is never refused for a gate's kind or operands. For the
second half the failures of building and placing fragments are followed: they carry causes of optics
and of matrices, never one that speaks of what the program asks for.
-/

namespace DualRail

variable {R : Type} [Quantity R]

section Resolving

variable {s : Settings (Device R) R} {n : Nat} {g : Gate R} {f : Fragment (Device R) R}

theorem Standard.arity_of_mem {e : GateEntry (Device R) R} (h : e ∈ Standard.entries) :
    e.arity = 1 ∨ e.arity = 2 := by
  have hall : ∀ e ∈ (Standard.entries : List (GateEntry (Device R) R)),
      e.arity = 1 ∨ e.arity = 2 := by
    simp [Standard.entries, Standard.single, Standard.double]
  exact hall e h

omit [Quantity R] in
theorem trim_ne_nil_of_canonicalName_ne {name : String} (h : canonicalName name ≠ "") :
    (Text.trim name.toList).isEmpty = false := by
  rw [List.isEmpty_eq_false_iff]
  intro hnil
  apply h
  rw [canonicalName, hnil]
  rfl

/-- A gate that resolves has no defect but parameters that are no numbers. -/
theorem GoodGate.faults_eq (hs : s.registry = Standard.registry) (h : GoodGate s n g f) :
    g.faults n = (g.params.filter (!Quantity.isFinite ·)).map fun _ => .badParameter := by
  obtain ⟨e, he, hfit, _⟩ := h
  rw [hs] at he
  obtain ⟨hmem, hname⟩ := Standard.find?_registry.mp he
  have hkind := trim_ne_nil_of_canonicalName_ne ((Standard.canonical_of_mem hmem).2 _ hname)
  have hcount : g.qubits.length = 1 ∨ g.qubits.length = 2 := by
    have harity := hfit.arity
    have := Standard.arity_of_mem hmem
    omega
  have hoperands : Gate.operandFaults n [] g.qubits = [] :=
    Gate.operandFaults_eq_nil_iff.mpr ⟨hfit.inside, hfit.nodup, fun _ _ => List.not_mem_nil⟩
  rw [Gate.faults_eq hkind hcount, hoperands, List.nil_append]

theorem OperandsFit.of_faults {e : GateEntry (Device R) R} (harity : e.arity = g.qubits.length)
    (h : g.faults n = []) : OperandsFit n e g := by
  obtain ⟨hrange, hnodup⟩ := Gate.of_faults_eq_nil h
  exact ⟨harity.symm, hnodup, hrange⟩

end Resolving

def requestCauses : List Cause := [.noQubits, .invalidOperand, .unsupportedGate, .parameterCount]

/-- If the computation fails, the failure carries no cause that speaks of the request. -/
def Blameless {β : Type} (x : Except Failure β) : Prop :=
  ∀ f, x = .error f → ∀ c ∈ f.causes, c ∉ requestCauses

namespace Blameless

variable {β γ : Type} {x : Except Failure β}

theorem ok (b : β) : Blameless (.ok b) := by
  rintro f ⟨⟩

theorem overrun (o : Overrun) : Blameless (.error (.overrun o) : Except Failure β) := by
  rintro f ⟨⟩ c hc
  cases hc

theorem refuse {c : Cause} {notes : List Note} (hc : c ∉ requestCauses)
    (hnotes : (Failure.of c notes).causes = [c]) :
    Blameless (DualRail.refuse c notes : Except Failure β) := by
  rintro f ⟨⟩ c' hc'
  rw [hnotes, List.mem_singleton] at hc'
  exact hc' ▸ hc

theorem bind (hx : Blameless x) {k : β → Except Failure γ} (hk : ∀ b, Blameless (k b)) :
    Blameless (x >>= k) := by
  intro f hf
  rcases bind_eq_error hf with hf | ⟨b, _, hf⟩
  · exact hx f hf
  · exact hk b f hf

theorem noting (hx : Blameless x) {note : Note} (hnote : ∀ c, note ≠ .because c) :
    Blameless (DualRail.noting note x) := by
  intro f hf
  cases x with
  | ok b => cases hf
  | error g =>
    obtain rfl := Except.error.inj hf
    have hcauses : (g.noted note).causes = g.causes := by
      obtain ⟨notes, root⟩ := g
      cases note with
      | because c => exact absurd rfl (hnote c)
      | _ => cases root <;> rfl
    rw [hcauses]
    exact hx g rfl

theorem settled (hx : Blameless x) : Blameless (DualRail.settled x) := by
  intro f hf
  cases x with
  | ok b => cases hf
  | error g =>
    obtain ⟨notes, root⟩ := g
    cases root with
    | overrun o =>
      obtain rfl := Except.error.inj hf
      exact hx _ rfl
    | _ => cases hf

theorem wraps_eq_false (hx : Blameless x) {f : Failure} (hf : x = .error f) {c : Cause}
    (hc : c ∈ requestCauses) : f.wraps c = false := by
  rw [Failure.wraps, List.contains_eq_mem, decide_eq_false_iff_not]
  exact fun hmem => hx f hf c hmem hc

end Blameless

theorem blameless_reserve (count : Int) (size : Nat) : Blameless (Storage.reserve count size) := by
  unfold Storage.reserve
  split
  · exact .overrun _
  · exact .ok _

namespace Permutation

theorem blameless_identity (m : Int) : Blameless (identity m) := by
  unfold identity
  split
  · exact .refuse (by decide) rfl
  · exact (blameless_reserve _ _).bind fun _ => .ok _

theorem blameless_andThen (p q : Permutation) : Blameless (p.andThen q) := by
  unfold andThen
  split
  · exact .ok _
  · exact .refuse (by decide) rfl

theorem blameless_lift (p : Permutation) (m offset : Int) : Blameless (p.lift m offset) := by
  unfold lift
  split
  · exact .refuse (by decide) rfl
  · split
    · exact .refuse (by decide) rfl
    · refine (blameless_reserve _ _).bind fun _ => ?_
      split
      · exact .ok _
      · exact .overrun _

end Permutation

section Rewiring

variable {α : Type}

theorem blameless_entriesPermutation {width : Nat} {entries : List (Entry (Component α))}
    (hitem : ∀ e ∈ entries, Blameless e.item.asPermutation) (acc : Permutation) :
    Blameless (entriesPermutation width entries acc) := by
  induction entries generalizing acc with
  | nil =>
    rw [entriesPermutation]
    exact .ok _
  | cons e rest ih =>
    rw [entriesPermutation]
    refine (hitem e List.mem_cons_self).bind fun p => ?_
    cases p with
    | none => exact .ok _
    | some p =>
      refine (p.blameless_lift _ _).settled.bind fun lifted => ?_
      cases lifted with
      | none => exact .ok _
      | some lifted =>
        refine (acc.blameless_andThen lifted).settled.bind fun next => ?_
        cases next with
        | none => exact .ok _
        | some next => exact ih (List.forall_mem_of_forall_mem_cons hitem) next

theorem blameless_asPermutation (c : Component α) : Blameless c.asPermutation := by
  induction c using Component.induction with
  | device d =>
    rw [Component.asPermutation]
    exact .ok _
  | perm p =>
    rw [Component.asPermutation]
    exact .ok _
  | net name width entries ih =>
    rw [Component.asPermutation]
    refine (Permutation.blameless_identity _).settled.bind fun one => ?_
    cases one with
    | none => exact .ok _
    | some one => exact blameless_entriesPermutation ih one

omit [Quantity R] in
theorem Placement.blameless_overrun (p : Placement α R) :
    Blameless (.error p.overrun : Except Failure Unit) := by
  unfold Placement.overrun
  split
  · have hsearch : Blameless p.fragment.asPermutation := by
      unfold Fragment.asPermutation
      split
      · exact .ok _
      · split
        · exact blameless_asPermutation _
        · exact .ok _
    cases hp : p.fragment.asPermutation with
    | error f =>
      rintro _ ⟨⟩
      exact hsearch f hp
    | ok inner => exact .overrun _
  · exact .overrun _

end Rewiring

section Matrices

theorem Dense.blameless_identity {K : Type} [Scalar K] (n : Int) :
    Blameless (Dense.identity n : Except Failure (Dense K)) := by
  unfold Dense.identity
  split
  · exact .refuse (by decide) rfl
  · refine (blameless_reserve _ _).bind fun _ => ?_
    simp only
    split
    · exact .ok _
    · exact .overrun _

theorem Dense.blameless_mul {K : Type} [Scalar K] (a b : Dense K) : Blameless (a.mul b) := by
  unfold Dense.mul
  split
  · exact .refuse (by decide) rfl
  · exact ((blameless_reserve _ _).bind fun _ => .ok _).noting (by rintro _ ⟨⟩)

theorem Dense.blameless_ofRows {K : Type} [Scalar K] (rows : List (List K)) :
    Blameless (Dense.ofRows rows) := by
  unfold Dense.ofRows
  split
  · exact .refuse (by decide) rfl
  · split
    · exact .refuse (by decide) rfl
    · split
      · exact .refuse (by decide) rfl
      · exact .ok _

theorem Dense.blameless_isUnitary (eps : R) (m : Dense (Amplitude R)) :
    Blameless (m.isUnitary eps) := by
  unfold Dense.isUnitary
  split
  · exact .refuse (by decide) rfl
  · refine ((Dense.blameless_mul _ _).noting (by rintro _ ⟨⟩)).bind fun product => ?_
    refine ((Dense.blameless_identity _).noting (by rintro _ ⟨⟩)).bind fun one => ?_
    unfold Dense.allClose
    split
    · exact .refuse (by decide) rfl
    · exact .ok _

theorem Device.blameless_ofMatrix (name : String) (eps : R) (m : Option (Dense (Amplitude R))) :
    Blameless (Device.ofMatrix name eps m) := by
  cases m with
  | none => exact .refuse (by decide) rfl
  | some m =>
    refine ((Dense.blameless_isUnitary eps m).noting (by rintro _ ⟨⟩)).bind fun unitary => ?_
    split
    · exact .ok _
    · exact .refuse (by decide) rfl

end Matrices

namespace Fragment

variable {α : Type}

theorem blameless_checkOffsets (name : String) (width : Nat) {i : Nat}
    {earlier offsets : List Int} : Blameless (checkOffsets name width i earlier offsets) := by
  induction offsets generalizing i earlier with
  | nil => exact .ok _
  | cons off rest ih =>
    rw [checkOffsets]
    split
    · exact .refuse (by decide) rfl
    · split
      · exact .overrun _
      · split
        · exact .refuse (by decide) rfl
        · exact ih

theorem blameless_checkAncillas (name : String) {i : Nat} {ancillas : List Ancilla} :
    Blameless (checkAncillas name i ancillas) := by
  induction ancillas generalizing i with
  | nil => exact .ok _
  | cons a rest ih =>
    rw [checkAncillas]
    split
    · exact .refuse (by decide) rfl
    · exact ih

theorem blameless_validate (f : Fragment α R) (arity : Int) : Blameless (f.validate arity) := by
  unfold validate
  split
  · exact .refuse (by decide) rfl
  · split
    · exact .refuse (by decide) rfl
    · split
      · exact .refuse (by decide) rfl
      · simp only
        split
        · exact .refuse (by decide) rfl
        · refine (blameless_checkOffsets _ _).bind fun _ => ?_
          refine (blameless_checkAncillas _).bind fun _ => ?_
          split
          · exact .refuse (by decide) rfl
          · exact .ok _

end Fragment

namespace Standard

theorem blameless_addAll {net : Network (Device R)} {parts : List (Piece R)} :
    Blameless (net.addAll parts) := by
  induction parts generalizing net with
  | nil => exact .ok _
  | cons part rest ih =>
    rw [Network.addAll, List.foldlM_cons]
    refine Blameless.bind ?_ fun next => ih
    unfold Network.add
    simp only
    split
    · exact Blameless.refuse (c := .componentRange) (by decide) rfl
    · exact .ok _

theorem blameless_assemble (width : Nat) (name : String) (parts : List (Piece R)) :
    Blameless (assemble width name parts) := by
  refine Blameless.bind ?_ fun net => blameless_addAll
  unfold Network.empty
  split
  · exact .refuse (by decide) rfl
  · exact .ok _

theorem blameless_onQubit {layout : List R → Except Failure (List (Piece R))}
    (h : ∀ params, Blameless (layout params)) (kind : String) (req : Request R) :
    Blameless (onQubit kind layout req) :=
  (h req.params).bind fun _ => (blameless_assemble _ _ _).bind fun _ => .ok _

omit [Quantity R] in
theorem blameless_rewire (p : Permutation) {vector : List Int}
    (h : Permutation.ofVector vector = .ok p) :
    Blameless (rewire vector : Except Failure (Component (Device R))) := by
  unfold rewire
  rw [h]
  exact .ok _

theorem blameless_genericParts (params : List R) : Blameless (genericParts params) :=
  (Dense.blameless_ofRows _).bind fun _ => (Device.blameless_ofMatrix _ _ _).bind fun _ => .ok _

theorem blameless_cnot (req : Request R) : Blameless (cnot req) := by
  unfold cnot
  split
  · unfold heraldedCnot
    refine (Dense.blameless_ofRows _).bind fun rows => ?_
    refine (Device.blameless_ofMatrix _ _ _).bind fun core => ?_
    have hgather : ∃ p, Permutation.ofVector gatherVector = .ok p := ⟨_, rfl⟩
    obtain ⟨p, hp⟩ := hgather
    rw [hp, ok_bind]
    exact (blameless_assemble _ _ _).bind fun _ => .ok _
  · exact (blameless_assemble _ _ _).bind fun _ => .ok _

theorem blameless_cz (req : Request R) : Blameless (cz req) := by
  refine (blameless_cnot req).bind fun f => ?_
  simp only
  split
  · exact .ok _
  · exact (blameless_assemble _ _ _).bind fun _ => .ok _

theorem blameless_build {e : GateEntry (Device R) R} (he : e ∈ entries) {build : Builder R}
    (hbuild : e.build = some build) (req : Request R) : Blameless (build req) := by
  have hone : ∀ {kind : String} {aliases : List String} {params : Int} {summary : String}
      {layout : List R → Except Failure (List (Piece R))}, (∀ params, Blameless (layout params)) →
      ∀ build, (single kind aliases params summary layout).build = some build →
        Blameless (build req) := by
    rintro kind _ _ _ layout hlayout _ ⟨⟩
    exact blameless_onQubit hlayout kind req
  have htwo : ∀ {kind : String} {aliases : List String} {summary : String} {made : Builder R},
      Blameless (made req) → ∀ build, (double kind aliases summary made).build = some build →
        Blameless (build req) := by
    rintro _ _ _ made hmade _ ⟨⟩
    exact hmade
  obtain ⟨crossing, hcrossing⟩ : ∃ p, Permutation.ofVector [1, 0] = .ok p := ⟨_, rfl⟩
  obtain ⟨exchange, hexchange⟩ : ∃ p, Permutation.ofVector [2, 3, 0, 1] = .ok p := ⟨_, rfl⟩
  have hx : ∀ params : List R, Blameless (xParts params) := fun _ =>
    (blameless_rewire crossing hcrossing).bind fun _ => .ok _
  have hy : ∀ params : List R, Blameless (yParts params) := fun _ =>
    (blameless_rewire crossing hcrossing).bind fun _ => .ok _
  have hswap : Blameless (swap req : Except Failure (Fragment (Device R) R)) :=
    (blameless_rewire exchange hexchange).bind fun _ =>
      (blameless_assemble _ _ _).bind fun _ => .ok _
  have hall : ∀ e ∈ (entries : List (GateEntry (Device R) R)), ∀ build, e.build = some build →
      Blameless (build req) := by
    simp only [entries, List.forall_mem_cons]
    exact ⟨hone fun _ => .ok _, hone fun _ => .ok _, hone hx, hone hy, hone fun _ => .ok _,
      hone fun _ => .ok _, hone fun _ => .ok _, hone fun _ => .ok _, hone fun _ => .ok _,
      hone fun _ => .ok _, hone fun _ => .ok _, hone fun _ => .ok _, hone fun _ => .ok _,
      hone fun _ => .ok _, hone blameless_genericParts, htwo (blameless_cnot req),
      htwo (blameless_cz req), htwo hswap, by simp⟩
  exact hall e he build hbuild

end Standard

section Compilation

variable {s : Settings (Device R) R} {prog : Program R} {n : Nat} {g : Gate R}

/-- With as many parameters as its entry has, the lookup of a gate does not blame the request. -/
theorem blameless_fragmentFor (hs : s.registry = Standard.registry)
    {e : GateEntry (Device R) R} (he : s.registry.find? g.kind = some e)
    (hparams : e.params = g.params.length) : Blameless (fragmentFor s e g) := by
  rw [hs] at he
  have hmem := (Standard.find?_registry.mp he).1
  rw [fragmentFor, hs, Standard.lookup_registry hmem, Registry.buildFragment,
    if_neg (not_not.mpr hparams.symm)]
  split
  · exact .overrun _
  · rename_i build hbuild
    refine Blameless.noting ?_ (by rintro _ ⟨⟩)
    refine (Standard.blameless_build hmem hbuild _).bind fun f => ?_
    exact (f.blameless_validate _).bind fun _ => .ok _

/-- The kind of the gate resolves to an entry with as many operands and parameters. -/
def CountsMatch (s : Settings (Device R) R) (g : Gate R) : Prop :=
  ∃ e, s.registry.find? g.kind = some e ∧ e.arity = g.qubits.length ∧
    e.params = g.params.length

theorem Refuses.blameless (hs : s.registry = Standard.registry) (hcounts : CountsMatch s g)
    (hfaults : g.faults n = []) {f : Failure} (h : Refuses s n g f) :
    Blameless (.error f : Except Failure Unit) := by
  obtain ⟨e, he, harity, hparams⟩ := hcounts
  have hlookup := blameless_fragmentFor hs he hparams
  cases h with
  | unknown hnone => cases hnone.symm.trans he
  | operands notes he' hfit _ =>
    obtain rfl := Option.some.inj (he.symm.trans he')
    exact absurd (OperandsFit.of_faults harity hfaults) hfit
  | parameters he' _ hf hwraps =>
    obtain rfl := Option.some.inj (he.symm.trans he')
    rw [hlookup.wraps_eq_false hf (by decide)] at hwraps
    cases hwraps
  | fragment he' _ hf _ =>
    obtain rfl := Option.some.inj (he.symm.trans he')
    rintro _ ⟨⟩
    exact hlookup f hf

/-- A gate at which compilation stops, of a program without defects. -/
theorem blameless_of_stops (hs : s.registry = Standard.registry) (hn : prog.qubits = n)
    (hpos : 0 < n) {before rest : List (Gate R)} {ps : List (Placement (Device R) R)}
    (hgates : prog.gates = before ++ g :: rest) (hplaced : Placed s n before ps)
    (hstop : Stops s n (endOf (2 * n) ps) g) (hcounts : CountsMatch s g)
    (hfaults : g.faults n = []) : Blameless (compile s (some prog)) := by
  have hr : s.registry.Built := hs ▸ Standard.registry_built
  have hnote : ∀ f : Failure, Blameless (.error f : Except Failure Unit) →
      Blameless (.error (f.noted (.gate before.length g.kind)) :
        Except Failure (Processor (Device R) R)) := by
    intro f hf
    have hnoted : Blameless (noting (.gate before.length g.kind)
        (.error f : Except Failure Unit)) := hf.noting (by rintro _ ⟨⟩)
    rintro _ ⟨⟩
    exact hnoted _ rfl
  rcases hstop with hbad | ⟨p, hlay, hover⟩
  · obtain ⟨f, href, hgate⟩ := Assembly.compileGate_refuses hbad
    rw [compile_error hr hn hpos hplaced hgates (hgate _ rfl)]
    exact hnote f (href.blameless hs hcounts hfaults)
  · obtain ⟨b, hgate⟩ := Assembly.compileGate_overrun hr (Assembly.aligned_afterAll
      (aligned_blank n (networkName prog.name) s.keepIdentity) ps
      (ps.flatMap (Placement.entries s.keepIdentity))) hlay hover
    rw [compile_error hr hn hpos hplaced hgates hgate]
    exact hnote _ p.blameless_overrun

theorem blameless_compile (hs : s.registry = Standard.registry) (hvalid : prog.validate = .ok ())
    (hcounts : ∀ g ∈ prog.gates, CountsMatch s g) : Blameless (compile s (some prog)) := by
  have hr : s.registry.Built := hs ▸ Standard.registry_built
  obtain ⟨hqubits, hfaults⟩ := Program.validate_eq_ok hvalid
  cases exists_extent hr prog with
  | empty hq => exact absurd hqubits (Int.not_lt.mpr hq)
  | large hn hpos hlarge =>
    rw [compile_of_limit_lt hn hpos hlarge]
    exact .overrun _
  | placed hn hpos hplaced =>
    rw [compile_of_placed hr hn hpos hplaced, validate_processorOf hplaced.laysOut
      (hplaced.laysOut.sound hr (Nat.le_refl _)) hplaced.storable]
    refine Blameless.bind ?_ fun _ => .ok _
    split
    · exact .refuse (by decide) rfl
    · unfold Processor.checkProbability
      split
      · exact .refuse (by decide) rfl
      · exact .ok _
  | @stopped n before rest g ps hn hpos hgates hplaced hstop =>
    have hg : g ∈ prog.gates := by
      rw [hgates]
      exact List.mem_append_right _ List.mem_cons_self
    exact blameless_of_stops hs hn hpos hgates hplaced hstop (hcounts g hg) (hn ▸ hfaults g hg)

theorem cause_of_mem_defects (hs : s.registry = Standard.registry)
    {proc : Processor (Device R) R} (h : compile s (some prog) = .ok proc) :
    0 < prog.qubits ∧ ∀ d ∈ prog.defects, d.cause = .badParameter ∧
      ∃ g ∈ prog.gates, ∃ x ∈ g.params, Quantity.isFinite x = false := by
  have hr : s.registry.Built := hs ▸ Standard.registry_built
  obtain ⟨n, ps, hcompiles⟩ := (compile_ok_iff hr).mp h
  have hn := hcompiles.qubits
  have hpos := hcompiles.pos
  refine ⟨by omega, fun d hd => ?_⟩
  obtain ⟨g, hg, hfault⟩ := Program.exists_of_mem_defectsFrom hd
  obtain ⟨f, hgood⟩ := hcompiles.placed.laysOut.exists_good hg
  rw [hn, hgood.faults_eq hs, List.mem_map] at hfault
  obtain ⟨x, hx, hbad⟩ := hfault
  obtain ⟨hmem, hfinite⟩ := List.mem_filter.mp hx
  refine ⟨?_, g, hg, x, hmem, by simpa using hfinite⟩
  rw [Defect.cause, ← hbad]

end Compilation

/-- The check of a program and its compilation with the standard catalog agree on operands, in both
modes. If a program compiles, its check reports nothing but parameters that are no numbers, so it
passes if all parameters are numbers. If its check passes and every gate's kind leads to an entry
with its counts of operands and parameters, the compilation fails neither for want of qubits nor for
an operand nor for an unknown gate. -/
theorem check_agrees_with_compilation {s : Settings (Device R) R}
    (hs : s.registry = Standard.registry) (prog : Program R) :
    (∀ proc, compile s (some prog) = .ok proc →
      (∀ f, prog.validate = .error f → f = ⟨[], .defects prog.defects⟩ ∧
        ∀ d ∈ prog.defects, d.cause = .badParameter) ∧
      ((∀ g ∈ prog.gates, ∀ x ∈ g.params, Quantity.isFinite x = true) →
        prog.validate = .ok ())) ∧
    (prog.validate = .ok () → (∀ g ∈ prog.gates, CountsMatch s g) →
      ∀ f, compile s (some prog) = .error f →
        f.wraps .noQubits = false ∧ f.wraps .invalidOperand = false ∧
          f.wraps .unsupportedGate = false) := by
  refine ⟨fun proc hproc => ?_, fun hvalid hcounts f hf => ?_⟩
  · obtain ⟨hpos, hdefects⟩ := cause_of_mem_defects hs hproc
    have hcheck : prog.validate =
        if prog.defects.isEmpty then .ok () else .error ⟨[], .defects prog.defects⟩ := by
      rw [Program.validate, if_neg (Int.not_le.mpr hpos)]
    refine ⟨fun f hf => ⟨?_, fun d hd => (hdefects d hd).1⟩, fun hfinite => ?_⟩
    · rw [hcheck] at hf
      split at hf
      · cases hf
      · exact (Except.error.inj hf).symm
    · rw [hcheck, if_pos]
      rw [List.isEmpty_iff, List.eq_nil_iff_forall_not_mem]
      intro d hd
      obtain ⟨_, g, hg, x, hx, hbad⟩ := hdefects d hd
      cases (hfinite g hg x hx).symm.trans hbad
  · have hblameless := blameless_compile hs hvalid hcounts
    exact ⟨hblameless.wraps_eq_false hf (by decide), hblameless.wraps_eq_false hf (by decide),
      hblameless.wraps_eq_false hf (by decide)⟩

theorem GoodGate.exists_laysOut {α : Type} {s : Settings α R} {n : Nat} {g : Gate R}
    {f : Fragment α R} (hr : s.registry.Built) (h : GoodGate s n g f) (k base : Nat) :
    ∃ ps, LaysOut s n base (List.replicate k g) ps ∧ ∀ p ∈ ps, p.fragment = f ∧
      p.stop ≤ base + k * f.ancillas.length := by
  induction k generalizing base with
  | zero => exact ⟨[], .nil, List.forall_mem_nil _⟩
  | succ k ih =>
    obtain ⟨p, hlay, hp⟩ := h.lays hr base
    have hstop : p.stop = base + f.ancillas.length := by
      rw [Placement.stop, hlay.base, hp]
    obtain ⟨ps, hps, hall⟩ := ih p.stop
    refine ⟨p :: ps, .cons hlay hps, List.forall_mem_cons.mpr ⟨⟨hp, ?_⟩, fun q hq => ?_⟩⟩
    · rw [hstop, Nat.succ_mul]
      omega
    · obtain ⟨hq, hle⟩ := hall q hq
      refine ⟨hq, hle.trans_eq ?_⟩
      rw [hstop, Nat.succ_mul]
      omega

section Faint

open Standard

/-- Controlled gates in a row, so many that the product of their success probabilities is rounded to
nothing. -/
def faintProgram : Program Float :=
  { name := "faint", qubits := 2, gates := List.replicate 400 ⟨"cx", [0, 1], []⟩ }

theorem mem_cx : double "cx" ["cnot"] "controlled NOT" cnot ∈
    (entries : List (GateEntry (Device Float) Float)) := by
  simp [entries]

theorem good_faint {s : Settings (Device Float) Float} (hs : s.registry = registry)
    (hh : s.heralded = false) :
    GoodGate s 2 ⟨"cx", [0, 1], []⟩ (controlledFragment cnotCircuit) := by
  have hvalid : (controlledFragment cnotCircuit : Fragment (Device Float) Float).validate 2 =
      if (Quantity.le (1 / num 9 : Float) 0 || Quantity.lt 1 (1 / num 9 : Float)) = true then
        refuse .invalidFragment
          [.fragmentSuccess "postselected cnot" (Quantity.shortest (1 / num 9 : Float))]
      else .ok () := rfl
  have hbounds : (Quantity.le (1 / num 9 : Float) 0 || Quantity.lt 1 (1 / num 9 : Float)) = false :=
    by decide +kernel
  rw [hbounds] at hvalid
  exact good_double hs mem_cx (a := 0) (b := 1) (by decide) (hh ▸ cnot_eq []) hvalid

theorem not_overruns_faint {p : Placement (Device Float) Float}
    (hp : p.fragment = controlledFragment cnotCircuit) (hstop : p.stop ≤ 804) : ¬ p.Overruns := by
  have hlimit := Storage.limit_eq
  rw [Placement.Overruns, hp]
  rintro (hpairs | ⟨_, hwide | hlong | ⟨f, hf⟩⟩)
  · change Storage.limit < 1 * 16 at hpairs
    omega
  · change Storage.limit < 6 at hwide
    omega
  · omega
  · cases hf

theorem countsMatch_faintProgram {s : Settings (Device Float) Float} (hs : s.registry = registry) :
    ∀ g ∈ faintProgram.gates, CountsMatch s g := by
  intro g hg
  obtain rfl := List.eq_of_mem_replicate hg
  have hname : canonicalName "cx" = "cx" := by decide
  refine ⟨double "cx" ["cnot"] "controlled NOT" cnot, ?_, rfl, rfl⟩
  rw [hs]
  refine find?_registry.mpr ⟨mem_cx, ?_⟩
  rw [hname]
  exact List.mem_cons_self

theorem validate_faintProgram : faintProgram.validate = .ok () := by
  have hfaults := (good_faint (s := Settings.standard) rfl rfl).faults_eq rfl
  have hdefects : faintProgram.defects = [] := by
    refine List.eq_nil_iff_forall_not_mem.mpr fun d hd => ?_
    obtain ⟨g, hg, hfault⟩ := Program.exists_of_mem_defectsFrom hd
    obtain rfl := List.eq_of_mem_replicate hg
    exact List.not_mem_nil (hfaults ▸ hfault)
  rw [Program.validate, if_neg (by decide), hdefects]
  rfl

theorem compile_faintProgram :
    ∃ text, compile Settings.standard (some faintProgram) =
      refuse .invalidProbability [.probability text] := by
  have hr : (Settings.standard : Settings (Device Float) Float).registry.Built := standard_built
  obtain ⟨ps, hps, hall⟩ := (good_faint (s := Settings.standard) rfl rfl).exists_laysOut hr 400 4
  have hsuccess : ps.map (·.fragment.success) = List.replicate 400 (1 / num 9 : Float) := by
    refine List.eq_replicate_iff.mpr ⟨?_, fun x hx => ?_⟩
    · rw [List.length_map, ← hps.length_eq, List.length_replicate]
    · obtain ⟨p, hp, rfl⟩ := List.mem_map.mp hx
      rw [(hall p hp).1]
      rfl
  have hnothing : Quantity.le ((List.replicate 400 (1 / num 9 : Float)).foldl (· * ·) 1) 0 = true :=
    by decide +kernel
  have hledger : (ledgerOf 2 ps).success =
      (List.replicate 400 (1 / num 9 : Float)).foldl (· * ·) 1 := by
    rw [ledgerOf, Ledger.success_recordAll, hsuccess]
    rfl
  have hheralds : (ledgerOf 2 ps).heralds = [] := by
    rw [ledgerOf, Ledger.heralds_recordAll]
    refine List.flatMap_eq_nil_iff.mpr fun p hp => ?_
    rw [Placement.heralds, (hall p hp).1]
    rfl
  have hplaced : Placed Settings.standard 2 faintProgram.gates ps :=
    ⟨by decide, hps, fun p hp => not_overruns_faint (hall p hp).1 (hall p hp).2⟩
  refine ⟨Quantity.shortest (ledgerOf 2 ps).success, ?_⟩
  rw [compile_of_placed hr rfl (by decide) hplaced,
    validate_processorOf hps (hps.sound hr (Nat.le_refl _)) hplaced.storable, hheralds,
    Processor.checkProbability, hledger, hnothing]
  rfl

end Faint

/-- A program that compiles passes its check, and one that passes and does not compile is not to
blame. -/
theorem check_agrees_with_compilation_samples :
    Standard.sampleProgram.validate = .ok () ∧
      ∃ f, compile Settings.standard (some faintProgram) = .error f ∧ ¬ f.IsOverrun ∧
        f.wraps .noQubits = false ∧ f.wraps .invalidOperand = false ∧
          f.wraps .unsupportedGate = false := by
  have hs : (Settings.standard : Settings (Device ℝ) ℝ).registry = Standard.registry := rfl
  have hcompiled := (check_agrees_with_compilation hs Standard.sampleProgram).1
  have hs' : (Settings.standard : Settings (Device Float) Float).registry = Standard.registry := rfl
  have hchecked := (check_agrees_with_compilation hs' faintProgram).2
  constructor
  · obtain ⟨proc, hproc⟩ := Standard.compile_sampleProgram
    refine (hcompiled proc hproc).2 ?_
    simp [Standard.sampleProgram]
  · obtain ⟨text, hf⟩ := compile_faintProgram
    refine ⟨_, hf, ?_, hchecked validate_faintProgram (countsMatch_faintProgram hs') _ hf⟩
    rintro ⟨_, hroot⟩
    cases hroot

end DualRail
