import DualRail.Proofs.Incremental

/-!
The spelling of gate names. A gate is compiled through the entry its name leads to, so two programs
whose names lead to the same entries, gate by gate, compile to the same processor or fail alike: at
the same gate and for the same causes.
-/

namespace DualRail

variable {α R : Type}

/-- Both names belong to one entry of the registry, as its kind or as an alias, or both to none. -/
def Registry.SameEntry (r : Registry α R) (name name' : String) : Prop :=
  (∃ e ∈ r.entries, canonicalName name ∈ e.names ∧ canonicalName name' ∈ e.names) ∨
    ∀ e ∈ r.entries, canonicalName name ∉ e.names ∧ canonicalName name' ∉ e.names

/-- The gates differ at most in how their kind is spelled. -/
structure Gate.Respelled (r : Registry α R) (g g' : Gate R) : Prop where
  kind : r.SameEntry g.kind g'.kind
  qubits : g.qubits = g'.qubits
  params : g.params = g'.params

/-- The failures have one origin and the same causes, and name the same gate, if any. -/
structure Failure.Alike (f f' : Failure) : Prop where
  root : f.root = f'.root
  causes : f.causes = f'.causes
  index : f.gate?.map Prod.fst = f'.gate?.map Prod.fst

/-- The results are the same, or failures that are alike. -/
inductive Agree {β : Type} : Except Failure β → Except Failure β → Prop where
  | ok (b : β) : Agree (.ok b) (.ok b)
  | error {f f' : Failure} : f.Alike f' → Agree (.error f) (.error f')

theorem Registry.find?_congr {r : Registry α R} {name name' : String}
    (h : r.SameEntry name name') : r.find? name = r.find? name' := by
  rcases h with ⟨e, he, hname, hname'⟩ | hnone
  · rw [Registry.find?_of_mem he hname, Registry.find?_of_mem he hname']
  · rw [Registry.find?_eq_none_iff.mpr fun e he => (hnone e he).1,
      Registry.find?_eq_none_iff.mpr fun e he => (hnone e he).2]

theorem Failure.Alike.refl (f : Failure) : f.Alike f := ⟨rfl, rfl, rfl⟩

theorem Failure.Alike.symm {f f' : Failure} (h : f.Alike f') : f'.Alike f :=
  ⟨h.root.symm, h.causes.symm, h.index.symm⟩

theorem Failure.Alike.trans {f f' f'' : Failure} (h : f.Alike f') (h' : f'.Alike f'') :
    f.Alike f'' :=
  ⟨h.root.trans h'.root, h.causes.trans h'.causes, h.index.trans h'.index⟩

theorem Failure.alike_noted_entry (f : Failure) (network : String) (index : Nat)
    (component : String) : (f.noted (.entry network index component)).Alike f := by
  by_cases ho : f.IsOverrun
  · rw [ho.noted_eq]
    exact .refl f
  · rw [Failure.noted_of_not_overrun ho]
    exact ⟨rfl, rfl, rfl⟩

theorem Failure.Alike.noted_gate {f f' : Failure} (h : f.Alike f') (index : Nat)
    (kind kind' : String) :
    (f.noted (.gate index kind)).Alike (f'.noted (.gate index kind')) := by
  by_cases ho : f.IsOverrun
  · have ho' : f'.IsOverrun := by
      obtain ⟨o, hroot⟩ := ho
      exact ⟨o, h.root ▸ hroot⟩
    rw [ho.noted_eq, ho'.noted_eq]
    exact h
  · have ho' : ¬ f'.IsOverrun := by
      rintro ⟨o, hroot⟩
      exact ho ⟨o, h.root ▸ hroot⟩
    refine ⟨?_, ?_, ?_⟩
    · rw [Failure.noted_of_not_overrun ho, Failure.noted_of_not_overrun ho']
      exact h.root
    · rw [Failure.causes_noted_gate ho, Failure.causes_noted_gate ho']
      exact h.causes
    · rw [Failure.gate?_noted ho, Failure.gate?_noted ho']
      rfl

theorem Agree.bind {β γ : Type} {x x' : Except Failure β} {f f' : β → Except Failure γ}
    (h : Agree x x') (hf : ∀ b, Agree (f b) (f' b)) : Agree (x >>= f) (x' >>= f') := by
  cases h with
  | ok b => exact hf b
  | error hfail => exact .error hfail

theorem Agree.refl {β : Type} (x : Except Failure β) : Agree x x := by
  cases x with
  | ok b => exact .ok b
  | error f => exact .error (.refl f)

theorem Agree.symm {β : Type} {x x' : Except Failure β} (h : Agree x x') : Agree x' x := by
  cases h with
  | ok b => exact .ok b
  | error hfail => exact .error hfail.symm

theorem Agree.trans {β : Type} {x x' x'' : Except Failure β} (h : Agree x x') (h' : Agree x' x'') :
    Agree x x'' := by
  cases h with
  | ok b => exact h'
  | error hfail =>
    cases h' with
    | error hfail' => exact .error (hfail.trans hfail')

theorem Agree.map {β γ : Type} {x x' : Except Failure β} (h : Agree x x') (f : β → γ) :
    Agree (x.map f) (x'.map f) := by
  cases h with
  | ok b => exact .ok (f b)
  | error hfail => exact .error hfail

theorem Agree.eq_ok {β : Type} {b : β} {x : Except Failure β} (h : Agree (.ok b) x) :
    x = .ok b := by
  cases h with
  | ok _ => rfl

theorem Agree.exists_error {β : Type} {f : Failure} {x : Except Failure β}
    (h : Agree (.error f) x) : ∃ f', x = .error f' ∧ f.Alike f' := by
  cases h with
  | error halike => exact ⟨_, rfl, halike⟩

section Gates

variable [Element α] [Quantity R] {s : Settings α R} {g g' : Gate R}

/-- A gate is resolved through the entry that was found and not through its name. -/
theorem compileGate_congr (hq : g.qubits = g'.qubits) (hp : g.params = g'.params)
    {e : GateEntry α R} (he : s.registry.find? g.kind = some e)
    (he' : s.registry.find? g'.kind = some e) (a : Assembly α R) :
    compileGate s g a = compileGate s g' a := by
  have hresolve : Assembly.resolve s.registry s.heralded g a =
      Assembly.resolve s.registry s.heralded g' a := by
    rw [Assembly.resolve_of_find? rfl he, Assembly.resolve_of_find? rfl he', hq, hp]
    unfold Assembly.allotment
    rw [hq]
  unfold compileGate
  simp only [bind, EStateM.bind]
  rw [hresolve]

theorem compileGate_of_unknown (h : s.registry.find? g.kind = none) (a : Assembly α R) :
    compileGate s g a = .error (.of .unsupportedGate [.gateName g.kind]) a := by
  unfold compileGate Assembly.resolve
  rw [h]
  rfl

/-- What is spelled otherwise compiles alike, gate by gate. -/
theorem compileGates_respelled {gs gs' : List (Gate R)}
    (h : List.Forall₂ (Gate.Respelled s.registry) gs gs') (index : Nat) (a : Assembly α R) :
    Agree (compileGates s index gs a).result (compileGates s index gs' a).result := by
  induction h generalizing index a with
  | nil => exact .ok a
  | @cons g g' gs gs' hg _ ih =>
    have hfind := Registry.find?_congr hg.kind
    rw [compileGates, compileGates]
    cases he : s.registry.find? g.kind with
    | none =>
      have hroot : (Failure.of .unsupportedGate [.gateName g.kind]).Alike
          (.of .unsupportedGate [.gateName g'.kind]) := ⟨rfl, rfl, rfl⟩
      rw [compileGate_of_unknown he, compileGate_of_unknown (hfind ▸ he)]
      exact .error (hroot.noted_gate index g.kind g'.kind)
    | some e =>
      rw [← compileGate_congr hg.qubits hg.params he (hfind ▸ he)]
      cases compileGate s g a with
      | error f b => exact .error (Failure.Alike.noted_gate (.refl f) index g.kind g'.kind)
      | ok out b => exact ih (index + 1) b

omit [Element α] in
theorem finishProgram_congr (prog prog' : Program R) (a : Assembly α R) :
    (finishProgram s prog a).result = (finishProgram s prog' a).result := by
  unfold finishProgram
  cases Assembly.finish s.heralded a with
  | error f b => rfl
  | ok proc b => rfl

/-- How gate names are spelled decides nothing: programs that differ only in names of the same
entries compile to the same processor, or fail at the same gate for the same causes. -/
theorem compile_ignores_spelling {prog prog' : Program R} (hname : prog.name = prog'.name)
    (hq : prog.qubits = prog'.qubits)
    (hg : List.Forall₂ (Gate.Respelled s.registry) prog.gates prog'.gates) :
    Agree (compile s (some prog)) (compile s (some prog')) := by
  rw [compile_eq_bind, compile_eq_bind, hname, hq]
  refine (Agree.refl _).bind fun a => ?_
  refine (compileGates_respelled hg 0 a).bind fun b => ?_
  rw [finishProgram_congr prog prog' b]
  exact Agree.refl _

end Gates

theorem Standard.sameEntry {e : GateEntry (Device ℝ) ℝ} (he : e ∈ Standard.entries)
    {name name' : String} (h : canonicalName name ∈ e.names)
    (h' : canonicalName name' ∈ e.names) :
    (Settings.standard : Settings (Device ℝ) ℝ).registry.SameEntry name name' := by
  simp only [Settings.standard, Settings.ofRegistry]
  exact .inl ⟨e, Standard.mem_registry.mpr he, h, h'⟩

theorem sameEntry_hadamard :
    (Settings.standard : Settings (Device ℝ) ℝ).registry.SameEntry "h" " H" :=
  Standard.sameEntry (e := Standard.single "h" [] 0 "Hadamard" Standard.hadamardParts)
    (by simp [Standard.entries]) (by decide +kernel) (by decide +kernel)

theorem sameEntry_cx :
    (Settings.standard : Settings (Device ℝ) ℝ).registry.SameEntry "cx" "CNOT\t" :=
  Standard.sameEntry (e := Standard.double "cx" ["cnot"] "controlled NOT" Standard.cnot)
    (by simp [Standard.entries]) (by decide +kernel) (by decide +kernel)

theorem sameEntry_swap :
    (Settings.standard : Settings (Device ℝ) ℝ).registry.SameEntry "swap" "swap" :=
  Standard.sameEntry (e := Standard.double "swap" [] "exchange two qubits" Standard.swap)
    (by simp [Standard.entries]) (by decide +kernel) (by decide +kernel)

def Standard.respelledProgram : Program ℝ :=
  { Standard.sampleProgram with
    gates := [⟨" H", [1], []⟩, ⟨"CNOT\t", [2, 0], []⟩, ⟨"swap", [0, 2], []⟩] }

def respelledFaultyProgram : Program ℝ :=
  { faultyProgram [] with gates := [⟨" H", [1], []⟩, ⟨"CNOT\t", [2, 2], []⟩] }

theorem compile_ignores_spelling_sample :
    (∃ proc : Processor (Device ℝ) ℝ,
      compile Settings.standard (some Standard.sampleProgram) = .ok proc ∧
      compile Settings.standard (some Standard.respelledProgram) = .ok proc) ∧
    ∃ f f' : Failure, f.gate? = some (1, "cx") ∧ f.Alike f' ∧
      compile (Settings.standard : Settings (Device ℝ) ℝ) (some (faultyProgram [])) = .error f ∧
      compile (Settings.standard : Settings (Device ℝ) ℝ) (some respelledFaultyProgram) =
        .error f' := by
  have hsample : List.Forall₂
      (Gate.Respelled (Settings.standard : Settings (Device ℝ) ℝ).registry)
      Standard.sampleProgram.gates Standard.respelledProgram.gates :=
    .cons ⟨sameEntry_hadamard, rfl, rfl⟩ (.cons ⟨sameEntry_cx, rfl, rfl⟩
      (.cons ⟨sameEntry_swap, rfl, rfl⟩ .nil))
  have hfaulty : List.Forall₂
      (Gate.Respelled (Settings.standard : Settings (Device ℝ) ℝ).registry)
      (faultyProgram []).gates respelledFaultyProgram.gates :=
    .cons ⟨sameEntry_hadamard, rfl, rfl⟩ (.cons ⟨sameEntry_cx, rfl, rfl⟩ .nil)
  constructor
  · obtain ⟨proc, hproc⟩ := Standard.compile_sampleProgram
    have hagree : Agree (compile Settings.standard (some Standard.sampleProgram))
        (compile Settings.standard (some Standard.respelledProgram)) :=
      compile_ignores_spelling rfl rfl hsample
    rw [hproc] at hagree
    exact ⟨proc, hproc, hagree.eq_ok⟩
  · obtain ⟨f, hf, _, hgate⟩ := compile_faultyProgram []
    have hagree : Agree (compile Settings.standard (some (faultyProgram [])))
        (compile Settings.standard (some respelledFaultyProgram)) :=
      compile_ignores_spelling rfl rfl hfaulty
    rw [hf] at hagree
    obtain ⟨f', hf', halike⟩ := hagree.exists_error
    exact ⟨f, f', hgate, halike, hf, hf'⟩

end DualRail
