import DualRail.Proofs.Bookkeeping
import DualRail.Proofs.HeraldedNetwork

/-!
Programs over the standard catalog, with heralding. No gate is postselected and none overruns as
long as the modes of the program can be stored, so a program whose gates all resolve compiles; and
every new mode of the processor is heralded with the photons it is given.
-/

namespace DualRail

open Standard

variable {n : Nat}

section Gates

variable {l : LogicalGate n} {qubits : List Nat} {f : Fragment (Device ℝ) ℝ}

theorem implementsHeralded_of_resolves (h : Resolves true l qubits f) :
    ImplementsHeralded l qubits f := by
  cases h with
  | single hA => exact .plain (.single hA) rfl
  | @cx c t params f hct hf =>
    obtain ⟨circuit, hcnot, hcircuit⟩ := heralded_cnot_eq params
    obtain rfl := Except.ok.inj (hcnot.symm.trans hf)
    exact .controlled hct (controls_cx c t) hcircuit
  | @cz c t params f hct hf =>
    obtain ⟨circuit, hcz, hcircuit⟩ := heralded_cz_eq params
    obtain rfl := Except.ok.inj (hcz.symm.trans hf)
    exact .controlled hct (controls_cz c t) hcircuit
  | swap hab hp => exact .plain (.swap hab hp) rfl

theorem ImplementsHeralded.postSelect_eq (h : ImplementsHeralded l qubits f) :
    f.postSelect = false := by
  cases h with
  | plain himp hnone =>
    cases himp with
    | single _ | swap _ _ => rfl
    | cx _ | cz _ => cases hnone
  | controlled _ _ _ => rfl

theorem ImplementsHeralded.herald_eq (h : ImplementsHeralded l qubits f) {a : Ancilla}
    (ha : a ∈ f.ancillas) :
    f.heralded = true ∧ a.herald = a.photons ∧ (a.photons = 0 ∨ a.photons = 1) := by
  cases h with
  | plain _ hnone =>
    rw [hnone] at ha
    cases ha
  | controlled _ _ _ =>
    simp only [heraldedFragment, List.mem_cons, List.not_mem_nil, or_false] at ha
    rcases ha with rfl | rfl | rfl | rfl <;> simp [heraldedFragment]

theorem norm_heraldFactor : ‖heraldFactor‖ ^ 2 = 2 / 27 := by
  have hroot : ‖rootSix‖ ^ 2 = 6 := by
    rw [rootSix, Complex.norm_real, Real.norm_eq_abs, sq_abs, Real.sq_sqrt (by norm_num)]
  rw [heraldFactor, norm_div, div_pow, hroot]
  norm_num

theorem ImplementsHeralded.norm_factor (h : ImplementsHeralded l qubits f) :
    ‖heraldedFactor f‖ ^ 2 = f.success := by
  cases h with
  | plain himp hnone =>
    cases himp with
    | single _ | swap _ _ => simp [heraldedFactor, qubitFragment, swapFragment]
    | cx _ | cz _ => cases hnone
  | controlled _ _ _ =>
    simp [heraldedFactor, heraldedFragment, norm_heraldFactor, num]

theorem ImplementsHeralded.modest {p : Placement (Device ℝ) ℝ}
    (h : ImplementsHeralded l p.qubits p.fragment) : Modest 4 p := by
  obtain ⟨f, circuit, qubits, base⟩ := p
  cases h with
  | plain himp hnone =>
    exact ⟨himp.ancillas_le.trans (by decide), himp.not_overruns, himp.success_bounds⟩
  | @controlled c t A net _ _ hcircuit =>
    have hlim := Storage.limit_eq
    have hpairs : (heraldedFragment net).ancillaPairs = 2 := by
      simp [Fragment.ancillaPairs, heraldedFragment]
    have hwidth : (heraldedFragment net).width = 8 := hcircuit.width
    refine ⟨Nat.le_refl 4, fun hstop => ?_, ?_⟩
    · rintro (hlong | ⟨_, hwide | hlimit | ⟨g, herror⟩⟩)
      · change Storage.limit < (heraldedFragment net).ancillaPairs * 16 at hlong
        omega
      · change Storage.limit < (heraldedFragment net).width at hwide
        omega
      · exact absurd hlimit (Nat.not_lt.mpr hstop)
      · cases herror
    · constructor <;> norm_num [heraldedFragment, num]

end Gates

section Programs

variable {s : Settings (Device ℝ) ℝ} {base : Nat} {gs : List (Gate ℝ)}
  {ps : List (Placement (Device ℝ) ℝ)}

theorem implementsHeralded_of_lays (hs : s.registry = registry) (hh : s.heralded = true)
    {g : Gate ℝ} {p : Placement (Device ℝ) ℝ} (h : Lays s n base g p) :
    ∃ l, g.logical n = some l ∧ ImplementsHeralded l p.qubits p.fragment := by
  obtain ⟨l, hl, hres⟩ := resolves_of_good hs h.good
  rw [hh, ← h.qubits] at hres
  exact ⟨l, hl, implementsHeralded_of_resolves hres⟩

theorem implementsHeralded_of_mem (hs : s.registry = registry) (hh : s.heralded = true)
    (h : LaysOut s n base gs ps) {p : Placement (Device ℝ) ℝ} (hp : p ∈ ps) :
    ∃ l : LogicalGate n, ImplementsHeralded l p.qubits p.fragment := by
  obtain ⟨_, _, _, hlay⟩ := h.exists_lays p hp
  obtain ⟨l, _, himp⟩ := implementsHeralded_of_lays hs hh hlay
  exact ⟨l, himp⟩

theorem conditions_of_heralded (hs : s.registry = registry) (hh : s.heralded = true)
    (h : LaysOut s n base gs ps) : (ledgerOf n ps).sorted.conditions = [] := by
  rw [List.eq_nil_iff_forall_not_mem]
  intro c hc
  obtain ⟨p, hp, hpc⟩ := mem_conditions_ledgerOf.mp hc
  obtain ⟨l, himp⟩ := implementsHeralded_of_mem hs hh h hp
  have hpost := (Placement.mem_conditions.mp hpc).1
  rw [himp.postSelect_eq] at hpost
  cases hpost

/-- A heralded program whose gates all resolve compiles, if its modes can be stored. -/
theorem compile_of_good_heralded (hs : s.registry = registry) (hh : s.heralded = true)
    {prog : Program ℝ} (hq : prog.qubits = n) (hn : 0 < n)
    (hgood : ∀ g ∈ prog.gates, ∃ f, GoodGate s n g f)
    (hsize : (2 * n + 4 * prog.gates.length) * 8 ≤ Storage.limit) :
    ∃ proc, compile s (some prog) = .ok proc := by
  have hr : s.registry.Built := by
    rw [hs]
    exact registry_built
  refine compile_of_modest hr hq hn hgood (fun _ _ _ hlay => ?_) (fun ps hps => ?_) hsize
  · obtain ⟨l, _, himp⟩ := implementsHeralded_of_lays hs hh hlay
    exact himp.modest
  · exact .inr (conditions_of_heralded hs hh hps)

theorem validate_heraldedFragment {circuit : Network (Device ℝ)} (h : circuit.width = 8) :
    (heraldedFragment circuit).validate 2 = .ok () := by
  obtain ⟨name, width, entries⟩ := circuit
  obtain rfl : width = 8 := h
  refine validate_of_bounds (by constructor <;> norm_num [heraldedFragment, num]) ?_
  have hoffsets : Fragment.checkOffsets name 8 0 [] [2, 4] = .ok () := rfl
  have hancillas : Fragment.checkAncillas name 0 [⟨0, 0⟩, ⟨1, 1⟩, ⟨0, 0⟩, ⟨1, 1⟩] = .ok () := rfl
  unfold Fragment.validate heraldedFragment
  simp only
  rw [if_neg (by decide), if_neg (by decide), if_neg (by decide), hoffsets, ok_bind, hancillas,
    ok_bind]
  rfl

theorem good_heralded_cx (hs : s.registry = registry) (hh : s.heralded = true) {c t : Fin n}
    (h : c ≠ t) : ∃ f, GoodGate s n ⟨"cx", [(c.val : Int), (t.val : Int)], []⟩ f := by
  have he : double "cx" ["cnot"] "controlled NOT" cnot ∈
      (entries : List (GateEntry (Device ℝ) ℝ)) := by simp [entries]
  obtain ⟨circuit, hcnot, hcircuit⟩ := heralded_cnot_eq []
  exact ⟨_, good_double hs he h (hh ▸ hcnot) (validate_heraldedFragment hcircuit.width)⟩

theorem good_heralded_cz (hs : s.registry = registry) (hh : s.heralded = true) {c t : Fin n}
    (h : c ≠ t) : ∃ f, GoodGate s n ⟨"cz", [(c.val : Int), (t.val : Int)], []⟩ f := by
  have he : double "cz" [] "controlled Z" cz ∈ (entries : List (GateEntry (Device ℝ) ℝ)) := by
    simp [entries]
  obtain ⟨circuit, hcz, hcircuit⟩ := heralded_cz_eq []
  exact ⟨_, good_double hs he h (hh ▸ hcz) (validate_heraldedFragment hcircuit.width)⟩

end Programs

section Books

variable {s : Settings (Device ℝ) ℝ} {gs : List (Gate ℝ)} {ps : List (Placement (Device ℝ) ℝ)}
  {proc : Processor (Device ℝ) ℝ}

/-- One photon on every zero rail and none on the other rails; on the new modes the photons that the
fragments ask for, and a herald for just these. -/
structure HeraldedBooks (n : Nat) (ps : List (Placement (Device ℝ) ℝ))
    (proc : Processor (Device ℝ) ℝ) : Prop where
  rails : ∀ r : Rail n, proc.inputState.getD (railMode r) 0 = if r.2 = 0 then 1 else 0
  ancillas : ∀ p ∈ ps, ∀ (j : Nat) (a : Ancilla), p.fragment.ancillas[j]? = some a →
    proc.inputState.getD (p.base + j) 0 = a.photons
  binary : ∀ i < proc.width, proc.inputState.getD i 0 = 0 ∨ proc.inputState.getD i 0 = 1
  mem_heralds : ∀ h, h ∈ proc.heralds ↔
    ∃ i : Nat, 2 * n ≤ i ∧ i < proc.width ∧ h = ⟨i, proc.inputState.getD i 0⟩

variable (hps : LaysOut s n (2 * n) gs ps) (hb : Books n ps proc)
  (himp : ∀ p ∈ ps, ∃ l : LogicalGate n, ImplementsHeralded l p.qubits p.fragment)

include hps hb

theorem mem_sources_iff (src : Source) : src ∈ proc.sources ↔
    (∃ i, i < n ∧ src = ⟨(2 * i : Nat), 1⟩) ∨
      ∃ p ∈ ps, ∃ (j : Nat) (a : Ancilla), p.fragment.ancillas[j]? = some a ∧ 0 < a.photons ∧
        src = ⟨(p.base + j : Nat), a.photons⟩ := by
  rw [hb.mem_sources]
  exact or_congr_right (exists_holds_iff hps)

include himp

theorem inputState_heralded {i : Nat} (hi : i < proc.width) :
    proc.inputState.getD i 0 = if ⟨i, 1⟩ ∈ proc.sources then 1 else 0 := by
  refine inputState_of_sources (hb.sources_ascend.imp ne_of_lt) (fun src hsrc => ?_) hi
  rcases (mem_sources_iff hps hb src).mp hsrc with ⟨i, _, rfl⟩ | ⟨p, hp, j, a, hj, hpos, rfl⟩
  · rfl
  · obtain ⟨l, hl⟩ := himp p hp
    obtain ⟨_, _, hzero | hone⟩ := hl.herald_eq (List.mem_of_getElem? hj)
    · omega
    · exact hone

theorem inputState_rail (r : Rail n) :
    proc.inputState.getD (railMode r) 0 = if r.2 = 0 then 1 else 0 := by
  have hlt := railMode_lt r
  have hwidth : proc.width = endOf (2 * n) ps := hb.width
  have hle : 2 * n ≤ endOf (2 * n) ps := Nat.le_add_right _ _
  rw [inputState_heralded hps hb himp (by omega)]
  refine if_congr ?_ rfl rfl
  rw [mem_sources_iff hps hb]
  obtain ⟨q, b⟩ := r
  constructor
  · rintro (⟨i, _, he⟩ | ⟨p, hp, j, a, hj, _, he⟩)
    · have hmode := congrArg Source.mode he
      simp only [railMode] at hmode ⊢
      omega
    · have hmode : railMode (q, b) = p.base + j := Int.ofNat.inj (congrArg Source.mode he)
      have hfresh := hps.newModes_fresh.2 p hp _ (Placement.mem_newModes hj)
      omega
  · intro hz
    exact .inl ⟨q, q.isLt, by simp only [railMode] at hz ⊢; rw [hz]; rfl⟩

theorem inputState_ancilla {p : Placement (Device ℝ) ℝ} (hp : p ∈ ps) {j : Nat} {a : Ancilla}
    (hj : p.fragment.ancillas[j]? = some a) :
    proc.inputState.getD (p.base + j) 0 = a.photons := by
  have hfresh := hps.newModes_fresh.2 p hp _ (Placement.mem_newModes hj)
  have hsource : ⟨(p.base + j : Nat), 1⟩ ∈ proc.sources ↔ a.photons = 1 := by
    rw [mem_sources_iff hps hb]
    constructor
    · rintro (⟨i, hi, he⟩ | ⟨q, hq, k, b, hk, _, he⟩)
      · have hmode : p.base + j = 2 * i := Int.ofNat.inj (congrArg Source.mode he)
        omega
      · have hmode : p.base + j = q.base + k := Int.ofNat.inj (congrArg Source.mode he)
        rw [hps.ancilla_unique hp hq hj hk hmode]
        exact (congrArg Source.photons he).symm
    · intro hone
      exact .inr ⟨p, hp, j, a, hj, by omega, by rw [hone]⟩
  obtain ⟨l, hl⟩ := himp p hp
  rw [inputState_heralded hps hb himp (lt_of_lt_of_eq hfresh.2 hb.width.symm)]
  obtain ⟨_, _, hzero | hone⟩ := hl.herald_eq (List.mem_of_getElem? hj)
  · rw [if_neg fun hmem => by have := hsource.mp hmem; omega, hzero]
  · rw [if_pos (hsource.mpr hone), hone]

theorem heraldedBooks_of_books : HeraldedBooks n ps proc := by
  refine ⟨inputState_rail hps hb himp, fun p hp j a hj => inputState_ancilla hps hb himp hp hj,
    fun i hi => ?_, fun h => ?_⟩
  · rw [inputState_heralded hps hb himp hi]
    split
    · exact .inr rfl
    · exact .inl rfl
  · rw [hb.mem_heralds, exists_holds_iff hps
      (P := fun p a x => p.fragment.heralded = true ∧ h = ⟨(x : Nat), a.herald⟩)]
    constructor
    · rintro ⟨p, hp, j, a, hj, _, rfl⟩
      obtain ⟨l, hl⟩ := himp p hp
      obtain ⟨_, hherald, _⟩ := hl.herald_eq (List.mem_of_getElem? hj)
      obtain ⟨hlow, hhigh⟩ := hps.newModes_fresh.2 p hp _ (Placement.mem_newModes hj)
      refine ⟨p.base + j, hlow, lt_of_lt_of_eq hhigh hb.width.symm, ?_⟩
      rw [inputState_ancilla hps hb himp hp hj, hherald]
    · rintro ⟨i, hlow, hhigh, rfl⟩
      obtain ⟨p, hp, j, a, hj, rfl⟩ := hps.exists_ancilla hlow (lt_of_lt_of_eq hhigh hb.width)
      obtain ⟨l, hl⟩ := himp p hp
      obtain ⟨hheralded, hherald, _⟩ := hl.herald_eq (List.mem_of_getElem? hj)
      refine ⟨p, hp, j, a, hj, hheralded, ?_⟩
      rw [inputState_ancilla hps hb himp hp hj, hherald]

end Books

end DualRail
