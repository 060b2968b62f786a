import DualRail.Proofs.Doubles
import DualRail.Proofs.Outcome

/-!
The success probability of a processor over doubles. It is the product of the fragments'
probabilities, and both the fragments and the product pass a check that no value outside the range
passes. A value that is not a number passes it as well: the product is a probability exactly if all
factors are numbers, and a single fragment that declares no number makes a processor that has none.
-/

namespace DualRail

section Doubles

variable {α : Type}

theorem inRange_of_validate {s : Settings α Float} {n : Nat} {gs : List (Gate Float)}
    {ps : List (Placement α Float)} (h : Placed s n gs ps) (hs : ∀ p ∈ ps, p.Sound n)
    {heralded : Bool} {name : String} {entries : List (Entry (Component α))}
    (hvalid : (processorOf heralded name n ps entries).validate = .ok ()) :
    Double.InRange (successOf ps) := by
  rw [validate_processorOf h.laysOut hs h.storable, success_ledgerOf] at hvalid
  split at hvalid
  · cases hvalid
  · unfold Processor.checkProbability at hvalid
    split at hvalid
    · cases hvalid
    · rename_i hcheck
      exact Double.check_eq_false_iff.mp (Bool.eq_false_iff.mpr hcheck)

theorem isNaN_successOf_iff {n : Nat} {ps : List (Placement α Float)}
    (hs : ∀ p ∈ ps, p.Sound n) :
    (successOf ps).isNaN = true ↔ ∃ p ∈ ps, p.fragment.success.isNaN = true := by
  have hall : ∀ x ∈ ps.map (·.fragment.success), Double.InRange x := by
    intro x hx
    obtain ⟨p, hp, rfl⟩ := List.mem_map.mp hx
    exact Double.check_eq_false_iff.mp (Bool.or_eq_false_iff.mpr (hs p hp).valid.success)
  refine (Double.isNaN_product_iff hall 1).trans ?_
  constructor
  · rintro (hone | ⟨x, hx, hnan⟩)
    · cases hone
    · obtain ⟨p, hp, rfl⟩ := List.mem_map.mp hx
      exact ⟨p, hp, hnan⟩
  · rintro ⟨p, hp, hnan⟩
    exact .inr ⟨_, List.mem_map_of_mem hp, hnan⟩

/-- The success probability of a compiled processor is one exactly if every fragment declares a
number; otherwise it is no number. -/
theorem compile_success_probability [Element α] {s : Settings α Float} (hr : s.registry.Built)
    {prog : Program Float} {proc : Processor α Float} (h : compile s (some prog) = .ok proc) :
    ∃ (n : Nat) (ps : List (Placement α Float)), prog.qubits = n ∧
      LaysOut s n (2 * n) prog.gates ps ∧ proc.success = successOf ps ∧
      (0 < proc.success ∧ proc.success ≤ 1 ↔ ∀ p ∈ ps, p.fragment.success.isNaN = false) ∧
      (proc.success.isNaN = true ↔ ∃ p ∈ ps, p.fragment.success.isNaN = true) := by
  obtain ⟨n, ps, hn, _, hplaced, hvalid, rfl⟩ := (compile_ok_iff hr).mp h
  have hs := hplaced.laysOut.sound hr (Nat.le_refl _)
  have hrange := inRange_of_validate hplaced hs hvalid
  have hnan := isNaN_successOf_iff hs
  have hsuccess : (processorOf s.heralded (networkName prog.name) n ps
      (ps.flatMap (Placement.entries s.keepIdentity))).success = successOf ps :=
    success_ledgerOf n ps
  refine ⟨n, ps, hn, hplaced.laysOut, hsuccess, ?_, ?_⟩
  · rw [hsuccess, ← hrange.number_iff, ← Bool.not_eq_true, hnan]
    push Not
    simp only [Bool.not_eq_true]
  · rw [hsuccess]
    exact hnan

end Doubles

section Wire

def wireFragment (x : Float) : Fragment (Device Float) Float :=
  { circuit := some ⟨"wire", 2, []⟩, qubitOffsets := [0], ancillas := [], heralded := false,
    postSelect := false, success := x }

def wireEntry (x : Float) : GateEntry (Device Float) Float :=
  { kind := "wire", aliases := [], arity := 1, params := 0, summary := ""
    build := some fun _ => .ok (wireFragment x) }

def wireProgram : Program Float := ⟨"", 1, [⟨"wire", [0], []⟩]⟩

variable {x : Float}

theorem validate_wireFragment (h : Double.InRange x) : (wireFragment x).validate 1 = .ok () := by
  have hother : (wireFragment x).validate 1 =
      if (Quantity.le x 0 || Quantity.lt 1 x) = true then
        refuse .invalidFragment [.fragmentSuccess "wire" (Quantity.shortest x)]
      else .ok () := rfl
  rw [hother, Double.check_eq_false_iff.mpr h]
  rfl

theorem exists_wire_settings (h : Double.InRange x) :
    ∃ s : Settings (Device Float) Float, s.registry.Built ∧
      GoodGate s 1 ⟨"wire", [0], []⟩ (wireFragment x) := by
  have hname : canonicalName "wire" = "wire" := by decide
  have hcanonical : (wireEntry x).canonical = wireEntry x := by
    simp only [GateEntry.canonical, wireEntry, hname, List.map_nil]
  obtain ⟨r, hr, hmem⟩ := Registry.exists_of_entry hcanonical rfl
    (by simp [GateEntry.names, wireEntry]) (List.nodup_singleton "wire")
  refine ⟨Settings.ofRegistry r, hr, goodGate_of_entry hr hmem ?_ ⟨rfl, by simp, by simp⟩ rfl rfl
    rfl (validate_wireFragment h)⟩
  rw [hname]
  exact List.mem_singleton_self _

theorem compile_wireProgram (hx : Double.InRange x) (hp : Double.InRange (1 * x)) :
    ∃ (s : Settings (Device Float) Float) (proc : Processor (Device Float) Float),
      s.registry.Built ∧ GoodGate s 1 ⟨"wire", [0], []⟩ (wireFragment x) ∧
      compile s (some wireProgram) = .ok proc ∧ proc.success = 1 * x := by
  obtain ⟨s, hr, hgood⟩ := exists_wire_settings hx
  obtain ⟨p, hlay, hfragment⟩ := hgood.lays hr 2
  have hfits : ¬ p.Overruns := by
    rintro (hpairs | ⟨hdirect, _⟩)
    · simp [hfragment, Fragment.ancillaPairs, wireFragment] at hpairs
    · rw [Placement.isDirect, hlay.qubits, hfragment] at hdirect
      cases hdirect
  have hplaced : Placed s 1 wireProgram.gates [p] :=
    ⟨by decide, .cons hlay .nil, fun q hq => by rwa [List.mem_singleton.mp hq]⟩
  have hsuccess : successOf [p] = 1 * x := by
    rw [successOf, List.map_singleton, hfragment]
    rfl
  have hvalid : Processor.checkProbability (successOf [p]) = .ok () := by
    rw [hsuccess, Processor.checkProbability, Double.check_eq_false_iff.mpr hp]
    rfl
  have hherald : (ledgerOf 1 [p]).heralds = [] := by
    rw [ledgerOf, Ledger.heralds_recordAll, List.flatMap_singleton, Placement.heralds, hfragment]
    rfl
  have hs := hplaced.laysOut.sound hr (Nat.le_refl _)
  have hc := compile_of_placed hr rfl (by decide) hplaced
  rw [validate_processorOf hplaced.laysOut hs hplaced.storable, hherald, success_ledgerOf,
    hvalid] at hc
  exact ⟨s, _, hr, hgood, hc, (success_ledgerOf 1 [p]).trans hsuccess⟩

end Wire

theorem compile_success_probability_half :
    ∃ (s : Settings (Device Float) Float) (proc : Processor (Device Float) Float),
      s.registry.Built ∧ compile s (some wireProgram) = .ok proc ∧
      0 < proc.success ∧ proc.success ≤ 1 := by
  obtain ⟨s, proc, hr, hgood, hc, _⟩ := compile_wireProgram (x := 0.5)
    (by unfold Double.InRange; decide) (by unfold Double.InRange; decide)
  obtain ⟨n, ps, hn, hps, _, hiff, _⟩ := compile_success_probability hr hc
  obtain rfl : 1 = n := Int.ofNat.inj hn
  refine ⟨s, proc, hr, hc, hiff.mpr fun p hp => ?_⟩
  cases hps with
  | cons hlay hnil =>
    cases hnil
    obtain rfl := List.mem_singleton.mp hp
    rw [hlay.good.unique hgood]
    decide

/-- A fragment that declares no number passes all checks, and the processor has none either. -/
theorem undefined_probability_accepted :
    ∃ (s : Settings (Device Float) Float) (proc : Processor (Device Float) Float),
      s.registry.Built ∧ compile s (some wireProgram) = .ok proc ∧
      proc.success.isNaN = true ∧ ¬ (0 < proc.success ∧ proc.success ≤ 1) := by
  obtain ⟨s, proc, hr, _, hc, hsuccess⟩ := compile_wireProgram (x := Decimal.nan)
    (by unfold Double.InRange; decide) (by unfold Double.InRange; decide)
  refine ⟨s, proc, hr, hc, ?_, ?_⟩
  · rw [hsuccess]
    decide
  · rw [hsuccess]
    decide

end DualRail
