import Mathlib
import DualRail.Program.Basic

/-!
The check of a program, read as conditions: operands without fault lie in the range and differ, and
a program that passes has qubits and gates without fault.
-/

namespace DualRail

variable {R : Type} [Quantity R]

namespace Gate

omit [Quantity R] in
/-- Operands without fault lie in the range and differ, from each other and from those before. -/
theorem operandFaults_eq_nil_iff {n : Int} {earlier qs : List Int} :
    operandFaults n earlier qs = [] ↔
      (∀ q ∈ qs, 0 ≤ q ∧ q < n) ∧ qs.Nodup ∧ ∀ q ∈ qs, q ∉ earlier := by
  induction qs generalizing earlier with
  | nil => simp [operandFaults]
  | cons q rest ih =>
    have hrange : (if q < 0 || n ≤ q then [Defect.Fault.operandRange q n] else []) = [] ↔
        0 ≤ q ∧ q < n := by
      split
      · rename_i h
        simp only [Bool.or_eq_true, decide_eq_true_eq] at h
        exact iff_of_false (List.cons_ne_nil _ _) (by omega)
      · rename_i h
        simp only [Bool.or_eq_true, decide_eq_true_eq] at h
        exact iff_of_true rfl (by omega)
    have hrepeat : (earlier.filter (· == q)).map (fun _ => Defect.Fault.repeatedOperand q) = [] ↔
        q ∉ earlier := by
      rw [List.map_eq_nil_iff, List.filter_eq_nil_iff]
      constructor
      · intro h hq
        exact h q hq (beq_self_eq_true q)
      · intro h x hx hxq
        exact h (eq_of_beq hxq ▸ hx)
    rw [operandFaults, List.append_eq_nil_iff, List.append_eq_nil_iff, hrange, hrepeat, ih]
    grind

theorem faults_eq {n : Int} {g : Gate R} (hkind : (Text.trim g.kind.toList).isEmpty = false)
    (hcount : g.qubits.length = 1 ∨ g.qubits.length = 2) :
    g.faults n = operandFaults n [] g.qubits ++
      (g.params.filter (!Quantity.isFinite ·)).map fun _ => .badParameter := by
  have hfew : (g.qubits.isEmpty || maxArity < g.qubits.length) = false := by
    rw [Bool.or_eq_false_iff, List.isEmpty_eq_false_iff, decide_eq_false_iff_not, maxArity]
    exact ⟨List.ne_nil_of_length_pos (by omega), by omega⟩
  rw [faults, hkind, hfew]
  rfl

theorem of_faults_eq_nil {n : Int} {g : Gate R} (h : g.faults n = []) :
    (∀ q ∈ g.qubits, 0 ≤ q ∧ q < n) ∧ g.qubits.Nodup := by
  unfold faults at h
  split at h
  · cases h
  · split at h
    · cases h
    · obtain ⟨hrange, hnodup, _⟩ := operandFaults_eq_nil_iff.mp (List.append_eq_nil_iff.mp h).1
      exact ⟨hrange, hnodup⟩

end Gate

namespace Program

theorem exists_of_mem_defectsFrom {n : Int} {index : Nat} {gs : List (Gate R)} {d : Defect}
    (h : d ∈ defectsFrom n index gs) : ∃ g ∈ gs, d.fault ∈ g.faults n := by
  induction gs generalizing index with
  | nil => cases h
  | cons g rest ih =>
    rw [defectsFrom, List.mem_append] at h
    rcases h with h | h
    · obtain ⟨fault, hfault, rfl⟩ := List.mem_map.mp h
      exact ⟨g, List.mem_cons_self, hfault⟩
    · obtain ⟨g', hg', hfault⟩ := ih h
      exact ⟨g', List.mem_cons_of_mem _ hg', hfault⟩

theorem faults_of_defectsFrom_eq_nil {n : Int} {index : Nat} {gs : List (Gate R)}
    (h : defectsFrom n index gs = []) : ∀ g ∈ gs, g.faults n = [] := by
  induction gs generalizing index with
  | nil =>
    intro g hg
    cases hg
  | cons g rest ih =>
    rw [defectsFrom, List.append_eq_nil_iff] at h
    exact List.forall_mem_cons.mpr ⟨List.map_eq_nil_iff.mp h.1, ih h.2⟩

theorem validate_eq_ok {prog : Program R} (h : prog.validate = .ok ()) :
    0 < prog.qubits ∧ ∀ g ∈ prog.gates, g.faults prog.qubits = [] := by
  unfold validate at h
  split at h
  · cases h
  · rename_i hpos
    split at h
    · rename_i hnone
      exact ⟨Int.not_le.mp hpos, faults_of_defectsFrom_eq_nil (List.isEmpty_iff.mp hnone)⟩
    · cases h

end Program

end DualRail
