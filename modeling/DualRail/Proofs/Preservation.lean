import DualRail.Proofs.Meaning
import DualRail.Proofs.StandardCompilation

/-!
Compilation preserves meaning at the level of modes: the matrix of a compiled network is the product
of the matrices of its gates, each acting through the circuit of its fragment on the modes of its
block.
-/

namespace DualRail

section Preservation

variable {α R K : Type} [Element α] [Quantity R] [ExactScalar K] [Transfer α K]

/-- The network of a compiled program has the product of the gate matrices as its matrix, where
every gate acts through the circuit of its fragment on the rails of its operands and on its new
modes. -/
theorem compile_preserves_meaning {s : Settings α R} (hr : s.registry.Built) {prog : Program R}
    {proc : Processor α R} (h : compile s (some prog) = .ok proc) :
    ∃ (n : Nat) (ps : List (Placement α R)) (net : Network α),
      prog.qubits = n ∧ LaysOut s n (2 * n) prog.gates ps ∧
      (∀ p ∈ ps, p.fragment.ancillaPositions = .ok p.fragment.freePositions ∧
        p.fragment.IsBlock p.qubits p.base p.block) ∧
      proc.network = some net ∧
      ∀ Vs : List (Dense K), List.Forall₂ (fun p V => p.circuit.matrix = .ok V) ps Vs →
        net.matrix = (Dense.identity net.width).map fun _ : Dense K =>
          Dense.ofMatrix (gateMatrices net.width ps Vs).reverse.prod := by
  obtain ⟨n, ps, ess, hn, _, _, hps, ho, hess, rfl⟩ := compile_eq_ok hr h
  have hs := hps.sound hr (Nat.le_refl _)
  refine ⟨n, ps, _, hn, hps, fun p hp => ?_, rfl, fun Vs hVs => ?_⟩
  · exact ⟨(hs p hp).ancillaPositions_eq (ho p hp), (hs p hp).isBlock⟩
  · exact Network.matrix_of_haveProduct fun hm => haveProduct_flatten hm hs hps.stop_le hess hVs

end Preservation

theorem compile_preserves_meaning_sample :
    ∃ (proc : Processor (Device ℝ) ℝ) (n : Nat) (ps : List (Placement (Device ℝ) ℝ))
      (net : Network (Device ℝ)) (Vs : List (Dense (Amplitude ℝ))),
      compile Settings.standard (some Standard.sampleProgram) = .ok proc ∧
      LaysOut Settings.standard n (2 * n) Standard.sampleProgram.gates ps ∧
      proc.network = some net ∧ List.Forall₂ (fun p V => p.circuit.matrix = .ok V) ps Vs ∧
      net.matrix = (Dense.identity net.width).map fun _ : Dense (Amplitude ℝ) =>
        Dense.ofMatrix (gateMatrices net.width ps Vs).reverse.prod := by
  obtain ⟨proc, h⟩ := Standard.compile_sampleProgram
  obtain ⟨n, ps, net, _, hps, _, hnet, hmatrix⟩ :=
    compile_preserves_meaning (K := Amplitude ℝ) Standard.standard_built h
  obtain ⟨Vs, hVs⟩ := Standard.matrices_of_laysOut rfl rfl hps
  exact ⟨proc, n, ps, net, Vs, h, hps, hnet, hVs, hmatrix Vs hVs⟩

end DualRail
