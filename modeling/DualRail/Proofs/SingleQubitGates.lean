import DualRail.Proofs.HeraldedGate
import DualRail.Proofs.NetworkUnitarity

/-!
The gates on one qubit, from their names to their matrices. Every name of such a gate in the
standard registry, however it is spelled, leads to a fragment for all parameters, and the circuit of
the fragment has the matrix the name stands for, global phase included. Beam splitters are unitary
in every convention and with any phases on their ports.
-/

namespace DualRail

open Complex

/-- A complex number as an amplitude. -/
def Amplitude.ofComplex (z : ℂ) : Amplitude ℝ := ⟨z.re, z.im⟩

theorem Realizes.matrix_eq_ofMatrix {m : Nat} {entries : List (Entry (Component (Device ℝ)))}
    {P : Matrix (Fin m) (Fin m) ℂ} (h : Realizes m entries P) (hm : Dense.Storable m)
    (name : String) :
    (⟨name, m, entries⟩ : Network (Device ℝ)).matrix =
      .ok (Dense.ofMatrix (P.map Amplitude.ofComplex)) := by
  obtain ⟨Q, ⟨Ms, hMs, rfl⟩, rfl⟩ := h
  exact matrix_net_of_hasMatrix hm hMs

namespace Standard

section Layouts

def GivesParts (layout : List ℝ → Except Failure (List (Piece ℝ))) (params : List ℝ) : Prop :=
  ∃ parts, layout params = .ok parts ∧ ∀ part ∈ parts, part.1 + part.2.width ≤ 2

variable (params : List ℝ)

theorem phaseOnOne_givesParts (phi : List ℝ → ℝ) : GivesParts (phaseOnOne phi) params :=
  ⟨_, rfl, List.forall_mem_singleton.mpr (Nat.le_refl 2)⟩

theorem splitter_givesParts {layout : List ℝ → Except Failure (List (Piece ℝ))}
    {convention : Convention} {theta : ℝ}
    (h : layout params = .ok [(0, splitter convention theta)]) : GivesParts layout params :=
  ⟨_, h, List.forall_mem_singleton.mpr (Nat.le_refl 2)⟩

theorem exists_rewire : ∃ p : Permutation, rewire [1, 0] = .ok (.perm p : Component (Device ℝ)) ∧
    p.width = 2 :=
  ⟨_, rfl, rfl⟩

theorem xParts_givesParts : GivesParts xParts params := by
  obtain ⟨p, hp, hwidth⟩ := exists_rewire
  refine ⟨[(0, .perm p)], ?_, List.forall_mem_singleton.mpr ?_⟩
  · rw [xParts, hp]
    rfl
  · rw [Component.width, hwidth]

theorem phases_fit (a b : ℝ) :
    ∀ part ∈ [(0, phase a), (1, phase b)], part.1 + part.2.width ≤ 2 :=
  List.forall_mem_cons.mpr ⟨one_le_two, List.forall_mem_singleton.mpr (Nat.le_refl 2)⟩

theorem yParts_givesParts : GivesParts yParts params := by
  obtain ⟨p, hp, hwidth⟩ := exists_rewire
  refine ⟨[(0, .perm p), (0, phase (-Quantity.pi / num 2)), (1, phase (Quantity.pi / num 2))], ?_,
    List.forall_mem_cons.mpr ⟨?_, phases_fit _ _⟩⟩
  · rw [yParts, hp]
    rfl
  · rw [Component.width, hwidth]

theorem sxParts_givesParts : GivesParts sxParts params :=
  ⟨_, rfl, List.forall_mem_cons.mpr ⟨Nat.le_refl 2, phases_fit _ _⟩⟩

theorem rzParts_givesParts : GivesParts rzParts params := ⟨_, rfl, phases_fit _ _⟩

theorem genericParts_givesParts : GivesParts genericParts params := by
  have hunitary := unitary_euler (params.getD 0 0) (params.getD 1 0) (params.getD 2 0)
  have heps : (0 : ℝ) ≤ Tolerance.standard := by
    simp [Tolerance.standard]
  obtain ⟨V, hV, hU⟩ : ∃ V, Dense.ofRows (genericRows (params.getD 0 0) (params.getD 1 0)
      (params.getD 2 0)) = .ok V ∧ V.Unitary 2 := by
    refine ⟨_, rfl, Dense.unitary_pair ?_⟩
    have hhalf : ((params.getD 0 0 / num 2 : ℝ) : ℂ) = (params.getD 0 0 : ℝ) / 2 := by simp [num]
    simpa only [Amplitude.toComplex_mul, Amplitude.toComplex_neg, Amplitude.toComplex_cis,
      Amplitude.toComplex_ofReal, Complex.ofReal_cos, Complex.ofReal_sin, Complex.ofReal_add,
      real_cos, real_sin, hhalf] using hunitary
  refine ⟨[(0, .device (.unitary "U" V))], ?_, List.forall_mem_singleton.mpr ?_⟩
  · rw [genericParts, hV, ok_bind,
      Device.ofMatrix_of_product (by decide) hU.square.1 hU.square.2 hU.mul_adjoint heps]
    rfl
  · exact (Nat.zero_add _).trans_le hU.square.1.le

theorem givesParts_of_mem {e : GateEntry (Device ℝ) ℝ} (he : e ∈ entries) (harity : e.arity = 1) :
    ∃ kind layout, e.build = some (onQubit kind layout) ∧ GivesParts layout params := by
  simp only [entries, List.mem_cons, List.not_mem_nil, or_false] at he
  rcases he with rfl | rfl | rfl | rfl | rfl | rfl | rfl | rfl | rfl | rfl | rfl | rfl | rfl | rfl |
    rfl | rfl | rfl | rfl
  · exact ⟨_, _, rfl, [], rfl, List.forall_mem_nil _⟩
  · exact ⟨_, _, rfl, splitter_givesParts params rfl⟩
  · exact ⟨_, _, rfl, xParts_givesParts params⟩
  · exact ⟨_, _, rfl, yParts_givesParts params⟩
  · exact ⟨_, _, rfl, phaseOnOne_givesParts params _⟩
  · exact ⟨_, _, rfl, phaseOnOne_givesParts params _⟩
  · exact ⟨_, _, rfl, phaseOnOne_givesParts params _⟩
  · exact ⟨_, _, rfl, phaseOnOne_givesParts params _⟩
  · exact ⟨_, _, rfl, phaseOnOne_givesParts params _⟩
  · exact ⟨_, _, rfl, sxParts_givesParts params⟩
  · exact ⟨_, _, rfl, phaseOnOne_givesParts params _⟩
  · exact ⟨_, _, rfl, rzParts_givesParts params⟩
  · exact ⟨_, _, rfl, splitter_givesParts params rfl⟩
  · exact ⟨_, _, rfl, splitter_givesParts params rfl⟩
  · exact ⟨_, _, rfl, genericParts_givesParts params⟩
  · cases harity
  · cases harity
  · cases harity

end Layouts

section Lookup

theorem validate_qubitFragment (kind : String) (parts : List (Piece ℝ)) :
    (qubitFragment kind parts).validate 1 = .ok () := by
  have hnonpositive : Quantity.le (1 : ℝ) 0 = false :=
    Bool.eq_false_iff.mpr fun h => absurd (real_le_iff.mp h) (by norm_num)
  have habove : Quantity.lt (1 : ℝ) 1 = false :=
    Bool.eq_false_iff.mpr fun h => absurd (real_lt_iff.mp h) (lt_irrefl _)
  simp only [Fragment.validate, qubitFragment, Fragment.checkOffsets, Fragment.checkAncillas,
    hnonpositive, habove]
  rfl

theorem lookup_of_name {e : GateEntry (Device ℝ) ℝ} (he : e ∈ entries) (harity : e.arity = 1)
    {name : String} (hname : canonicalName name ∈ e.names) (req : Request ℝ)
    (hparams : (req.params.length : Int) = e.params) :
    ∃ f build, registry.lookup name req = .ok f ∧ e.build = some build ∧ build req = .ok f := by
  obtain ⟨kind, layout, hbuild, parts, hparts, hfit⟩ := givesParts_of_mem req.params he harity
  have hf : onQubit kind layout req = .ok (qubitFragment kind parts) := by
    rw [onQubit, hparts, ok_bind, assemble_of_fits kind two_pos hfit]
    rfl
  refine ⟨_, _, ?_, hbuild, hf⟩
  rw [Registry.lookup, find?_registry.mpr ⟨he, hname⟩]
  refine Registry.buildFragment_eq_ok.mpr ⟨hparams, _, hbuild, hf, ?_⟩
  rw [harity]
  exact validate_qubitFragment kind parts

/-- The names of gates on one qubit. -/
def qubitNames : List String :=
  ["id", "h", "x", "y", "z", "s", "sdg", "t", "tdg", "sx", "p", "phase", "rz", "rx", "ry", "u",
    "u3"]

theorem names_of_arity_one :
    ((entries : List (GateEntry (Device ℝ) ℝ)).filter (·.arity = 1)).flatMap GateEntry.names =
      qubitNames := rfl

end Lookup

/-- The gates on one qubit are what their names say. Under every spelling of each of their names
and for all parameters there is a fragment, heralded or not, and the matrix of its circuit is the
one the name stands for. Beam splitters of the three conventions are unitary at every angle and with
all phases. -/
theorem single_qubit_gates_realize_matrices :
    (∀ name, (∃ e ∈ (registry : Registry (Device ℝ) ℝ).entries, e.arity = 1 ∧ name ∈ e.names) ↔
      name ∈ qubitNames) ∧
    (∀ e ∈ (registry : Registry (Device ℝ) ℝ).entries, e.arity = 1 →
      ∀ name, canonicalName name ∈ e.names → ∀ heralded params, (params.length : Int) = e.params →
        ∃ f net A, registry.lookup name ⟨heralded, params⟩ = .ok f ∧ f.circuit = some net ∧
          qubitMatrix (canonicalName name) params = some A ∧
          net.matrix = .ok (Dense.ofMatrix (A.map Amplitude.ofComplex))) ∧
    ∀ convention, (∀ number, convention ≠ .unknown number) → ∀ (theta : ℝ) (phases : Phases ℝ),
      ∃ U, (Device.beamSplitter convention theta phases).matrix = .ok U ∧ U.IsSquare 2 ∧
        U.mul U.adjoint = Dense.identity 2 := by
  refine ⟨fun name => ?_, fun e he harity name hname heralded params hparams => ?_,
    fun convention hknown theta phases => ?_⟩
  · rw [← names_of_arity_one, List.mem_flatMap]
    simp only [mem_registry, List.mem_filter, decide_eq_true_eq, and_assoc]
  · rw [mem_registry] at he
    obtain ⟨f, build, hlookup, hbuild, hf⟩ :=
      lookup_of_name he harity hname ⟨heralded, params⟩ hparams
    cases kind_of_mem he with
    | single hnames =>
      obtain ⟨A, hA, hlays⟩ := hnames _ hname params hparams
      obtain rfl := Option.some.inj hbuild
      obtain ⟨parts, hparts, rfl⟩ := onQubit_eq_ok hf
      exact ⟨_, _, A, hlookup, rfl, hA, (hlays parts hparts).matrix_eq_ofMatrix (by decide) _⟩
    | cx => cases harity
    | cz => cases harity
    | swap => cases harity
  · obtain ⟨U, hU, hsquare, hproduct⟩ := Device.exists_unitary_beamSplitter hknown theta phases
    exact ⟨U, hU, hsquare, hproduct⟩

theorem single_qubit_gates_realize_matrices_generic :
    ∃ f net, registry.lookup " U3" ⟨true, [Real.pi / 3, 1, -2]⟩ = .ok f ∧ f.circuit = some net ∧
      net.matrix = .ok (Dense.ofMatrix
        (!![cos (Real.pi / 3 / 2), -exp (-2 * I) * sin (Real.pi / 3 / 2);
          exp (1 * I) * sin (Real.pi / 3 / 2), exp ((1 + -2) * I) * cos (Real.pi / 3 / 2)].map
            Amplitude.ofComplex)) := by
  have he : single "u" ["u3"] 3 "generic U(θ,φ,λ)" genericParts ∈
      (registry : Registry (Device ℝ) ℝ).entries :=
    mem_registry.mpr (by simp [entries])
  have hcanonical : canonicalName " U3" = "u3" := by decide +kernel
  have hname : canonicalName " U3" ∈ ["u", "u3"] := by
    rw [hcanonical]
    decide
  obtain ⟨f, net, A, hlookup, hcircuit, hA, hmatrix⟩ := single_qubit_gates_realize_matrices.2.1 _ he
    rfl " U3" hname true [Real.pi / 3, 1, -2] rfl
  rw [hcanonical] at hA
  obtain rfl := Option.some.inj hA
  refine ⟨f, net, hlookup, hcircuit, ?_⟩
  rw [hmatrix]
  push_cast
  rfl

end Standard

end DualRail
