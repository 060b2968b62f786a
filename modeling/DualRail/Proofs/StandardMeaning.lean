import DualRail.Proofs.ControlledGates
import DualRail.Proofs.Layout

/-!
What the standard gates stand for. A gate that resolves in the standard registry, without heralding,
stands for a gate of a circuit, and its fragment is one that implements this gate.
-/

namespace DualRail

open Complex

namespace Standard

inductive Implements {n : Nat} : LogicalGate n → List Nat → Fragment (Device ℝ) ℝ → Prop where
  | single {q : Fin n} {A : Matrix (Fin 2) (Fin 2) ℂ} {kind : String} {parts : List (Piece ℝ)} :
      Realizes 2 (entriesOf parts) A →
      Implements (.single q A) [q.val] (qubitFragment kind parts)
  | cx {c t : Fin n} : c ≠ t →
      Implements (.cx c t) [c.val, t.val] (controlledFragment cnotCircuit)
  | cz {c t : Fin n} : c ≠ t →
      Implements (.cz c t) [c.val, t.val] (controlledFragment czCircuit)
  | swap {a b : Fin n} {p : Permutation} : a ≠ b → p.images = #[2, 3, 0, 1] →
      Implements (.swap a b) [a.val, b.val] (swapFragment p)

noncomputable def fragmentMatrix {n : Nat} :
    LogicalGate n → Σ w : Nat, Matrix (Fin w) (Fin w) ℂ
  | .single _ A => ⟨2, A⟩
  | .cx _ _ => ⟨6, cxMatrix⟩
  | .cz _ _ => ⟨6, coreMatrix⟩
  | .swap _ _ => ⟨4, swapMatrix⟩

theorem Implements.exists_matrix {n : Nat} {l : LogicalGate n} {qubits : List Nat}
    {f : Fragment (Device ℝ) ℝ} (h : Implements l qubits f) {c : Network (Device ℝ)}
    (hc : f.circuit = some c) :
    ∃ V : Dense (Amplitude ℝ), c.matrix = .ok V ∧ c.width = (fragmentMatrix l).1 ∧
      ∀ i j : Fin (fragmentMatrix l).1, (V.get i j).toComplex = (fragmentMatrix l).2 i j := by
  cases h with
  | single hA =>
    obtain rfl := Option.some.inj hc
    obtain ⟨V, hV, hentry⟩ := hA.matrix_eq (by decide) _
    exact ⟨V, hV, rfl, hentry⟩
  | cx _ =>
    obtain rfl := Option.some.inj hc
    obtain ⟨V, hV, hentry⟩ := realizes_cnotCircuit.matrix_eq (by decide) _
    exact ⟨V, hV, rfl, hentry⟩
  | cz _ =>
    obtain rfl := Option.some.inj hc
    obtain ⟨V, hV, hentry⟩ := realizes_czCircuit.matrix_eq (by decide) _
    exact ⟨V, hV, rfl, hentry⟩
  | swap _ hp =>
    obtain rfl := Option.some.inj hc
    obtain ⟨V, hV, hentry⟩ := (realizes_swap hp).matrix_eq (by decide) _
    exact ⟨V, hV, rfl, hentry⟩

def NamesMatrix (names : List String) (count : Int)
    (layout : List ℝ → Except Failure (List (Piece ℝ))) : Prop :=
  ∀ name ∈ names, ∀ params : List ℝ, (params.length : Int) = count →
    ∃ A, qubitMatrix name params = some A ∧ LaysMatrix layout params A

theorem namesMatrix_of_none {names : List String} {A : Matrix (Fin 2) (Fin 2) ℂ}
    {layout : List ℝ → Except Failure (List (Piece ℝ))}
    (hn : ∀ name ∈ names, qubitMatrix name [] = some A) (h : LaysMatrix layout [] A) :
    NamesMatrix names 0 layout := by
  intro name hname params hcount
  obtain rfl : params = [] := List.length_eq_zero_iff.mp (by omega)
  exact ⟨A, hn name hname, h⟩

theorem namesMatrix_of_one {names : List String} {A : ℝ → Matrix (Fin 2) (Fin 2) ℂ}
    {layout : List ℝ → Except Failure (List (Piece ℝ))}
    (hn : ∀ name ∈ names, ∀ a, qubitMatrix name [a] = some (A a))
    (h : ∀ a, LaysMatrix layout [a] (A a)) : NamesMatrix names 1 layout := by
  intro name hname params hcount
  obtain ⟨a, rfl⟩ := List.length_eq_one_iff.mp (by omega : params.length = 1)
  exact ⟨A a, hn name hname a, h a⟩

theorem namesMatrix_of_three {names : List String} {A : ℝ → ℝ → ℝ → Matrix (Fin 2) (Fin 2) ℂ}
    {layout : List ℝ → Except Failure (List (Piece ℝ))}
    (hn : ∀ name ∈ names, ∀ a b c, qubitMatrix name [a, b, c] = some (A a b c))
    (h : ∀ a b c, LaysMatrix layout [a, b, c] (A a b c)) : NamesMatrix names 3 layout := by
  intro name hname params hcount
  obtain ⟨a, b, c, rfl⟩ := List.length_eq_three.mp (by omega : params.length = 3)
  exact ⟨A a b c, hn name hname a b c, h a b c⟩

inductive Kind : GateEntry (Device ℝ) ℝ → Prop where
  | single {kind summary : String} {aliases : List String} {count : Int}
      {layout : List ℝ → Except Failure (List (Piece ℝ))} :
      NamesMatrix (kind :: aliases) count layout → Kind (single kind aliases count summary layout)
  | cx {summary : String} : Kind (double "cx" ["cnot"] summary cnot)
  | cz {summary : String} : Kind (double "cz" [] summary cz)
  | swap {summary : String} : Kind (double "swap" [] summary swap)

theorem kind_of_mem {e : GateEntry (Device ℝ) ℝ} (he : e ∈ entries) : Kind e := by
  simp only [entries, List.mem_cons, List.not_mem_nil, or_false] at he
  rcases he with rfl | rfl | rfl | rfl | rfl | rfl | rfl | rfl | rfl | rfl | rfl | rfl | rfl | rfl |
    rfl | rfl | rfl | rfl
  · exact .single (namesMatrix_of_none (by simp [qubitMatrix]) noParts_matrix)
  · exact .single (namesMatrix_of_none (by simp [qubitMatrix]) hadamardParts_matrix)
  · exact .single (namesMatrix_of_none (by simp [qubitMatrix]) xParts_matrix)
  · exact .single (namesMatrix_of_none (by simp [qubitMatrix]) yParts_matrix)
  · exact .single (namesMatrix_of_none (by simp [qubitMatrix])
      (phaseOnOne_matrix _ _ Complex.exp_pi_mul_I))
  · exact .single (namesMatrix_of_none (by simp [qubitMatrix]) (phaseOnOne_matrix _ _ exp_half_pi))
  · exact .single (namesMatrix_of_none (by simp [qubitMatrix])
      (phaseOnOne_matrix _ _ exp_neg_half_pi))
  · exact .single (namesMatrix_of_none (A := !![1, 0; 0, exp (Real.pi / 4 * I)])
      (by simp [qubitMatrix]) (phaseOnOne_matrix _ _ (by simp [num])))
  · exact .single (namesMatrix_of_none (A := !![1, 0; 0, exp (-(Real.pi / 4) * I)])
      (by simp [qubitMatrix]) (phaseOnOne_matrix _ _ (by simp [num, neg_div])))
  · exact .single (namesMatrix_of_none (by simp [qubitMatrix]) sxParts_matrix)
  · exact .single (namesMatrix_of_one (by simp [qubitMatrix, first])
      fun a => phaseOnOne_matrix first [a] rfl)
  · exact .single (namesMatrix_of_one (by simp [qubitMatrix]) rzParts_matrix)
  · exact .single (namesMatrix_of_one (by simp [qubitMatrix]) rxParts_matrix)
  · exact .single (namesMatrix_of_one (by simp [qubitMatrix]) ryParts_matrix)
  · exact .single (namesMatrix_of_three (by simp [qubitMatrix]) genericParts_matrix)
  · exact .cx
  · exact .cz
  · exact .swap

theorem qubitOf_eq_some {n : Nat} {q : Int} (h : 0 ≤ q ∧ q < n) :
    ∃ i : Fin n, qubitOf n q = some i ∧ i.val = q.toNat := by
  have hlt : q.toNat < n := by omega
  refine ⟨⟨q.toNat, hlt⟩, ?_, rfl⟩
  rw [qubitOf, dif_pos hlt, if_pos h.1]

theorem operand_of_fit {n : Nat} {e : GateEntry (Device ℝ) ℝ} {g : Gate ℝ}
    (h : OperandsFit n e g) (harity : e.arity = 1) :
    ∃ i : Fin n, g.qubits.map (qubitOf n) = [some i] ∧ g.qubits.map Int.toNat = [i.val] := by
  obtain ⟨q, hq⟩ := List.length_eq_one_iff.mp (by have := h.arity; omega : g.qubits.length = 1)
  obtain ⟨i, hi, hv⟩ := qubitOf_eq_some (h.inside q (by rw [hq]; exact List.mem_singleton_self q))
  exact ⟨i, by rw [hq, List.map_singleton, hi], by rw [hq, List.map_singleton, hv]⟩

theorem operands_of_fit {n : Nat} {e : GateEntry (Device ℝ) ℝ} {g : Gate ℝ}
    (h : OperandsFit n e g) (harity : e.arity = 2) :
    ∃ i j : Fin n, i ≠ j ∧ g.qubits.map (qubitOf n) = [some i, some j] ∧
      g.qubits.map Int.toNat = [i.val, j.val] := by
  obtain ⟨q, r, hq⟩ := List.length_eq_two.mp (by have := h.arity; omega : g.qubits.length = 2)
  have hqin := h.inside q (by simp [hq])
  have hrin := h.inside r (by simp [hq])
  obtain ⟨i, hi, hvi⟩ := qubitOf_eq_some hqin
  obtain ⟨j, hj, hvj⟩ := qubitOf_eq_some hrin
  have hne : q ≠ r := by
    have hnd := h.nodup
    rw [hq] at hnd
    simpa using hnd
  refine ⟨i, j, fun hij => hne ?_, by simp [hq, hi, hj], by simp [hq, hvi, hvj]⟩
  have := congrArg Fin.val hij
  omega

/-- What a gate that resolves becomes: a fragment for its matrix, what the builders of controlled
gates give, or an exchange. -/
inductive Resolves {n : Nat} (heralded : Bool) :
    LogicalGate n → List Nat → Fragment (Device ℝ) ℝ → Prop where
  | single {q : Fin n} {A : Matrix (Fin 2) (Fin 2) ℂ} {kind : String} {parts : List (Piece ℝ)} :
      Realizes 2 (entriesOf parts) A →
      Resolves heralded (.single q A) [q.val] (qubitFragment kind parts)
  | cx {c t : Fin n} {params : List ℝ} {f : Fragment (Device ℝ) ℝ} : c ≠ t →
      cnot ⟨heralded, params⟩ = .ok f → Resolves heralded (.cx c t) [c.val, t.val] f
  | cz {c t : Fin n} {params : List ℝ} {f : Fragment (Device ℝ) ℝ} : c ≠ t →
      cz ⟨heralded, params⟩ = .ok f → Resolves heralded (.cz c t) [c.val, t.val] f
  | swap {a b : Fin n} {p : Permutation} : a ≠ b → p.images = #[2, 3, 0, 1] →
      Resolves heralded (.swap a b) [a.val, b.val] (swapFragment p)

/-- A standard gate that resolves stands for a gate of a circuit. -/
theorem resolves_of_good {s : Settings (Device ℝ) ℝ} (hs : s.registry = registry) {n : Nat}
    {g : Gate ℝ} {f : Fragment (Device ℝ) ℝ} (h : GoodGate s n g f) :
    ∃ l, g.logical n = some l ∧ Resolves s.heralded l (g.qubits.map Int.toNat) f := by
  obtain ⟨e, he, hfit, hf⟩ := h
  rw [hs] at he
  obtain ⟨hmem, hname⟩ := find?_registry.mp he
  rw [fragmentFor, hs, lookup_registry hmem] at hf
  obtain ⟨hparams, build, hbuild, hf, _⟩ := Registry.buildFragment_eq_ok.mp hf
  unfold Gate.logical
  cases kind_of_mem hmem with
  | single hlayout =>
    obtain ⟨i, hi, hv⟩ := operand_of_fit hfit rfl
    obtain ⟨A, hA, hparts⟩ := hlayout _ hname g.params hparams
    obtain rfl := Option.some.inj hbuild
    obtain ⟨parts, hlaid, rfl⟩ := onQubit_eq_ok hf
    exact ⟨.single i A, by rw [hi]; simp only [hA]; rfl, hv ▸ .single (hparts parts hlaid)⟩
  | cx =>
    obtain ⟨i, j, hne, hij, hv⟩ := operands_of_fit hfit rfl
    obtain rfl := Option.some.inj hbuild
    refine ⟨.cx i j, ?_, hv ▸ .cx hne hf⟩
    rcases List.mem_cons.mp hname with hname | hname
    · simp only [hij, hname]
      rfl
    · simp only [hij, List.mem_singleton.mp hname]
      rfl
  | cz =>
    obtain ⟨i, j, hne, hij, hv⟩ := operands_of_fit hfit rfl
    obtain rfl := Option.some.inj hbuild
    refine ⟨.cz i j, ?_, hv ▸ .cz hne hf⟩
    simp only [hij, List.mem_singleton.mp hname]
    rfl
  | swap =>
    obtain ⟨i, j, hne, hij, hv⟩ := operands_of_fit hfit rfl
    obtain rfl := Option.some.inj hbuild
    obtain ⟨p, hp, hswap⟩ := swap_eq (R := ℝ) ⟨s.heralded, g.params⟩
    obtain rfl := Except.ok.inj (hswap.symm.trans hf)
    refine ⟨.swap i j, ?_, hv ▸ .swap hne hp⟩
    simp only [hij, List.mem_singleton.mp hname]
    rfl

theorem Resolves.implements {n : Nat} {l : LogicalGate n} {qubits : List Nat}
    {f : Fragment (Device ℝ) ℝ} (h : Resolves false l qubits f) : Implements l qubits f := by
  cases h with
  | single hA => exact .single hA
  | cx hct hf =>
    obtain rfl := Except.ok.inj ((cnot_eq _).symm.trans hf)
    exact .cx hct
  | cz hct hf =>
    obtain rfl := Except.ok.inj ((cz_eq _).symm.trans hf)
    exact .cz hct
  | swap hab hp => exact .swap hab hp

theorem implements_of_good {s : Settings (Device ℝ) ℝ} (hs : s.registry = registry)
    (hh : s.heralded = false) {n : Nat} {g : Gate ℝ} {f : Fragment (Device ℝ) ℝ}
    (h : GoodGate s n g f) :
    ∃ l, g.logical n = some l ∧ Implements l (g.qubits.map Int.toNat) f := by
  obtain ⟨l, hl, hf⟩ := resolves_of_good hs h
  rw [hh] at hf
  exact ⟨l, hl, hf.implements⟩

end Standard

end DualRail
