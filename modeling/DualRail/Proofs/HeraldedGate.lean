import DualRail.Proofs.HeraldedCore
import DualRail.Proofs.RailNetwork

/-!
The heralded controlled gates. The core is an explicit unitary that passes its check over the reals;
the fragments put it between two rewirings and beam splitters on the target, on eight modes: two
ancillas, the rails of the control, the rails of the target, and two more ancillas.
-/

namespace DualRail

open Complex Matrix

section Unitaries

namespace Dense

variable {K : Type} [Scalar K]

theorem ofMatrix_toMatrix {d : Dense K} (h : d.cells.size = d.rows * d.cols) :
    ofMatrix (d.toMatrix d.rows d.cols) = d := by
  obtain ⟨rows, cols, cells⟩ := d
  have hcells : (ofMatrix (toMatrix rows cols ⟨rows, cols, cells⟩)).cells = cells := by
    refine Array.ext (by simp only [ofMatrix, build, Array.size_ofFn]; exact h.symm) ?_
    intro i hi hi'
    have hlt : i < rows * cols := lt_of_lt_of_eq hi' h
    have hcols : 0 < cols := Nat.pos_of_ne_zero fun hz => by simp [hz] at hlt
    have hrow : i / cols < rows := Nat.div_lt_of_lt_mul (lt_of_lt_of_eq hlt (Nat.mul_comm _ _))
    simp [ofMatrix, build, toMatrix, get, hrow, Nat.mod_lt i hcols, Nat.div_add_mod', hi']
  exact congrArg (Dense.mk rows cols) hcells

end Dense

variable {n : Nat}

theorem closeCells_self {eps : ℝ} (h : 0 ≤ eps) (d : Dense (Amplitude ℝ)) :
    Dense.closeCells eps d d = true := by
  have hzero : ∀ x : Amplitude ℝ, Quantity.lt eps (x.sub x).abs = false := by
    intro x
    have habs : (x.sub x).abs = 0 := by
      change Real.sqrt ((x.re - x.re) ^ 2 + (x.im - x.im) ^ 2) = 0
      simp
    rw [habs, Bool.eq_false_iff, ne_eq, real_lt_iff, not_lt]
    exact h
  rw [Dense.closeCells, Bool.not_eq_true', Array.any_eq_false]
  intro i hi
  simp [hzero]

theorem Device.ofMatrix_of_product {V : Dense (Amplitude ℝ)} (hn : Dense.Storable n)
    (hrows : V.rows = n) (hcols : V.cols = n) (hproduct : V.mul V.adjoint = Dense.identity n)
    {eps : ℝ} (h : 0 ≤ eps) (name : String) :
    Device.ofMatrix name eps (some V) = .ok (.unitary name V) := by
  have hunitary : V.isUnitary eps = .ok true := by
    rw [Dense.isUnitary, if_neg (not_not.mpr (hrows.trans hcols.symm)), hproduct, hrows,
      Dense.identity_of_storable hn, noting_ok, ok_bind, ok_bind, Dense.allClose,
      if_neg (by simp), closeCells_self h]
  rw [Device.ofMatrix, hunitary, noting_ok, ok_bind]
  rfl

theorem Device.ofMatrix_of_unitary (hn : Dense.Storable n)
    {A : Matrix (Fin n) (Fin n) (Amplitude ℝ)}
    (hA : Amplitude.complexHom.mapMatrix A * (Amplitude.complexHom.mapMatrix A)ᴴ = 1) {eps : ℝ}
    (h : 0 ≤ eps) (name : String) :
    Device.ofMatrix name eps (some (Dense.ofMatrix A)) =
      .ok (.unitary name (Dense.ofMatrix A)) := by
  have hadjoint : (Dense.ofMatrix A).adjoint = Dense.ofMatrix (Aᵀ.map Scalar.conj) := by
    change Dense.build n n (fun i j => Scalar.conj ((Dense.ofMatrix A).get j i)) = _
    apply Dense.build_eq_ofMatrix
    intro i j
    rw [Dense.get_ofMatrix]
    rfl
  have hproduct : A * Aᵀ.map Scalar.conj = 1 := by
    have hcomplex : Amplitude.complexHom.mapMatrix (A * Aᵀ.map Scalar.conj) =
        Amplitude.complexHom.mapMatrix 1 := by
      rw [map_mul, map_one, ← hA]
      rfl
    funext i j
    exact Amplitude.toComplex_injective (congrFun (congrFun hcomplex i) j)
  refine Device.ofMatrix_of_product hn rfl rfl ?_ h name
  rw [hadjoint, Dense.mul_ofMatrix hn, hproduct, Dense.identity_of_storable hn]

end Unitaries

namespace Standard

section Core

noncomputable def coreStore : Dense (Amplitude ℝ) := ⟨4, 4, coreRows.flatten.toArray⟩

theorem ofRows_coreRows : Dense.ofRows (coreRows (R := ℝ)) = .ok coreStore := rfl

theorem coreStore_get (i j : Fin 4) : (coreStore.get i j).toComplex = heraldCore i j := by
  fin_cases i <;> fin_cases j <;>
    simp [coreStore, coreRows, Dense.get, heraldCore, rootTwo, strong, weak, num]

theorem heraldCore_mul_conjTranspose : heraldCore * heraldCoreᴴ = 1 := by
  have htwo := rootTwo_mul_self
  have hsix := rootSix_mul_self
  have hss := strong_mul_self
  have hww := weak_mul_self
  have hsw := strong_mul_weak
  have hconjTwo : (starRingEnd ℂ) rootTwo = rootTwo := Complex.conj_ofReal _
  have hconjStrong : (starRingEnd ℂ) strong = strong := Complex.conj_ofReal _
  have hconjWeak : (starRingEnd ℂ) weak = weak := Complex.conj_ofReal _
  funext i j
  rw [Matrix.mul_apply, Fin.sum_univ_four]
  fin_cases i <;> fin_cases j <;>
    simp [heraldCore, hconjTwo, hconjStrong, hconjWeak] <;> grind

theorem ofMatrix_core (name : String) :
    Device.ofMatrix name Tolerance.standard (some coreStore) = .ok (.unitary name coreStore) := by
  have hstore : Dense.ofMatrix (coreStore.toMatrix 4 4) = coreStore :=
    Dense.ofMatrix_toMatrix (d := coreStore) rfl
  have hcore : Amplitude.complexHom.mapMatrix (coreStore.toMatrix 4 4) = heraldCore := by
    funext i j
    exact coreStore_get i j
  have hpos : (0 : ℝ) ≤ Tolerance.standard := by
    rw [Tolerance.standard, real_ofNat]
    positivity
  rw [← hstore]
  refine Device.ofMatrix_of_unitary (by decide) ?_ hpos name
  rw [hcore, heraldCore_mul_conjTranspose]

end Core

section Blocks

variable {M w : Nat} {block : List Nat} {e : Fin w → Fin M} {V : Dense (Amplitude ℝ)}
  {W : Matrix (Fin w) (Fin w) ℂ}

theorem actsOn_complexBlock (hnd : block.Nodup) (hlen : block.length = w)
    (he : ∀ i, block[i.val]? = some (e i).val) (hV : ∀ i j : Fin w, (V.get i j).toComplex = W i j) :
    ActsOn (complexBlock M block V) e W := by
  have hmem : ∀ i, (e i).val ∈ block := fun i => List.mem_of_getElem? (he i)
  have hidx : ∀ i, block.idxOf (e i).val = i.val := by
    intro i
    obtain ⟨hlt, hget⟩ := List.getElem?_eq_some_iff.mp (he i)
    rw [← hget]
    exact hnd.idxOf_getElem _ hlt
  have hout : ∀ x : Fin M, x ∉ Set.range e → x.val ∉ block := by
    intro x hx hin
    obtain ⟨k, hk⟩ := List.mem_iff_getElem?.mp hin
    have hlt : k < w := by
      rw [← hlen]
      exact (List.getElem?_eq_some_iff.mp hk).1
    exact hx ⟨⟨k, hlt⟩, Fin.ext (Option.some.inj ((he ⟨k, hlt⟩).symm.trans hk))⟩
  refine ⟨fun i j hij => ?_, fun i j => ?_, fun i j hij => ?_⟩
  · exact Fin.ext ((hidx i).symm.trans ((congrArg (fun x : Fin M => block.idxOf x.val) hij).trans
      (hidx j)))
  · rw [complexBlock_apply, if_pos ⟨hmem i, hmem j⟩, hidx, hidx, hV]
  · exact complexBlock_outside V (hij.imp (hout i) (hout j))

end Blocks

section Assembling

variable {R : Type} [Quantity R]

def heraldedFragment (circuit : Network (Device R)) : Fragment (Device R) R :=
  { circuit := some circuit, qubitOffsets := [2, 4],
    ancillas := [⟨0, 0⟩, ⟨1, 1⟩, ⟨0, 0⟩, ⟨1, 1⟩], heralded := true, postSelect := false,
    success := num 2 / num 27 }

end Assembling

section Fragments

/-- The circuit acts, under its heralds, as `A` on the target if the control is `1`. -/
structure CircuitHeralds (circuit : Network (Device ℝ)) (A : Matrix (Fin 2) (Fin 2) ℂ) : Prop where
  width : circuit.width = 8
  matrix : ∃ W, Realizes 8 circuit.entries W ∧ HeraldsControlled W A

theorem realizes_core {p : Permutation} (h : p.images = #[4, 1, 5, 0, 6, 3, 7, 2]) :
    Realizes 8 [⟨0, .perm p⟩, ⟨0, .device (.unitary "CS" coreStore)⟩, ⟨0, .perm p.inverse⟩]
      (complexBlock 8 [3, 1, 7, 5] coreStore) := by
  have hw : p.width = 8 := by simp [Permutation.width, h]
  have hperm : ∀ q : Permutation, q.width ≤ 8 →
      HaveProduct 8 [(⟨0, .perm q⟩ : Entry (Component (Device ℝ)))]
        (modeMatrix 8 q.apply : Matrix (Fin 8) (Fin 8) (Amplitude ℝ)) := by
    intro q hq
    have hentries := haveProduct_permutationEntries (α := Device ℝ) (K := Amplitude ℝ)
      (by decide) true hq
    simpa [permutationEntries] using hentries
  have hcore : HaveProduct 8
      [(⟨0, .device (.unitary "CS" coreStore)⟩ : Entry (Component (Device ℝ)))]
      (Dense.embedded 8 0 coreStore) :=
    haveProduct_singleton ⟨coreStore, by rw [Component.matrix]; rfl, rfl, by decide, rfl⟩
  have hblock : ∀ a x, [3, 1, 7, 5][a]? = some x → p.apply x = 0 + a := by
    intro a x hax
    have ha : a < 4 := (List.getElem?_eq_some_iff.mp hax).1
    obtain rfl | rfl | rfl | rfl : a = 0 ∨ a = 1 ∨ a = 2 ∨ a = 3 := by omega
    all_goals
      obtain rfl := Option.some.inj hax
      simp [Permutation.apply, h]
  have hconjugate := conjugate_eq_blockMatrix (m := 8) (V := coreStore)
    (Permutation.inverse_apply_apply (p := p)) (Permutation.apply_injective _)
    (fun j hj => by rw [← hw] at hj ⊢; exact Permutation.apply_lt hj) hblock rfl
  refine ⟨_, ?_, congrArg Amplitude.complexHom.mapMatrix hconjugate⟩
  exact ((hperm p (by omega)).append hcore).append (hperm p.inverse (by
    rw [Permutation.width_inverse]
    omega))

theorem realizes_target : Realizes 8 [⟨4, balanced⟩] (pairMatrix 8 4 balancedMatrix) :=
  realizes_balanced (by omega)

noncomputable def heraldedParts (p : Permutation) : List (Piece ℝ) :=
  [(4, balanced), (0, .perm p), (0, .device (.unitary "CS" coreStore)), (0, .perm p.inverse),
    (4, balanced)]

theorem heraldedParts_fit {p : Permutation} (h : p.width = 8) :
    ∀ part ∈ heraldedParts p, part.1 + part.2.width ≤ 8 := by
  have hinverse : p.inverse.width = 8 := p.width_inverse.trans h
  have hb : (balanced : Component (Device ℝ)).width = 2 := rfl
  have hcore : (.device (.unitary "CS" coreStore) : Component (Device ℝ)).width = 4 := rfl
  have hp : ∀ q : Permutation, (.perm q : Component (Device ℝ)).width = q.width := fun _ => rfl
  simp [heraldedParts, hb, hcore, hp, h, hinverse]

theorem heraldedCnot_eq : ∃ circuit, heraldedCnot = .ok (heraldedFragment circuit) ∧
    CircuitHeralds circuit !![0, 1; 1, 0] := by
  obtain ⟨p, hp, himages⟩ : ∃ p, Permutation.ofVector gatherVector = .ok p ∧
      p.images = #[4, 1, 5, 0, 6, 3, 7, 2] := ⟨_, rfl, rfl⟩
  have hw : p.width = 8 := by simp [Permutation.width, himages]
  have hcircuit := assemble_of_fits "heralded cnot" (by omega) (heraldedParts_fit hw)
  have hrealizes := realizes_target.cons ((realizes_core himages).append realizes_target)
  have hcore : ActsOn (complexBlock 8 [3, 1, 7, 5] coreStore) coreModes heraldCore :=
    actsOn_complexBlock (by decide) rfl (by decide) coreStore_get
  have hacts := (heraldsControlled_core hcore).conjugate balancedMatrix_mul_self
  rw [Matrix.mul_assoc] at hrealizes
  rw [balancedMatrix_sign] at hacts
  refine ⟨⟨"heralded cnot", 8, entriesOf (heraldedParts p)⟩, ?_, rfl, _, hrealizes, hacts⟩
  rw [heraldedCnot, ofRows_coreRows, ok_bind, ofMatrix_core, ok_bind, hp, ok_bind]
  change (assemble 8 "heralded cnot" (heraldedParts p) >>= _) = _
  rw [hcircuit]
  rfl

theorem heralded_cnot_eq (params : List ℝ) : ∃ circuit,
    cnot ⟨true, params⟩ = .ok (heraldedFragment circuit) ∧ CircuitHeralds circuit !![0, 1; 1, 0] :=
  heraldedCnot_eq

noncomputable def splitParts (inner : Network (Device ℝ)) : List (Piece ℝ) :=
  [(4, balanced), (0, inner.toComponent), (4, balanced)]

/-- The heralded controlled Z: the beam splitters around the controlled NOT undo its own. -/
theorem heralded_cz_eq (params : List ℝ) : ∃ circuit,
    cz ⟨true, params⟩ = .ok (heraldedFragment circuit) ∧
      CircuitHeralds circuit !![1, 0; 0, -1] := by
  obtain ⟨⟨name, width, entries⟩, hcnot, hwidth, W, hW, hacts⟩ := heralded_cnot_eq params
  obtain rfl : width = 8 := hwidth
  have hfits : ∀ part ∈ splitParts ⟨name, 8, entries⟩, part.1 + part.2.width ≤ 8 := by
    have hb : (balanced : Component (Device ℝ)).width = 2 := rfl
    have hinner : (⟨name, 8, entries⟩ : Network (Device ℝ)).toComponent.width = 8 := rfl
    simp [splitParts, hb, hinner]
  have hstore : Dense.Storable 8 := by decide
  have hinner := realizes_nested ⟨name, 8, entries⟩ hW hstore
  have hrealizes := realizes_target.cons (hinner.cons realizes_target)
  have hacts := hacts.conjugate balancedMatrix_mul_self
  rw [Matrix.mul_assoc] at hrealizes
  rw [balancedMatrix_exchange] at hacts
  refine ⟨⟨"cz", 8, entriesOf (splitParts ⟨name, 8, entries⟩)⟩, ?_, rfl, _, hrealizes, hacts⟩
  rw [cz, hcnot, ok_bind]
  change (assemble 8 "cz" (splitParts ⟨name, 8, entries⟩) >>= _) = _
  rw [assemble_of_fits "cz" (by omega) hfits]
  rfl

end Fragments

end Standard

end DualRail
