import DualRail.Proofs.NetworkUnitarity

/-!
Permutation matrices. Column `j` of the matrix of a permutation has its one in row `p j`. Hence the
permutation that comes later is the factor on the left, the way back is the adjoint, and widening
places the matrix on the diagonal of an identity. Every law is a law of the stored matrices: its
two sides are the same matrix if one of that size has a place in storage, and both overrun if not.
-/

namespace DualRail

variable {K : Type}

/-- Two ways to one matrix on `n` modes, which give it exactly if it has a place in storage. -/
structure SameMatrix (n : Nat) (x y : Except Failure (Dense K)) : Prop where
  stored : Dense.Storable n → ∃ U, x = .ok U ∧ y = .ok U
  overrun : ¬ Dense.Storable n → EndsInOverrun x ∧ EndsInOverrun y

theorem Dense.endsInOverrun_identity [ExactScalar K] {n : Nat} (hn : 0 < n) (h : ¬ Storable n) :
    EndsInOverrun (identity n : Except Failure (Dense K)) := by
  cases hid : (identity n : Except Failure (Dense K)) with
  | ok one => exact absurd (storable_of_identity hid) h
  | error f => exact ⟨f, rfl, identity_eq_error hn hid⟩

namespace Permutation

variable {p q : Permutation}

section Laws

theorem matrix_eq_of_width [ExactScalar K] {n : Nat} (h : p.width = n) :
    (p.matrix : Dense K) = Dense.ofMatrix (modeMatrix n p.apply) := by
  subst h
  exact matrix_eq_ofMatrix p

theorem matrix_mul_matrix [ExactScalar K] (hs : Dense.Storable p.width) (h : p.width = q.width) :
    (q.matrix : Dense K).mul p.matrix = .ok (p.comp q h).matrix := by
  rw [matrix_eq_of_width h.symm, matrix_eq_of_width (p := p) rfl, Dense.mul_ofMatrix hs,
    modeMatrix_mul_modeMatrix fun _ => apply_lt,
    matrix_eq_of_width (p := p.comp q h) (width_comp p q h)]
  exact congrArg (fun A => Except.ok (Dense.ofMatrix A))
    (modeMatrix_congr fun j _ => (comp_apply p q h j).symm)

theorem adjoint_matrix [ConjugateScalar K] (p : Permutation) :
    (p.matrix : Dense K).adjoint = p.inverse.matrix := by
  rw [matrix_eq_of_width (p := p.inverse) p.width_inverse, ← conjTranspose_modeMatrix]
  change Dense.build p.width p.width _ = _
  refine Dense.build_eq_ofMatrix fun i j => ?_
  exact (ConjugateScalar.conj_eq_star _).trans (congrArg star (get_matrix j.isLt i.isLt))

theorem embed_matrix [ExactScalar K] {m offset : Nat} (hs : Dense.Storable m)
    (hfit : offset + p.width ≤ m) :
    Dense.embed m offset (p.matrix : Dense K) =
      .ok (p.raise offset (m - (offset + p.width))).matrix := by
  rw [Dense.embed_of_storable hs rfl hfit, embedded_matrix,
    matrix_eq_of_width (width_raise_of_fits hfit)]
  -- beyond the block a raised permutation moves nothing, whatever its width
  refine congrArg (fun A => Except.ok (Dense.ofMatrix A)) (modeMatrix_congr fun j _ => ?_)
  rw [raise_apply, raise_apply]

theorem matrix_injective [ExactScalar K] [Nontrivial K]
    (h : (p.matrix : Dense K) = q.matrix) : p = q := by
  have hw : p.width = q.width := congrArg Dense.rows h
  refine ext_apply hw fun j hj => ?_
  have himage : p.apply j < p.width := apply_lt hj
  have hone : (q.matrix : Dense K).get (p.apply j) j = 1 := by
    rw [← h, get_matrix himage hj, if_pos rfl]
  rw [get_matrix (hw ▸ himage) (hw ▸ hj)] at hone
  by_contra hne
  rw [if_neg (Ne.symm hne)] at hone
  exact zero_ne_one hone

end Laws

theorem endsInOverrun_storedMatrix [Scalar K] (h : ¬ Dense.Storable p.width) :
    EndsInOverrun (p.storedMatrix : Except Failure (Dense K)) :=
  storedMatrix_of_not_storable h

theorem sameMatrix_andThen [ExactScalar K] (h : p.width = q.width) :
    SameMatrix p.width (p.andThen q >>= fun r => r.storedMatrix)
      (q.storedMatrix >>= fun U : Dense K => p.storedMatrix >>= fun V => U.mul V) := by
  rw [andThen_eq h, ok_bind]
  have hcomp := width_comp p q h
  constructor
  · intro hs
    refine ⟨_, storedMatrix_of_storable (by rwa [hcomp]), ?_⟩
    rw [storedMatrix_of_storable (p := q) (by rwa [← h]), ok_bind, storedMatrix_of_storable hs,
      ok_bind, matrix_mul_matrix hs h]
  · intro hs
    exact ⟨endsInOverrun_storedMatrix (by rwa [hcomp]),
      (endsInOverrun_storedMatrix (by rwa [← h])).bind _⟩

theorem sameMatrix_inverse [ConjugateScalar K] (p : Permutation) :
    SameMatrix p.width p.inverse.storedMatrix
      (p.storedMatrix.map fun U : Dense K => U.adjoint) := by
  have hinverse := p.width_inverse
  constructor
  · intro hs
    refine ⟨_, storedMatrix_of_storable (by rwa [hinverse]), ?_⟩
    rw [storedMatrix_of_storable hs]
    exact congrArg Except.ok (adjoint_matrix p)
  · intro hs
    exact ⟨endsInOverrun_storedMatrix (by rwa [hinverse]), (endsInOverrun_storedMatrix hs).map _⟩

/-- A width that fits into storage as a permutation may still be too large for a matrix; then the
lifted permutation is there and overruns only when its matrix is made. -/
theorem sameMatrix_lift [ExactScalar K] {m offset : Nat} (hfit : offset + p.width ≤ m) :
    SameMatrix m (p.lift m offset >>= fun r => r.storedMatrix)
      (p.storedMatrix >>= fun U : Dense K => Dense.embed m offset U) := by
  have hpos := p.width_pos
  have hraise := width_raise_of_fits hfit
  constructor
  · intro hs
    rw [lift_of_fits hfit hs.room, ok_bind,
      storedMatrix_of_storable (p := p) (hs.mono hpos (by omega)), ok_bind]
    exact ⟨_, storedMatrix_of_storable (by rwa [hraise]), embed_matrix hs hfit⟩
  · intro hs
    constructor
    · by_cases hroom : m * 8 ≤ Storage.limit
      · rw [lift_of_fits hfit hroom, ok_bind]
        exact endsInOverrun_storedMatrix (by rwa [hraise])
      · rw [lift_overrun hfit (Nat.not_le.mp hroom)]
        exact ⟨_, rfl, Failure.isOverrun_overrun _⟩
    · by_cases hp : Dense.Storable p.width
      · rw [storedMatrix_of_storable hp, ok_bind,
          Dense.embed_of_not_storable hs hpos rfl hfit (p.matrix : Dense K)]
        exact (Dense.endsInOverrun_identity (by omega) hs).map _
      · exact (endsInOverrun_storedMatrix hp).bind _

theorem sameMatrix_mul_adjoint [ConjugateScalar K] (p : Permutation) :
    SameMatrix p.width (p.storedMatrix >>= fun U : Dense K => U.mul U.adjoint)
      (Dense.identity p.width) := by
  constructor
  · intro hs
    rw [storedMatrix_of_storable hs, ok_bind, (p.unitary_matrix hs).mul_adjoint]
    exact ⟨_, Dense.identity_of_storable hs, Dense.identity_of_storable hs⟩
  · intro hs
    exact ⟨(endsInOverrun_storedMatrix hs).bind _, Dense.endsInOverrun_identity p.width_pos hs⟩

/-- The stored matrices represent the permutations: composing is multiplying, with the later factor
on the left, the inverse has the adjoint, and a lifted permutation has the embedded matrix. The
matrix times its adjoint is the identity, and no two permutations share a matrix. -/
theorem stored_matrices_represent [ConjugateScalar K] [Nontrivial K] {p q : Permutation}
    (hwidth : p.width = q.width) {m offset : Int} (hoffset : 0 ≤ offset)
    (hfits : offset + p.width ≤ m) :
    SameMatrix p.width (p.andThen q >>= fun r => r.storedMatrix)
      (q.storedMatrix >>= fun U : Dense K => p.storedMatrix >>= fun V => U.mul V) ∧
    SameMatrix p.width p.inverse.storedMatrix
      (p.storedMatrix.map fun U : Dense K => U.adjoint) ∧
    SameMatrix m.toNat (p.lift m offset >>= fun r => r.storedMatrix)
      (p.storedMatrix >>= fun U : Dense K => Dense.embed m offset U) ∧
    SameMatrix p.width (p.storedMatrix >>= fun U : Dense K => U.mul U.adjoint)
      (Dense.identity p.width) ∧
    ∀ U : Dense K, p.storedMatrix = .ok U →
      (∀ i j, i < p.width → j < p.width → U.get i j = if p.apply j = i then 1 else 0) ∧
      (q.storedMatrix = .ok U → p = q) := by
  refine ⟨sameMatrix_andThen hwidth, sameMatrix_inverse p, ?_, sameMatrix_mul_adjoint p,
    fun U hU => ?_⟩
  · obtain ⟨offset, rfl⟩ := Int.eq_ofNat_of_zero_le hoffset
    obtain ⟨m, rfl⟩ := Int.eq_ofNat_of_zero_le (a := m) (by omega)
    rw [Int.toNat_natCast]
    exact sameMatrix_lift (by omega)
  · obtain ⟨_, rfl⟩ := storedMatrix_eq_ok hU
    exact ⟨fun i j => get_matrix, fun hq => matrix_injective (storedMatrix_eq_ok hq).2⟩

instance : Nontrivial (Amplitude ℝ) := Amplitude.complexHom.domain_nontrivial

theorem stored_matrices_represent_cycle :
    ∃ p q : Permutation, p.vector = [1, 2, 0] ∧ q.vector = [0, 2, 1] ∧ p.width = q.width ∧
      (0 : Int) ≤ 1 ∧ (1 : Int) + p.width ≤ 5 ∧ p.andThen q ≠ q.andThen p ∧ p.inverse ≠ p ∧
      (∃ U : Dense (Amplitude ℝ), (p.andThen q >>= fun r => r.storedMatrix) = .ok U ∧
        (q.storedMatrix >>= fun U : Dense (Amplitude ℝ) =>
          p.storedMatrix >>= fun V => U.mul V) = .ok U) ∧
      (∃ U : Dense (Amplitude ℝ), (p.lift 5 1 >>= fun r => r.storedMatrix) = .ok U ∧
        (p.storedMatrix >>= fun U : Dense (Amplitude ℝ) => Dense.embed 5 1 U) = .ok U) ∧
      ∃ U : Dense (Amplitude ℝ), p.inverse.storedMatrix = .ok U ∧
        p.storedMatrix.map (fun U : Dense (Amplitude ℝ) => U.adjoint) = .ok U := by
  let p : Permutation := ⟨#[1, 2, 0], by decide, by decide⟩
  let q : Permutation := ⟨#[0, 2, 1], by decide, by decide⟩
  have hfits : (1 : Int) + p.width ≤ 5 := by decide
  obtain ⟨hthen, hinverse, hlift, _⟩ := stored_matrices_represent (K := Amplitude ℝ) (p := p)
    (q := q) rfl (by decide : (0 : Int) ≤ 1) hfits
  exact ⟨p, q, rfl, rfl, rfl, by decide, hfits, by decide +kernel, by decide +kernel,
    hthen.stored (by decide), hlift.stored (by decide), hinverse.stored (by decide)⟩

end Permutation

end DualRail
