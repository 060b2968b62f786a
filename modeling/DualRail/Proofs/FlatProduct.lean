import Mathlib
import DualRail.Proofs.DenseStorage
import DualRail.Proofs.Embedding

/-!
Products of stored matrices over exact scalars. The loops that fill the store of a product give the
sums over the inner index, for every shape; hence products are associative as far as they have room,
identities are their units, and the adjoint undoes itself and turns products around.
-/

namespace DualRail

namespace Dense

variable {K : Type} {l m n : Nat}

section Exact

variable [ExactScalar K]

theorem stored_ofMatrix (h : Room m n) (A : Matrix (Fin m) (Fin n) K) : (ofMatrix A).Stored :=
  stored_build h _

theorem Stored.exists_ofMatrix {a : Dense K} (h : a.Stored) :
    ∃ (m n : Nat) (A : Matrix (Fin m) (Fin n) K), Room m n ∧ a = ofMatrix A :=
  ⟨a.rows, a.cols, a.toMatrix a.rows a.cols, h.room,
    h.eq_build.trans (build_eq_ofMatrix fun _ _ => rfl)⟩

namespace Flat

theorem mul_ofMatrix (hleft : Room l m) (hright : Room m n) (h : Room l n)
    (A : Matrix (Fin l) (Fin m) K) (B : Matrix (Fin m) (Fin n) K) :
    mul (ofMatrix A) (ofMatrix B) = .ok (ofMatrix (A * B)) := by
  rw [mul_of_stored (stored_ofMatrix hleft A) (stored_ofMatrix hright B) rfl h]
  exact congrArg Except.ok (build_productEntry A B)

/-- Both ways to a threefold product give the same matrix, or both have no room for it. -/
theorem mul_assoc {a b c : Dense K} (ha : a.Stored) (hb : b.Stored) (hc : c.Stored)
    (hab : a.cols = b.rows) (hbc : b.cols = c.rows) (hleft : Room a.rows b.cols)
    (hright : Room b.rows c.cols) (hword : (a.rows : Int) * c.cols ≤ Word.max) :
    (mul a b >>= fun p => mul p c) = mul b c >>= fun q => mul a q := by
  by_cases hroom : Room a.rows c.cols
  · obtain ⟨k, l, A, hA, rfl⟩ := ha.exists_ofMatrix
    obtain ⟨l', m, B, hB, rfl⟩ := hb.exists_ofMatrix
    obtain ⟨m', n, C, hC, rfl⟩ := hc.exists_ofMatrix
    obtain rfl : l = l' := hab
    obtain rfl : m = m' := hbc
    rw [rows_ofMatrix, cols_ofMatrix] at hleft hright hroom
    rw [mul_ofMatrix hA hB hleft, ok_bind, mul_ofMatrix hleft hC hroom, mul_ofMatrix hB hC hright,
      ok_bind, mul_ofMatrix hA hright hroom, Matrix.mul_assoc]
  · rw [mul_of_stored ha hb hab hleft, mul_of_stored hb hc hbc hright, ok_bind, ok_bind]
    exact (mul_of_no_room (stored_build hleft _) hc hbc hroom hword).trans
      (mul_of_no_room ha (stored_build hright _) hab hroom hword).symm

theorem identity_eq_ofMatrix (h : Storable n) :
    identity (n : Int) = .ok (ofMatrix (1 : Matrix (Fin n) (Fin n) K)) := by
  rw [identity_of_storable h, build_one]

theorem identity_mul {a : Dense K} (ha : a.Stored) (h : Storable a.rows) :
    (identity a.rows >>= fun one => mul one a) = .ok a := by
  obtain ⟨m, n, A, hA, rfl⟩ := ha.exists_ofMatrix
  rw [rows_ofMatrix] at h ⊢
  rw [identity_eq_ofMatrix h, ok_bind, mul_ofMatrix (room_self_iff.mpr h) hA hA, Matrix.one_mul]

theorem mul_identity {a : Dense K} (ha : a.Stored) (h : Storable a.cols) :
    (identity a.cols >>= fun one => mul a one) = .ok a := by
  obtain ⟨m, n, A, hA, rfl⟩ := ha.exists_ofMatrix
  rw [cols_ofMatrix] at h ⊢
  rw [identity_eq_ofMatrix h, ok_bind, mul_ofMatrix hA (room_self_iff.mpr h) hA, Matrix.mul_one]

end Flat

end Exact

section Conjugate

variable [ConjugateScalar K]

theorem adjoint_ofMatrix (A : Matrix (Fin m) (Fin n) K) :
    (ofMatrix A).adjoint = ofMatrix A.conjTranspose := by
  change build n m _ = _
  refine build_eq_ofMatrix fun i j => ?_
  exact (ConjugateScalar.conj_eq_star _).trans (congrArg star (get_ofMatrix A j i))

namespace Flat

theorem adjoint_ofMatrix (h : Room m n) (A : Matrix (Fin m) (Fin n) K) :
    adjoint (ofMatrix A) = .ok (ofMatrix A.conjTranspose) := by
  rw [adjoint_of_stored (stored_ofMatrix h A), Dense.adjoint_ofMatrix]

theorem adjoint_adjoint {a : Dense K} (ha : a.Stored) : (adjoint a >>= adjoint) = .ok a := by
  obtain ⟨m, n, A, hA, rfl⟩ := ha.exists_ofMatrix
  rw [adjoint_ofMatrix hA, ok_bind, adjoint_ofMatrix hA.symm,
    Matrix.conjTranspose_conjTranspose]

/-- The adjoint of a product is the product of the adjoints the other way round, also where neither
has room. -/
theorem adjoint_mul {a b : Dense K} (ha : a.Stored) (hb : b.Stored) (hinner : a.cols = b.rows)
    (hword : (a.rows : Int) * b.cols ≤ Word.max) :
    (mul a b >>= adjoint) =
      adjoint b >>= fun b' => adjoint a >>= fun a' => mul b' a' := by
  by_cases hroom : Room a.rows b.cols
  · obtain ⟨l, m, A, hA, rfl⟩ := ha.exists_ofMatrix
    obtain ⟨m', n, B, hB, rfl⟩ := hb.exists_ofMatrix
    obtain rfl : m = m' := hinner
    rw [rows_ofMatrix, cols_ofMatrix] at hroom
    rw [mul_ofMatrix hA hB hroom, ok_bind, adjoint_ofMatrix hroom, adjoint_ofMatrix hB, ok_bind,
      adjoint_ofMatrix hA, ok_bind, mul_ofMatrix hB.symm hA.symm hroom.symm,
      Matrix.conjTranspose_mul]
  · have hword' : (b.cols : Int) * a.rows ≤ Word.max := by rwa [Int.mul_comm]
    rw [mul_of_no_room ha hb hinner hroom hword, error_bind, adjoint_of_stored hb, ok_bind,
      adjoint_of_stored ha, ok_bind]
    exact (mul_of_no_room (stored_build hb.room.symm _) (stored_build ha.room.symm _) hinner.symm
      (fun h => hroom h.symm) hword').symm

/-- A product with room has the sums over the inner index as its entries, and without room it is
not made. Products are associative, identities are their units on both sides, and the adjoint undoes
itself and turns products around. -/
theorem product_of_stored {a b c : Dense K} (ha : a.Stored) (hb : b.Stored) (hc : c.Stored)
    (hab : a.cols = b.rows) (hbc : b.cols = c.rows) :
    (Room a.rows b.cols → ∃ p, mul a b = .ok p ∧ p.Stored ∧ p.rows = a.rows ∧ p.cols = b.cols ∧
      ∀ i j, i < a.rows → j < b.cols →
        p.get i j = ∑ k ∈ Finset.range a.cols, a.get i k * b.get k j) ∧
    (¬ Room a.rows b.cols → (a.rows : Int) * b.cols ≤ Word.max →
      mul a b = .error (.overrun .allocation)) ∧
    (Room a.rows b.cols → Room b.rows c.cols → (a.rows : Int) * c.cols ≤ Word.max →
      (mul a b >>= fun p => mul p c) = mul b c >>= fun q => mul a q) ∧
    (Storable a.rows → (identity a.rows >>= fun one => mul one a) = .ok a) ∧
    (Storable a.cols → (identity a.cols >>= fun one => mul a one) = .ok a) ∧
    (adjoint a >>= adjoint) = .ok a ∧
    ((a.rows : Int) * b.cols ≤ Word.max →
      (mul a b >>= adjoint) = adjoint b >>= fun b' => adjoint a >>= fun a' => mul b' a') := by
  refine ⟨fun hroom => ?_, mul_of_no_room ha hb hab, mul_assoc ha hb hc hab hbc,
    identity_mul ha, mul_identity ha, adjoint_adjoint ha, adjoint_mul ha hb hab⟩
  refine ⟨_, mul_of_stored ha hb hab hroom, stored_build hroom _, rfl, rfl, fun i j hi hj => ?_⟩
  rw [get_build hi hj, productEntry_eq_sum]

theorem product_of_stored_rectangular :
    ∃ (_ : ConjugateScalar GaussianInt) (a b c p : Dense GaussianInt),
      a.Stored ∧ b.Stored ∧ c.Stored ∧ a.cols = b.rows ∧ b.cols = c.rows ∧
      [a.rows, a.cols, b.cols, c.cols] = [2, 3, 1, 4] ∧
      mul a b = .ok p ∧ p.get 1 0 = ⟨0, -1⟩ ∧
      p.get 1 0 = ∑ k ∈ Finset.range 3, a.get 1 k * b.get k 0 ∧
      (mul a b >>= fun p => mul p c) = (mul b c >>= fun q => mul a q) ∧
      (identity 2 >>= fun one => mul one a) = .ok a ∧
      (mul a b >>= adjoint) = adjoint b >>= fun b' => adjoint a >>= fun a' => mul b' a' := by
  let _ := ConjugateScalar.ofStarRing GaussianInt
  let i : GaussianInt := ⟨0, 1⟩
  let a : Dense GaussianInt := ⟨2, 3, #[1, 0, i, 0, 2, 1]⟩
  let b : Dense GaussianInt := ⟨3, 1, #[1, 0, -i]⟩
  let c : Dense GaussianInt := ⟨1, 4, #[1, i, 0, 2]⟩
  have ha : a.Stored := ⟨by decide, rfl⟩
  have hb : b.Stored := ⟨by decide, rfl⟩
  have hc : c.Stored := ⟨by decide, rfl⟩
  obtain ⟨hmul, _, hassoc, hone, _, _, hadjoint⟩ := product_of_stored ha hb hc rfl rfl
  obtain ⟨p, hp, _, _, _, hentry⟩ := hmul (by decide)
  have hsum := hentry 1 0 (by decide) (by decide)
  refine ⟨ConjugateScalar.ofStarRing GaussianInt, a, b, c, p, ha, hb, hc, rfl, rfl, rfl, hp, ?_,
    hsum, hassoc (by decide) (by decide) (by decide), hone (by decide), hadjoint (by decide)⟩
  rw [hsum]
  decide

end Flat

end Conjugate

end Dense

end DualRail
