import Mathlib
import DualRail.Proofs.ExactMatrix

/-!
Blocks on the diagonal of an identity. Placing a block is a homomorphism of matrices: it takes the
identity to the identity and products to products. A block placed within a block lies where the two
offsets add up, and the adjoint of a placed block is the placed adjoint.
-/

namespace DualRail

/-- Exact scalars with a conjugation, which turns sums and products into sums and products and
undoes itself. -/
class ConjugateScalar (K : Type) extends ExactScalar K, StarRing K where
  conj_eq_star (x : K) : Scalar.conj x = star x

@[reducible] def ConjugateScalar.ofStarRing (K : Type) [CommRing K] [StarRing K] [DecidableEq K] :
    ConjugateScalar K :=
  { ExactScalar.ofCommRing K, ‹StarRing K› with
    conj := star
    isZero_iff := (ExactScalar.ofCommRing K).isZero_iff
    conj_eq_star := fun _ => rfl }

namespace Dense

variable {K : Type} {m w offset : Nat}

section Placing

variable [ExactScalar K]

def blockMode (h : offset + w ≤ m) (a : Fin w) : Fin m := Fin.castLE h (Fin.natAdd offset a)

@[simp] theorem val_blockMode (h : offset + w ≤ m) (a : Fin w) :
    (blockMode h a : Nat) = offset + a := rfl

theorem blockMode_injective (h : offset + w ≤ m) : Function.Injective (blockMode h) := by
  intro a b hab
  have hval := congrArg Fin.val hab
  simp only [val_blockMode] at hval
  exact Fin.ext (Nat.add_left_cancel hval)

theorem mem_range_blockMode (h : offset + w ≤ m) {i : Fin m} :
    i ∈ Set.range (blockMode h) ↔ offset ≤ i ∧ i < offset + w := by
  constructor
  · rintro ⟨a, rfl⟩
    have := a.isLt
    rw [val_blockMode]
    omega
  · rintro ⟨hlow, hhigh⟩
    refine ⟨⟨i - offset, by omega⟩, Fin.ext ?_⟩
    rw [val_blockMode]
    exact Nat.add_sub_of_le hlow

section Entries

variable (h : offset + w ≤ m) (A : Matrix (Fin w) (Fin w) K)

theorem embedded_block (a b : Fin w) :
    embedded m offset (ofMatrix A) (blockMode h a) (blockMode h b) = A a b := by
  have ha := a.isLt
  have hb := b.isLt
  rw [embedded, embedEntry_eq, if_pos]
  · simp only [val_blockMode, Nat.add_sub_cancel_left]
    exact get_ofMatrix A a b
  · simp only [val_blockMode, rows_ofMatrix]
    omega

theorem embedded_of_row {i : Fin m} (hi : i ∉ Set.range (blockMode h)) (j : Fin m) :
    embedded m offset (ofMatrix A) i j = (1 : Matrix (Fin m) (Fin m) K) i j := by
  rw [mem_range_blockMode] at hi
  rw [embedded, embedEntry_eq, if_neg fun hin => hi hin.1, Matrix.one_apply]
  simp only [Fin.ext_iff]

theorem embedded_of_col (i : Fin m) {j : Fin m} (hj : j ∉ Set.range (blockMode h)) :
    embedded m offset (ofMatrix A) i j = (1 : Matrix (Fin m) (Fin m) K) i j := by
  rw [mem_range_blockMode] at hj
  rw [embedded, embedEntry_eq, if_neg fun hin => hj hin.2, Matrix.one_apply]
  simp only [Fin.ext_iff]

/-- A matrix that agrees with the block on its modes and with the identity elsewhere is the placed
block. -/
theorem eq_embedded {M : Matrix (Fin m) (Fin m) K}
    (hblock : ∀ a b, M (blockMode h a) (blockMode h b) = A a b)
    (hrow : ∀ i ∉ Set.range (blockMode h), ∀ j, M i j = (1 : Matrix (Fin m) (Fin m) K) i j)
    (hcol : ∀ i, ∀ j ∉ Set.range (blockMode h), M i j = (1 : Matrix (Fin m) (Fin m) K) i j) :
    M = embedded m offset (ofMatrix A) := by
  funext i j
  by_cases hi : i ∈ Set.range (blockMode h)
  · by_cases hj : j ∈ Set.range (blockMode h)
    · obtain ⟨a, rfl⟩ := hi
      obtain ⟨b, rfl⟩ := hj
      rw [hblock, embedded_block]
    · rw [hcol i j hj, embedded_of_col h A i hj]
  · rw [hrow i hi j, embedded_of_row h A hi j]

end Entries

theorem embedded_one (h : offset + w ≤ m) :
    embedded m offset (ofMatrix (1 : Matrix (Fin w) (Fin w) K)) = 1 := by
  refine (eq_embedded h 1 (fun a b => ?_) (fun _ _ _ => rfl) fun _ _ _ => rfl).symm
  rw [Matrix.one_apply, Matrix.one_apply]
  simp only [(blockMode_injective h).eq_iff]

theorem embedded_mul (h : offset + w ≤ m) (A B : Matrix (Fin w) (Fin w) K) :
    embedded m offset (ofMatrix A) * embedded m offset (ofMatrix B) =
      embedded m offset (ofMatrix (A * B)) := by
  -- outside the block one factor is the identity there, and the other one is left
  refine eq_embedded h _ (fun a b => ?_) (fun i hi j => ?_) fun i j hj => ?_
  · rw [Matrix.mul_apply, Matrix.mul_apply]
    refine (Fintype.sum_of_injective (blockMode h) (blockMode_injective h) _ _ ?_ ?_).symm
    · intro k hk
      have hne : blockMode h a ≠ k := fun he => hk ⟨a, he⟩
      rw [embedded_of_col h A _ hk, Matrix.one_apply_ne hne, zero_mul]
    · intro k
      rw [embedded_block, embedded_block]
  · rw [Matrix.mul_apply]
    simp only [embedded_of_row h A hi]
    rw [← Matrix.mul_apply, Matrix.one_mul, embedded_of_row h B hi]
  · rw [Matrix.mul_apply]
    simp only [embedded_of_col h B _ hj]
    rw [← Matrix.mul_apply, Matrix.mul_one, embedded_of_col h A i hj]

def placing (h : offset + w ≤ m) : Matrix (Fin w) (Fin w) K →* Matrix (Fin m) (Fin m) K where
  toFun A := embedded m offset (ofMatrix A)
  map_one' := embedded_one h
  map_mul' A B := (embedded_mul h A B).symm

theorem placing_apply (h : offset + w ≤ m) (A : Matrix (Fin w) (Fin w) K) :
    placing h A = embedded m offset (ofMatrix A) := rfl

theorem placing_embedded (h : offset + w ≤ m) {inner : Nat} {V : Dense K}
    (hV : inner + V.rows ≤ w) :
    placing h (embedded w inner V) = embedded m (offset + inner) V := by
  have hpart : ∀ x : Nat, offset + inner ≤ x ∧ x < offset + inner + V.rows →
      offset ≤ x ∧ x < offset + w := by
    intro x hx
    omega
  refine (eq_embedded h _ (fun a b => ?_) (fun i hi j => ?_) fun i j hj => ?_).symm
  · have ha : offset + inner ≤ offset + a.val ∧ offset + a.val < offset + inner + V.rows ↔
        inner ≤ a.val ∧ a.val < inner + V.rows := by omega
    have hb : offset + inner ≤ offset + b.val ∧ offset + b.val < offset + inner + V.rows ↔
        inner ≤ b.val ∧ b.val < inner + V.rows := by omega
    simp only [embedded, embedEntry_eq, val_blockMode, ha, hb, Nat.add_sub_add_left,
      Nat.add_left_cancel_iff]
  · rw [mem_range_blockMode] at hi
    rw [embedded, embedEntry_eq, if_neg fun hin => hi (hpart i hin.1), Matrix.one_apply]
    simp only [Fin.ext_iff]
  · rw [mem_range_blockMode] at hj
    rw [embedded, embedEntry_eq, if_neg fun hin => hj (hpart j hin.2), Matrix.one_apply]
    simp only [Fin.ext_iff]

end Placing

section Adjoint

variable [ConjugateScalar K]

theorem star_placing (h : offset + w ≤ m) (A : Matrix (Fin w) (Fin w) K) :
    star (placing h A) = placing h (star A) := by
  refine eq_embedded h _ (fun a b => ?_) (fun i hi j => ?_) fun i j hj => ?_
  · rw [Matrix.star_apply, placing_apply, embedded_block, Matrix.star_apply]
  · rw [Matrix.star_apply, placing_apply, embedded_of_col h A j hi, ← Matrix.star_apply, star_one]
  · rw [Matrix.star_apply, placing_apply, embedded_of_row h A hj i, ← Matrix.star_apply, star_one]

theorem placing_mem_unitaryGroup (h : offset + w ≤ m) {A : Matrix (Fin w) (Fin w) K}
    (hA : A ∈ Matrix.unitaryGroup (Fin w) K) : placing h A ∈ Matrix.unitaryGroup (Fin m) K := by
  rw [Matrix.mem_unitaryGroup_iff] at hA ⊢
  rw [star_placing, ← map_mul, hA, map_one]

end Adjoint

end Dense

end DualRail
