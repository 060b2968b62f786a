import Mathlib
import DualRail.Proofs.LogicalCircuit

/-!
Circuits keep probability. The matrix of every named gate is unitary, so the squared amplitudes of a
circuit add up to one.
-/

namespace DualRail

open Complex

section Qubit

theorem unitary_of_columns {a b c d : ℂ} (hfirst : star a * a + star c * c = 1)
    (hsecond : star b * b + star d * d = 1) (hmixed : star a * b + star c * d = 0) :
    !![a, b; c, d] ∈ Matrix.unitaryGroup (Fin 2) ℂ := by
  have hmixed' : star b * a + star d * c = 0 := by
    have h := congrArg star hmixed
    rw [star_add, star_mul, star_mul, star_star, star_star, star_zero] at h
    exact h
  rw [Matrix.mem_unitaryGroup_iff']
  ext i j
  rw [Matrix.mul_apply, Fin.sum_univ_two, Matrix.star_apply, Matrix.star_apply]
  fin_cases i <;> fin_cases j
  · exact hfirst
  · exact hmixed
  · exact hmixed'
  · exact hsecond

theorem star_mul_self_of_norm {z : ℂ} (h : ‖z‖ = 1) : star z * z = 1 := by
  have hz := conj_mul' z
  rw [h, ofReal_one, one_pow] at hz
  exact hz

theorem norm_phase {z : ℂ} (a : ℝ) (h : (a : ℂ) = z) : ‖exp (z * I)‖ = 1 := by
  rw [← h]
  exact norm_exp_ofReal_mul_I a

theorem unitary_diagonal {x y : ℂ} (hx : ‖x‖ = 1) (hy : ‖y‖ = 1) :
    !![x, 0; 0, y] ∈ Matrix.unitaryGroup (Fin 2) ℂ := by
  apply unitary_of_columns
  · rw [star_mul_self_of_norm hx, mul_zero, add_zero]
  · rw [star_mul_self_of_norm hy, mul_zero, zero_add]
  · rw [mul_zero, star_zero, zero_mul, add_zero]

theorem unitary_antidiagonal {x y : ℂ} (hx : ‖x‖ = 1) (hy : ‖y‖ = 1) :
    !![0, x; y, 0] ∈ Matrix.unitaryGroup (Fin 2) ℂ := by
  apply unitary_of_columns
  · rw [star_mul_self_of_norm hy, mul_zero, zero_add]
  · rw [star_mul_self_of_norm hx, mul_zero, add_zero]
  · rw [star_zero, zero_mul, mul_zero, add_zero]

theorem unitary_rotation {u v : ℝ} {x y : ℂ} (h : u ^ 2 + v ^ 2 = 1) (hx : ‖x‖ = 1)
    (hy : ‖y‖ = 1) :
    !![(u : ℂ), -y * v; x * v, x * y * u] ∈ Matrix.unitaryGroup (Fin 2) ℂ := by
  have hx := star_mul_self_of_norm hx
  have hy := star_mul_self_of_norm hy
  have hu : star (u : ℂ) = u := conj_ofReal u
  have hv : star (v : ℂ) = v := conj_ofReal v
  have huv : (u : ℂ) ^ 2 + (v : ℂ) ^ 2 = 1 := by exact_mod_cast h
  apply unitary_of_columns
  · rw [star_mul, hu, hv]
    linear_combination huv + (v : ℂ) ^ 2 * hx
  · rw [star_mul, star_mul, star_mul, star_neg, hu, hv]
    linear_combination huv + (v : ℂ) ^ 2 * hy + (u : ℂ) ^ 2 * (star y * y) * hx + (u : ℂ) ^ 2 * hy
  · rw [star_mul, hu, hv]
    linear_combination (u : ℂ) * v * y * hx

theorem unitary_turn (a : ℝ) {x y : ℂ} (hx : ‖x‖ = 1) (hy : ‖y‖ = 1) :
    !![cos (a / 2), -y * sin (a / 2); x * sin (a / 2), x * y * cos (a / 2)] ∈
      Matrix.unitaryGroup (Fin 2) ℂ := by
  have h := unitary_rotation (Real.cos_sq_add_sin_sq (a / 2)) hx hy
  simpa only [ofReal_cos, ofReal_sin, ofReal_div, ofReal_ofNat] using h

theorem unitary_hadamard :
    (1 / Real.sqrt 2 : ℂ) • !![(1 : ℂ), 1; 1, -1] ∈ Matrix.unitaryGroup (Fin 2) ℂ := by
  have hsq : (1 / Real.sqrt 2) ^ 2 + (1 / Real.sqrt 2) ^ 2 = 1 := by
    rw [div_pow, Real.sq_sqrt zero_le_two]
    norm_num
  have h := unitary_rotation hsq norm_one (norm_neg (1 : ℂ) ▸ norm_one)
  have he : (1 / Real.sqrt 2 : ℂ) • !![(1 : ℂ), 1; 1, -1] =
      !![((1 / Real.sqrt 2 : ℝ) : ℂ), - -1 * ((1 / Real.sqrt 2 : ℝ) : ℂ);
        1 * ((1 / Real.sqrt 2 : ℝ) : ℂ), 1 * -1 * ((1 / Real.sqrt 2 : ℝ) : ℂ)] := by
    ext i j
    fin_cases i <;> fin_cases j <;> simp
  rw [he]
  exact h

theorem unitary_root :
    (1 / 2 : ℂ) • !![1 + I, 1 - I; 1 - I, 1 + I] ∈ Matrix.unitaryGroup (Fin 2) ℂ := by
  have he : (1 / 2 : ℂ) • !![1 + I, 1 - I; 1 - I, 1 + I] =
      !![(1 + I) / 2, (1 - I) / 2; (1 - I) / 2, (1 + I) / 2] := by
    ext i j
    fin_cases i <;> fin_cases j <;> simp <;> ring
  have hplus : star ((1 + I) / 2) = (1 - I) / 2 := by
    simp [sub_eq_add_neg]
  have hminus : star ((1 - I) / 2) = (1 + I) / 2 := by
    rw [← hplus, star_star]
  rw [he]
  apply unitary_of_columns
  · rw [hplus, hminus]
    linear_combination (-1 / 2 : ℂ) * I_sq
  · rw [hplus, hminus]
    linear_combination (-1 / 2 : ℂ) * I_sq
  · rw [hplus, hminus]
    linear_combination (1 / 2 : ℂ) * I_sq

theorem unitary_euler (a b c : ℝ) :
    !![cos (a / 2), -exp (c * I) * sin (a / 2);
      exp (b * I) * sin (a / 2), exp ((b + c) * I) * cos (a / 2)] ∈
      Matrix.unitaryGroup (Fin 2) ℂ := by
  rw [add_mul, exp_add]
  exact unitary_turn a (norm_phase b rfl) (norm_phase c rfl)

theorem qubitMatrix_unitary {name : String} {params : List ℝ} {A : Matrix (Fin 2) (Fin 2) ℂ}
    (h : qubitMatrix name params = some A) : A ∈ Matrix.unitaryGroup (Fin 2) ℂ := by
  have hminus : ‖(-1 : ℂ)‖ = 1 := by rw [norm_neg, norm_one]
  have hturn : ‖-I‖ = 1 := by rw [norm_neg, norm_I]
  unfold qubitMatrix at h
  split at h <;> cases h
  · exact one_mem _
  · exact unitary_hadamard
  · exact unitary_antidiagonal norm_one norm_one
  · exact unitary_antidiagonal hturn norm_I
  · exact unitary_diagonal norm_one hminus
  · exact unitary_diagonal norm_one norm_I
  · exact unitary_diagonal norm_one hturn
  · exact unitary_diagonal norm_one (norm_phase (Real.pi / 4) (by push_cast; rfl))
  · exact unitary_diagonal norm_one (norm_phase (-(Real.pi / 4)) (by push_cast; rfl))
  · exact unitary_root
  · exact unitary_diagonal norm_one (norm_phase _ rfl)
  · exact unitary_diagonal norm_one (norm_phase _ rfl)
  · rename_i a
    exact unitary_diagonal (norm_phase (-(a / 2)) (by push_cast; rfl))
      (norm_phase (a / 2) (by push_cast; rfl))
  · rename_i a
    have hrx := unitary_turn a hturn norm_I
    rw [neg_mul I I, I_mul_I, neg_neg, one_mul] at hrx
    exact hrx
  · rename_i a
    have hry := unitary_turn a (norm_one (α := ℂ)) norm_one
    simp only [one_mul, neg_mul] at hry
    exact hry
  · exact unitary_euler _ _ _
  · exact unitary_euler _ _ _

end Qubit

section Gates

variable {n : Nat}

theorem unitary_of_map {f : Bits n → Bits n} (hf : Function.Injective f) {z : Bits n → ℂ}
    (hz : ∀ y, ‖z y‖ = 1) {M : Matrix (Bits n) (Bits n) ℂ}
    (hM : ∀ x y, M x y = if x = f y then z y else 0) : M ∈ Matrix.unitaryGroup (Bits n) ℂ := by
  rw [Matrix.mem_unitaryGroup_iff']
  ext y w
  rw [Matrix.mul_apply, Fintype.sum_eq_single (f y)]
  · rw [Matrix.star_apply, hM, hM, if_pos rfl]
    by_cases hyw : y = w
    · rw [hyw, if_pos rfl, star_mul_self_of_norm (hz w), Matrix.one_apply_eq]
    · rw [if_neg fun h => hyw (hf h), mul_zero, Matrix.one_apply_ne hyw]
  · intro x hx
    rw [Matrix.star_apply, hM, if_neg hx, star_zero, zero_mul]

theorem unitary_single (q : Fin n) {A : Matrix (Fin 2) (Fin 2) ℂ}
    (hA : A ∈ Matrix.unitaryGroup (Fin 2) ℂ) :
    (LogicalGate.single q A).matrix ∈ Matrix.unitaryGroup (Bits n) ℂ := by
  rw [Matrix.mem_unitaryGroup_iff'] at hA ⊢
  ext y w
  have hentry : ∑ a, star (A a (y q)) * A a (w q) = if y q = w q then 1 else 0 := by
    have h := congrFun (congrFun hA (y q)) (w q)
    rw [Matrix.mul_apply, Matrix.one_apply] at h
    exact h
  have hterm : ∀ a, star ((LogicalGate.single q A).matrix (Function.update y q a) y) *
      (LogicalGate.single q A).matrix (Function.update y q a) w =
      if Function.update y q a = Function.update w q a then star (A a (y q)) * A a (w q)
      else 0 := by
    intro a
    rw [LogicalGate.matrix_single, LogicalGate.matrix_single, Function.update_self, if_pos rfl,
      mul_ite, mul_zero]
  rw [Matrix.mul_apply, sum_update y q]
  · simp only [Matrix.star_apply, hterm]
    by_cases hoff : ∀ a, Function.update y q a = Function.update w q a
    · simp only [hoff, if_true, hentry, Matrix.one_apply]
      refine if_congr ⟨fun hq => ?_, fun he => by rw [he]⟩ rfl rfl
      have hy := hoff (y q)
      rwa [Function.update_eq_self, hq, Function.update_eq_self] at hy
    · have hnever : ∀ a, Function.update y q a ≠ Function.update w q a := by
        intro a ha
        refine hoff fun b => ?_
        have hb := congrArg (fun u => Function.update u q b) ha
        simpa only [Function.update_idem] using hb
      have hyw : y ≠ w := fun he => hoff fun a => by rw [he]
      simp only [hnever, if_false, Finset.sum_const_zero, Matrix.one_apply_ne hyw]
  · intro x hx
    rw [Matrix.star_apply, LogicalGate.matrix_single, if_neg hx, star_zero, zero_mul]

theorem addBit_injective {c t : Fin n} (h : c ≠ t) :
    Function.Injective fun y : Bits n => Function.update y t (y t + y c) := by
  intro y w he
  have hoff : ∀ i, i ≠ t → y i = w i := by
    intro i hi
    have := congrFun he i
    simp only at this
    rwa [Function.update_of_ne hi, Function.update_of_ne hi] at this
  have hat := congrFun he t
  simp only at hat
  rw [Function.update_self, Function.update_self, hoff c h] at hat
  funext i
  by_cases hi : i = t
  · rw [hi]
    exact add_right_cancel hat
  · exact hoff i hi

theorem swapBits_injective (a b : Fin n) :
    Function.Injective fun y : Bits n => y ∘ Equiv.swap a b := by
  intro y w he
  funext i
  have := congrFun he (Equiv.swap a b i)
  simpa using this

theorem unitary_of_logical {g : Gate ℝ} {l : LogicalGate n} (h : g.logical n = some l)
    (hd : l.Distinct) : l.matrix ∈ Matrix.unitaryGroup (Bits n) ℂ := by
  cases l with
  | single q A =>
    have hA : ∃ name params, qubitMatrix name params = some A := by
      unfold Gate.logical at h
      split at h
      · obtain ⟨B, hB, he⟩ := Option.map_eq_some_iff.mp h
        cases he
        exact ⟨_, _, hB⟩
      · unfold pairGate at h
        split at h <;> cases h
      · cases h
    obtain ⟨name, params, hA⟩ := hA
    exact unitary_single q (qubitMatrix_unitary hA)
  | cx c t => exact unitary_of_map (addBit_injective hd) (fun _ => norm_one) fun _ _ => rfl
  | cz c t =>
    refine unitary_of_map (f := id) Function.injective_id (fun y => ?_) fun _ _ => rfl
    split
    · rw [norm_neg, norm_one]
    · exact norm_one
  | swap a b => exact unitary_of_map (swapBits_injective a b) (fun _ => norm_one) fun _ _ => rfl

/-- The squared amplitudes of a circuit add up to one. -/
theorem sum_norm_circuitAmplitude {gates : List (LogicalGate n)}
    (h : ∀ l ∈ gates, l.matrix ∈ Matrix.unitaryGroup (Bits n) ℂ) :
    ∑ x, ‖circuitAmplitude gates x‖ ^ 2 = 1 := by
  have hU : (gates.map LogicalGate.matrix).reverse.prod ∈ Matrix.unitaryGroup (Bits n) ℂ := by
    apply Submonoid.list_prod_mem
    intro M hM
    obtain ⟨l, hl, rfl⟩ := List.mem_map.mp (List.mem_reverse.mp hM)
    exact h l hl
  have hcolumn := congrFun (congrFun (Matrix.mem_unitaryGroup_iff'.mp hU) 0) 0
  rw [Matrix.mul_apply, Matrix.one_apply_eq] at hcolumn
  have hterm : ∀ x, ((‖circuitAmplitude gates x‖ ^ 2 : ℝ) : ℂ) =
      star (gates.map LogicalGate.matrix).reverse.prod 0 x *
        (gates.map LogicalGate.matrix).reverse.prod x 0 := by
    intro x
    rw [circuitAmplitude, Matrix.mulVec_single_one, ofReal_pow, ← conj_mul', Matrix.star_apply]
    rfl
  have hsum : ((∑ x, ‖circuitAmplitude gates x‖ ^ 2 : ℝ) : ℂ) = 1 := by
    rw [ofReal_sum, Finset.sum_congr rfl fun x _ => hterm x]
    exact hcolumn
  exact_mod_cast hsum

end Gates

end DualRail
