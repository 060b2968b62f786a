import Mathlib
import DualRail.Catalog.Registry
import DualRail.Program.Gate

/-!
Circuits as they are written on paper. A gate is a two-by-two matrix on one qubit, a controlled NOT,
a controlled Z or an exchange of two qubits; a circuit is the product of the matrices of its gates
on the bit strings of all qubits, applied to the string of zeros. Beside them stand the matrices of
the devices that the gates are made of, and the numbers in those of the controlled gates.
-/

namespace DualRail

open Complex

abbrev Bits (n : Nat) := Fin n → Fin 2

theorem sum_update {n : Nat} {β : Type} [AddCommMonoid β] (y : Bits n) (q : Fin n)
    (F : Bits n → β) (h : ∀ x, x ≠ Function.update y q (x q) → F x = 0) :
    ∑ x, F x = ∑ a, F (Function.update y q a) := by
  symm
  refine Finset.sum_of_injOn (fun a => Function.update y q a) ?_ ?_ ?_ ?_
  · exact fun a _ b _ hab => Function.update_injective y q hab
  · exact fun a _ => Finset.mem_coe.mpr (Finset.mem_univ _)
  · intro x _ hx
    apply h
    intro he
    exact hx ⟨x q, Finset.mem_coe.mpr (Finset.mem_univ _), he.symm⟩
  · exact fun a _ => rfl

inductive LogicalGate (n : Nat) where
  | single (q : Fin n) (A : Matrix (Fin 2) (Fin 2) ℂ)
  | cx (control target : Fin n)
  | cz (control target : Fin n)
  | swap (a b : Fin n)

namespace LogicalGate

variable {n : Nat}

/-- The matrix of a gate: column `y` is what becomes of the bit string `y`. -/
def matrix : LogicalGate n → Matrix (Bits n) (Bits n) ℂ
  | .single q A => fun x y => if x = Function.update y q (x q) then A (x q) (y q) else 0
  | .cx c t => fun x y => if x = Function.update y t (y t + y c) then 1 else 0
  | .cz c t => fun x y => if x = y then (if y c = 1 ∧ y t = 1 then -1 else 1) else 0
  | .swap a b => fun x y => if x = y ∘ Equiv.swap a b then 1 else 0

def Distinct : LogicalGate n → Prop
  | .single _ _ => True
  | .cx a b | .cz a b | .swap a b => a ≠ b

noncomputable def factor : LogicalGate n → ℂ
  | .single _ _ | .swap _ _ => 1
  | .cx _ _ | .cz _ _ => 1 / 3

theorem matrix_single (q : Fin n) (A : Matrix (Fin 2) (Fin 2) ℂ) (x y : Bits n) :
    (single q A).matrix x y = if x = Function.update y q (x q) then A (x q) (y q) else 0 := rfl

theorem matrix_cx (c t : Fin n) (x y : Bits n) :
    (cx c t).matrix x y = if x = Function.update y t (y t + y c) then 1 else 0 := rfl

theorem matrix_cz (c t : Fin n) (x y : Bits n) :
    (cz c t).matrix x y = if x = y then (if y c = 1 ∧ y t = 1 then -1 else 1) else 0 := rfl

theorem matrix_swap (a b : Fin n) (x y : Bits n) :
    (swap a b).matrix x y = if x = y ∘ Equiv.swap a b then 1 else 0 := rfl

end LogicalGate

/-- The amplitudes a circuit gives to the bit strings. -/
noncomputable def circuitAmplitude {n : Nat} (gates : List (LogicalGate n)) : Bits n → ℂ :=
  (gates.map LogicalGate.matrix).reverse.prod.mulVec (Pi.single 0 1)

/-- The matrix a name of a single-qubit gate stands for. -/
noncomputable def qubitMatrix (name : String) (params : List ℝ) :
    Option (Matrix (Fin 2) (Fin 2) ℂ) :=
  match name, params with
  | "id", [] => some 1
  | "h", [] => some ((1 / Real.sqrt 2 : ℂ) • !![1, 1; 1, -1])
  | "x", [] => some !![0, 1; 1, 0]
  | "y", [] => some !![0, -I; I, 0]
  | "z", [] => some !![1, 0; 0, -1]
  | "s", [] => some !![1, 0; 0, I]
  | "sdg", [] => some !![1, 0; 0, -I]
  | "t", [] => some !![1, 0; 0, exp (Real.pi / 4 * I)]
  | "tdg", [] => some !![1, 0; 0, exp (-(Real.pi / 4) * I)]
  | "sx", [] => some ((1 / 2 : ℂ) • !![1 + I, 1 - I; 1 - I, 1 + I])
  | "p", [a] | "phase", [a] => some !![1, 0; 0, exp (a * I)]
  | "rz", [a] => some !![exp (-(a / 2) * I), 0; 0, exp (a / 2 * I)]
  | "rx", [a] => some !![cos (a / 2), -I * sin (a / 2); -I * sin (a / 2), cos (a / 2)]
  | "ry", [a] => some !![cos (a / 2), -sin (a / 2); sin (a / 2), cos (a / 2)]
  | "u", [a, b, c] | "u3", [a, b, c] =>
    some !![cos (a / 2), -exp (c * I) * sin (a / 2);
      exp (b * I) * sin (a / 2), exp ((b + c) * I) * cos (a / 2)]
  | _, _ => none

def pairGate {n : Nat} (name : String) (a b : Fin n) : Option (LogicalGate n) :=
  match name with
  | "cx" | "cnot" => some (.cx a b)
  | "cz" => some (.cz a b)
  | "swap" => some (.swap a b)
  | _ => none

def qubitOf (n : Nat) (q : Int) : Option (Fin n) :=
  if h : q.toNat < n then (if 0 ≤ q then some ⟨q.toNat, h⟩ else none) else none

/-- The gate a program line stands for. -/
noncomputable def Gate.logical (n : Nat) (g : Gate ℝ) : Option (LogicalGate n) :=
  match g.qubits.map (qubitOf n) with
  | [some q] => (qubitMatrix (canonicalName g.kind) g.params).map (.single q)
  | [some a, some b] => pairGate (canonicalName g.kind) a b
  | _ => none

def phaseMatrix (m o : Nat) (z : ℂ) : Matrix (Fin m) (Fin m) ℂ := fun i j =>
  if i = j then (if i.val = o then z else 1) else 0

def pairMatrix (m o : Nat) (B : Matrix (Fin 2) (Fin 2) ℂ) : Matrix (Fin m) (Fin m) ℂ := fun i j =>
  if i.val = o ∧ j.val = o then B 0 0
  else if i.val = o ∧ j.val = o + 1 then B 0 1
  else if i.val = o + 1 ∧ j.val = o then B 1 0
  else if i.val = o + 1 ∧ j.val = o + 1 then B 1 1
  else if i = j then 1
  else 0

theorem pairMatrix_two (B : Matrix (Fin 2) (Fin 2) ℂ) : pairMatrix 2 0 B = B := by
  funext i j
  fin_cases i <;> fin_cases j <;> simp [pairMatrix]

noncomputable def splitterMatrix (convention : Convention) (theta : ℝ) :
    Matrix (Fin 2) (Fin 2) ℂ :=
  let c : ℂ := Real.cos (theta / 2)
  let s : ℂ := Real.sin (theta / 2)
  match convention with
  | .rx => !![c, I * s; I * s, c]
  | .ry => !![c, -s; s, c]
  | .h => !![c, s; s, -c]
  | .unknown _ => 1

namespace Standard

noncomputable def third : ℂ := Real.sqrt (1 / 3)

noncomputable def twoThirds : ℂ := Real.sqrt (2 / 3)

noncomputable def half : ℂ := 1 / Real.sqrt 2

noncomputable def rootTwo : ℂ := Real.sqrt 2

noncomputable def rootSix : ℂ := Real.sqrt 6

noncomputable def strong : ℂ := Real.sqrt ((3 + Real.sqrt 6) / 18)

noncomputable def weak : ℂ := Real.sqrt ((3 - Real.sqrt 6) / 18)

theorem ofReal_sqrt_mul_self {x : ℝ} (h : 0 ≤ x) : (Real.sqrt x : ℂ) * Real.sqrt x = x := by
  rw [← Complex.ofReal_mul, Real.mul_self_sqrt h]

theorem third_mul_self : third * third = 1 / 3 := by
  rw [third, ofReal_sqrt_mul_self (by norm_num)]
  norm_num

theorem twoThirds_mul_self : twoThirds * twoThirds = 2 / 3 := by
  rw [twoThirds, ofReal_sqrt_mul_self (by norm_num)]
  norm_num

theorem half_mul_self : half * half = 1 / 2 := by
  rw [half, div_mul_div_comm, ofReal_sqrt_mul_self (by norm_num)]
  norm_num

theorem rootTwo_mul_self : rootTwo * rootTwo = 2 := by
  rw [rootTwo, ofReal_sqrt_mul_self (by norm_num)]
  norm_num

theorem rootSix_mul_self : rootSix * rootSix = 6 := by
  rw [rootSix, ofReal_sqrt_mul_self (by norm_num)]
  norm_num

theorem sqrt_six_le : Real.sqrt 6 ≤ 3 := Real.sqrt_le_iff.mpr ⟨by norm_num, by norm_num⟩

theorem strong_mul_self : strong * strong = (3 + rootSix) / 18 := by
  have hpos : 0 ≤ (3 + Real.sqrt 6) / 18 := by positivity
  rw [strong, ofReal_sqrt_mul_self hpos, rootSix]
  push_cast
  rfl

theorem weak_mul_self : weak * weak = (3 - rootSix) / 18 := by
  have hpos : 0 ≤ (3 - Real.sqrt 6) / 18 := div_nonneg (sub_nonneg.mpr sqrt_six_le) (by norm_num)
  rw [weak, ofReal_sqrt_mul_self hpos, rootSix]
  push_cast
  rfl

theorem strong_mul_weak : strong * weak = rootTwo * rootSix / 36 := by
  have hpos : 0 ≤ (3 + Real.sqrt 6) / 18 := by positivity
  have hsquare : (3 + Real.sqrt 6) / 18 * ((3 - Real.sqrt 6) / 18) =
      (Real.sqrt 2 * Real.sqrt 6 / 36) ^ 2 := by
    have htwo := Real.mul_self_sqrt (show (0 : ℝ) ≤ 2 by norm_num)
    have hsix := Real.mul_self_sqrt (show (0 : ℝ) ≤ 6 by norm_num)
    grind
  have hreal : Real.sqrt ((3 + Real.sqrt 6) / 18) * Real.sqrt ((3 - Real.sqrt 6) / 18) =
      Real.sqrt 2 * Real.sqrt 6 / 36 := by
    rw [← Real.sqrt_mul hpos, hsquare, Real.sqrt_sq (by positivity)]
  rw [strong, weak, ← Complex.ofReal_mul, hreal, rootTwo, rootSix]
  push_cast
  rfl

/-- The core of a heralded gate: the rail of `1` of the control, two modes with a photon each, the
rail of `1` of the target. -/
noncomputable def heraldCore : Matrix (Fin 4) (Fin 4) ℂ :=
  !![-(1 / 3), -rootTwo / 3, 2 / 3, rootTwo / 3;
    -rootTwo * strong, strong, weak, -rootTwo * weak;
    rootTwo * weak, -weak, strong, -rootTwo * strong;
    -rootTwo / 3, -(2 / 3), -rootTwo / 3, -(1 / 3)]

noncomputable def heraldFactor : ℂ := rootSix / 9

end Standard

namespace LogicalGate

variable {n : Nat}

/-- Qubits get the same name if controlled gates among those to come link them, seen through
exchanges. -/
def link : List (LogicalGate n) → Fin n → Fin n
  | [], q => q
  | .single _ _ :: gates, q => link gates q
  | .swap a b :: gates, q => link gates (Equiv.swap a b q)
  | .cx c t :: gates, q | .cz c t :: gates, q =>
    if link gates q = link gates t then link gates c else link gates q

/-- No controlled gate joins two qubits that the gates after it link already: the links close no
cycle. -/
def Treelike : List (LogicalGate n) → Prop
  | [] => True
  | .single _ _ :: gates | .swap _ _ :: gates => Treelike gates
  | .cx c t :: gates | .cz c t :: gates => link gates c ≠ link gates t ∧ Treelike gates

end LogicalGate

noncomputable def linkedCircuit : List (LogicalGate 3) :=
  [.single 0 ((1 / Real.sqrt 2 : ℂ) • !![1, 1; 1, -1]), .cx 0 1, .swap 1 2, .cx 2 1]

noncomputable def returningCircuit : List (LogicalGate 3) :=
  [.single 0 ((1 / Real.sqrt 2 : ℂ) • !![1, 1; 1, -1]), .cx 0 1, .swap 1 2, .cz 2 0]

def repeatedCircuit : List (LogicalGate 2) := [.cz 0 1, .cz 0 1]

end DualRail
