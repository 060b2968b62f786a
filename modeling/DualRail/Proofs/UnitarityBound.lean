import Mathlib
import DualRail.Optics.Device
import DualRail.Proofs.DoubleBounds
import DualRail.Proofs.FlatLoops
import DualRail.Proofs.GateGrammar

/-!
The check of unitarity on doubles. It refuses a matrix if some entry of the product with its adjoint
is farther from the identity than the tolerance, and a distance that is no number is never farther.
Of an accepted matrix the bound holds at every position exactly if no entry is spoilt, that is, has
a part that is no number. An infinite entry never passes with an unspoilt row: the diagonal entry of
the product overflows and stays infinite. If no row is spoilt, the squares of each row add up to
what a double can hold, and then no sum of products in the whole product is spoilt either.
-/

namespace DualRail

open Double

namespace Amplitude

/-- A part of the amplitude is no number. -/
def Spoilt (z : Amplitude Float) : Prop := z.re.isNaN = true ∨ z.im.isNaN = true

/-- Both parts of the amplitude are finite. -/
def Finite (z : Amplitude Float) : Prop :=
  Quantity.isFinite z.re = true ∧ Quantity.isFinite z.im = true

variable {z w : Amplitude Float} {eps : Float}

theorem not_spoilt_iff : ¬ z.Spoilt ↔ z.re.isNaN = false ∧ z.im.isNaN = false := by
  rw [Spoilt, not_or, Bool.not_eq_true, Bool.not_eq_true]

theorem Finite.not_spoilt (h : z.Finite) : ¬ z.Spoilt :=
  not_spoilt_iff.mpr ⟨(isFinite_iff.mp h.1).1, (isFinite_iff.mp h.2).1⟩

theorem abs_eq (z : Amplitude Float) : z.abs = floatHypot z.re z.im := rfl

/-- A length that is not above the tolerance is below it or no number. -/
theorem not_lt_abs_iff (heps : Quantity.isFinite eps = true) :
    ¬ eps < z.abs ↔ z.abs ≤ eps ∨ z.abs.isNaN = true := by
  constructor
  · intro h
    by_cases hnan : z.abs.isNaN = true
    · exact .inr hnan
    · exact .inl (le_of_not_lt (Bool.eq_false_iff.mpr hnan) (isFinite_iff.mp heps).1 h)
  · rintro (hle | hnan)
    · exact fun hlt => not_le_of_lt hlt hle
    · exact not_lt_of_isNaN hnan

theorem isNaN_abs (hre : z.re.isNaN = true) (him : z.im.isNaN = true) : z.abs.isNaN = true := by
  have hinf : ∀ {x : Float}, x.isNaN = true → x.isInf = false := by
    intro x hx
    rw [Bool.eq_false_iff, ne_eq, isInf_iff, isNaN_iff.mp hx]
    exact nofun
  rw [abs_eq, isNaN_floatHypot_iff]
  exact ⟨⟨hinf hre, hinf him⟩, .inl hre⟩

theorem abs_le_of_not_lt (heps : Quantity.isFinite eps = true) (hz : ¬ z.Spoilt)
    (h : ¬ eps < z.abs) : z.abs ≤ eps := by
  rcases (not_lt_abs_iff heps).mp h with hle | hnan
  · exact hle
  · rw [abs_eq, isNaN_floatHypot_iff] at hnan
    exact absurd hnan.2 hz

def weight (z : Amplitude Float) : ℚ := Double.weight z.re + Double.weight z.im

theorem weight_nonneg (z : Amplitude Float) : 0 ≤ z.weight :=
  add_nonneg (Double.weight_nonneg _) (Double.weight_nonneg _)

theorem finite_of_weight_lt (h : z.weight < greatest + greatest) : z.Finite := by
  have hre := Double.weight_nonneg z.re
  have him := Double.weight_nonneg z.im
  rw [weight] at h
  exact ⟨isFinite_of_weight_lt (by linarith), isFinite_of_weight_lt (by linarith)⟩

theorem isZero_iff : Scalar.isZero z = true ↔ (z.re == 0) = true ∧ (z.im == 0) = true :=
  Bool.and_eq_true_iff

theorem weight_of_isZero (h : Scalar.isZero z = true) : z.weight = 0 := by
  obtain ⟨hre, him⟩ := isZero_iff.mp h
  rw [weight, weight_of_zero hre, weight_of_zero him, add_zero]

theorem not_spoilt_of_isZero (h : Scalar.isZero z = true) : ¬ z.Spoilt := by
  have hnumber : ∀ {x : Float}, (x == 0) = true → x.isNaN = false := by
    intro x hx
    obtain ⟨s, hs⟩ := beq_zero_iff.mp hx
    rw [isNaN_eq_false_iff, hs]
    exact nofun
  obtain ⟨hre, him⟩ := isZero_iff.mp h
  exact not_spoilt_iff.mpr ⟨hnumber hre, hnumber him⟩

theorem re_mul_conj (z w : Amplitude Float) :
    (z * Scalar.conj w).re = z.re * w.re - z.im * -w.im := rfl

theorem im_mul_conj (z w : Amplitude Float) :
    (z * Scalar.conj w).im = z.re * -w.im + z.im * w.re := rfl

/-- A spoilt amplitude spoils both parts of its product with its conjugate. -/
theorem Spoilt.mul_conj (h : z.Spoilt) :
    (z * Scalar.conj z).re.isNaN = true ∧ (z * Scalar.conj z).im.isNaN = true := by
  rw [re_mul_conj, im_mul_conj, isNaN_sub_iff]
  rcases h with hre | him
  · exact ⟨isNaN_add_of_left (isNaN_mul_of_left hre), isNaN_add_of_left (isNaN_mul_of_left hre)⟩
  · exact ⟨isNaN_add_of_right (isNaN_neg (isNaN_mul_of_left him)),
      isNaN_add_of_right (isNaN_mul_of_left him)⟩

theorem atLeast_mul_conj (h : ¬ z.Spoilt) :
    AtLeast (z * Scalar.conj z).re (z.weight - 3 * unit) := by
  obtain ⟨hre, him⟩ := not_spoilt_iff.mp h
  have hweight := Double.weight_nonneg z.re
  have hweight' := Double.weight_nonneg z.im
  have hunit := unit_pos
  rw [re_mul_conj]
  refine ((atLeast_weight hre).sub (atLeast_weight_neg him) ?_).mono ?_
  · rw [greatest_eq]
    linarith
  · rw [weight]
    linarith

theorem within_mul_conj (hz : z.Finite) (hw : w.Finite)
    (h : (z.weight + w.weight) / 2 + 2 * unit < greatest + greatest) :
    Within (z * Scalar.conj w).re ((z.weight + w.weight) / 2 + 3 * unit) ∧
      Within (z * Scalar.conj w).im ((z.weight + w.weight) / 2 + 3 * unit) := by
  have hneg := isFinite_neg hw.2
  have hmean : ∀ p q : ℚ, |p| * |q| ≤ (p * p + q * q) / 2 := by
    intro p q
    have hsquare := mul_self_nonneg (|p| - |q|)
    have hp := abs_mul_abs_self p
    have hq := abs_mul_abs_self q
    linarith
  have hzw : z.weight + w.weight = (toRat z.re * toRat z.re + toRat z.im * toRat z.im) +
      (toRat w.re * toRat w.re + toRat w.im * toRat w.im) := by
    rw [weight, weight, weight_of_isFinite hz.1, weight_of_isFinite hz.2, weight_of_isFinite hw.1,
      weight_of_isFinite hw.2]
  have hrr := hmean (toRat z.re) (toRat w.re)
  have hii := hmean (toRat z.im) (toRat w.im)
  have hri := hmean (toRat z.re) (toRat w.im)
  have hir := hmean (toRat z.im) (toRat w.re)
  have hprr := within_mul hz.1 hw.1
  have hpii := within_mul hz.2 hneg
  have hpri := within_mul hz.1 hneg
  have hpir := within_mul hz.2 hw.1
  rw [toRat_neg, abs_neg] at hpii hpri
  rw [re_mul_conj, im_mul_conj]
  exact ⟨(hprr.sub hpii (by linarith)).mono (by linarith),
    (hpri.add hpir (by linarith)).mono (by linarith)⟩

end Amplitude

theorem Tolerance.isFinite_of_check {x eps : Float} (h : Tolerance.check x = .ok eps) :
    Quantity.isFinite eps = true := by
  unfold Tolerance.check at h
  by_cases hbad : (!Quantity.isFinite x || Quantity.lt x 0) = true
  · rw [if_pos hbad] at h
    cases h
  · rw [if_neg hbad] at h
    rw [← Except.ok.inj h]
    rw [Bool.not_eq_true, Bool.or_eq_false_iff, Bool.not_eq_false'] at hbad
    exact hbad.1

theorem Tolerance.isFinite_standard : Quantity.isFinite (Tolerance.standard : Float) = true := by
  decide +kernel

theorem Tolerance.isFinite_of_choose {given : List Float} {eps : Float}
    (h : Tolerance.choose given = .ok eps) : Quantity.isFinite eps = true := by
  obtain ⟨checked, hchecked, hlast⟩ := bind_eq_ok h
  have hall : ∀ x ∈ checked, Quantity.isFinite x = true := by
    rw [mapM_eq_ok_iff] at hchecked
    clear h hlast
    induction hchecked with
    | nil => exact nofun
    | cons hx _ ih => exact List.forall_mem_cons.mpr ⟨isFinite_of_check hx, ih⟩
  rw [← Except.ok.inj hlast]
  cases hc : checked.getLast? with
  | none => exact isFinite_standard
  | some x => exact hall x (List.mem_of_getLast? hc)

namespace Dense

open Amplitude

/-- The distance of two matrices at a position. -/
def gap (a b : Dense (Amplitude Float)) (i j : Nat) : Float := ((a.get i j).sub (b.get i j)).abs

variable {a b : Dense (Amplitude Float)} {eps : Float}

theorem get_eq_getElem {K : Type} [Scalar K] {m : Dense K} {p : Nat} (hp : p < m.cells.size) :
    m.get (p / m.cols) (p % m.cols) = m.cells[p] := by
  rw [get, Nat.div_add_mod', Array.getD, dif_pos hp]
  rfl

/-- Two matrices of one size are close if no position is farther apart than the tolerance. -/
theorem closeCells_iff (ha : a.WellFormed) (hb : b.WellFormed) (hrows : a.rows = b.rows)
    (hcols : a.cols = b.cols) :
    closeCells eps a b = true ↔ ∀ i < a.rows, ∀ j < a.cols, ¬ eps < gap a b i j := by
  have hsize : a.cells.size = b.cells.size := by rw [ha.2.2, hb.2.2, hrows, hcols]
  have hlength : (a.cells.zip b.cells).size = a.cells.size := by
    rw [Array.size_zip, ← hsize, Nat.min_self]
  rw [closeCells, Bool.not_eq_true', Array.any_eq_false]
  constructor
  · intro h i hi j hj
    have hlt : i * a.cols + j < a.cells.size := by
      rw [ha.2.2]
      exact flat_lt hi hj
    have hcell := h (i * a.cols + j) (hlength.symm ▸ hlt)
    have hgap : gap a b i j = ((a.cells[i * a.cols + j]).sub (b.cells[i * a.cols + j])).abs := by
      simp only [gap, get, ← hcols, Array.getD, hlt, hsize ▸ hlt, dif_pos]
      rfl
    rw [hgap]
    simpa [Array.getElem_zip, Quantity.lt] using hcell
  · intro h p hp
    have hlt : p < a.cells.size := hlength ▸ hp
    have hcolumns := ha.2.1
    have hrow : p / a.cols < a.rows :=
      Nat.div_lt_of_lt_mul (by rw [Nat.mul_comm, ← ha.2.2]; exact hlt)
    have hcell := h (p / a.cols) hrow (p % a.cols) (Nat.mod_lt p hcolumns)
    rw [gap, get_eq_getElem hlt, hcols, get_eq_getElem (hsize ▸ hlt)] at hcell
    simpa [Array.getElem_zip, Quantity.lt] using hcell

theorem allClose_eq_true_iff (heps : Quantity.isFinite eps = true) (ha : a.WellFormed)
    (hb : b.WellFormed) : allClose eps a b = .ok true ↔
      a.rows = b.rows ∧ a.cols = b.cols ∧
        ∀ i < a.rows, ∀ j < a.cols, gap a b i j ≤ eps ∨ (gap a b i j).isNaN = true := by
  have hnear : ∀ i j, ¬ eps < gap a b i j ↔ gap a b i j ≤ eps ∨ (gap a b i j).isNaN = true :=
    fun _ _ => not_lt_abs_iff heps
  simp only [← hnear]
  by_cases hshape : a.rows = b.rows ∧ a.cols = b.cols
  · obtain ⟨hrows, hcols⟩ := hshape
    rw [allClose, if_neg (by simp [hrows, hcols]), Except.ok.injEq,
      closeCells_iff ha hb hrows hcols]
    exact ⟨fun h => ⟨hrows, hcols, h⟩, fun h => h.2.2⟩
  · refine iff_of_false ?_ fun h => hshape ⟨h.1, h.2.1⟩
    rw [not_and_or] at hshape
    rw [allClose, if_pos (by simpa using hshape)]
    exact nofun

theorem isNaN_gap_of_finite {i j : Nat} (ha : (a.get i j).Finite) (hb : (b.get i j).Finite) :
    (gap a b i j).isNaN = false := by
  have hre : ((a.get i j).sub (b.get i j)).re.isNaN = false := isNaN_sub_of_isFinite ha.1 hb.1
  have him : ((a.get i j).sub (b.get i j)).im.isNaN = false := isNaN_sub_of_isFinite ha.2 hb.2
  rw [gap, abs_eq, Bool.eq_false_iff, ne_eq, isNaN_floatHypot_iff, hre, him]
  simp

theorem Storable.side_le {n : Nat} (h : Storable n) : n ≤ 4194304 := by
  have hlimit : n * n * 16 ≤ 281474976710656 := h.2
  by_contra hn
  have := Nat.mul_le_mul (show 4194305 ≤ n by omega) (show 4194305 ≤ n by omega)
  omega

def unitMatrix (n : Nat) : Dense (Amplitude Float) := build n n fun i j => if i = j then 1 else 0

theorem identity_eq_unitMatrix {n : Nat} (h : Storable n) :
    identity (n : Int) = .ok (unitMatrix n) := by
  have hn : ¬ ((n : Int) ≤ 0) := by
    have := h.1
    omega
  simp only [identity, hn, if_false, h.reserve, ok_bind, Int.toNat_natCast, if_true]
  rfl

theorem side_mul_unit_le {n : Nat} (hn : n ≤ 4194304) : n * unit ≤ 4194304 * unit :=
  mul_le_mul_of_nonneg_right (by exact_mod_cast hn) unit_pos.le

section Rows

variable {u : Dense (Amplitude Float)} {i j : Nat}

theorem productEntry_adjoint_induction {K : Type} [Scalar K] {u : Dense K} {i j : Nat}
    {P : Nat → K → Prop} (hj : j < u.rows) (zero : P 0 0)
    (skip : ∀ k < u.cols, Scalar.isZero (u.get i k) = true → ∀ s, P k s → P (k + 1) s)
    (add : ∀ k < u.cols, ∀ s, P k s → P (k + 1) (s + u.get i k * Scalar.conj (u.get j k))) :
    P u.cols (productEntry u u.adjoint i j) := by
  have hpartial : ∀ n ≤ u.cols, P n (Flat.partialEntry u u.adjoint i j n) := by
    intro n
    induction n with
    | zero => exact fun _ => zero
    | succ n ih =>
      intro hn
      rw [Flat.partialEntry_succ]
      by_cases hzero : Scalar.isZero (u.get i n) = true
      · rw [if_pos hzero]
        exact skip n hn hzero _ (ih (by omega))
      · rw [if_neg hzero, adjoint, get_build hn hj]
        exact add n hn _ (ih (by omega))
  exact hpartial u.cols le_rfl

theorem isNaN_diagonal (hi : i < u.rows) {k : Nat} (hk : k < u.cols) (h : (u.get i k).Spoilt) :
    (productEntry u u.adjoint i i).re.isNaN = true ∧
      (productEntry u u.adjoint i i).im.isNaN = true := by
  refine productEntry_adjoint_induction
    (P := fun n s => k < n → s.re.isNaN = true ∧ s.im.isNaN = true) hi nofun ?_ ?_ hk
  · intro n _ hzero s ih hkn
    rcases Nat.lt_succ_iff_lt_or_eq.mp hkn with hlt | rfl
    · exact ih hlt
    · exact absurd h (not_spoilt_of_isZero hzero)
  · intro n _ s ih hkn
    rcases Nat.lt_succ_iff_lt_or_eq.mp hkn with hlt | rfl
    · exact ⟨isNaN_add_of_left (ih hlt).1, isNaN_add_of_left (ih hlt).2⟩
    · exact ⟨isNaN_add_of_right h.mul_conj.1, isNaN_add_of_right h.mul_conj.2⟩

def rowWeight (u : Dense (Amplitude Float)) (i n : Nat) : ℚ :=
  ∑ k ∈ Finset.range n, (u.get i k).weight

theorem rowWeight_succ (u : Dense (Amplitude Float)) (i n : Nat) :
    u.rowWeight i (n + 1) = u.rowWeight i n + (u.get i n).weight := Finset.sum_range_succ ..

theorem rowWeight_mono (u : Dense (Amplitude Float)) (i : Nat) : Monotone (u.rowWeight i) := by
  refine monotone_nat_of_le_succ fun n => ?_
  rw [rowWeight_succ]
  exact le_add_of_nonneg_right (u.get i n).weight_nonneg

theorem rowWeight_nonneg (u : Dense (Amplitude Float)) (i n : Nat) : 0 ≤ u.rowWeight i n :=
  Finset.sum_nonneg fun k _ => (u.get i k).weight_nonneg

theorem weight_le_rowWeight {k n : Nat} (hk : k < n) : (u.get i k).weight ≤ u.rowWeight i n := by
  have hmono := rowWeight_mono u i (Nat.succ_le_of_lt hk)
  rw [Nat.succ_eq_add_one, rowWeight_succ] at hmono
  exact (le_add_of_nonneg_left (rowWeight_nonneg u i k)).trans hmono

theorem atLeast_zero : AtLeast 0 0 := .finite (by decide) le_rfl

theorem within_zero : Within 0 0 := .finite (by decide) (abs_zero (α := ℚ)).le

/-- The diagonal entry of an unspoilt row is not below the sum of the squares, but for rounding. -/
theorem atLeast_diagonal (hn : u.cols ≤ 4194304) (hi : i < u.rows)
    (h : ∀ k < u.cols, ¬ (u.get i k).Spoilt) :
    AtLeast (productEntry u u.adjoint i i).re (u.rowWeight i u.cols - 4 * u.cols * unit) := by
  have hunit := unit_pos
  -- a term is off by three units and adding it by one more; a skipped term weighs nothing
  refine productEntry_adjoint_induction
    (P := fun n s => AtLeast s.re (u.rowWeight i n - 4 * n * unit)) hi ?_ ?_ ?_
  · refine atLeast_zero.mono (le_of_eq ?_)
    rw [rowWeight, Finset.range_zero, Finset.sum_empty, Nat.cast_zero]
    ring
  · intro n _ hzero s ih
    refine ih.mono ?_
    rw [rowWeight_succ, weight_of_isZero hzero, Nat.cast_succ]
    linarith
  · intro n hlt s ih
    have hunits := side_mul_unit_le (hlt.le.trans hn)
    have hrow := rowWeight_nonneg u i n
    have hweight := (u.get i n).weight_nonneg
    refine (ih.add (atLeast_mul_conj (h n hlt)) ?_).mono ?_
    · rw [greatest_eq]
      linarith
    · rw [rowWeight_succ, Nat.cast_succ]
      linarith

/-- Entries of the product of rows whose squares can be held are no further out than the mean of the
sums of squares, but for rounding. -/
theorem within_entry (hn : u.cols ≤ 4194304) (hj : j < u.rows)
    (hfinite : ∀ k < u.cols, (u.get i k).Finite) (hfinite' : ∀ k < u.cols, (u.get j k).Finite)
    (hrow : u.rowWeight i u.cols ≤ greatest + 4 * u.cols * unit)
    (hrow' : u.rowWeight j u.cols ≤ greatest + 4 * u.cols * unit) :
    Within (productEntry u u.adjoint i j).re
        ((u.rowWeight i u.cols + u.rowWeight j u.cols) / 2 + 4 * u.cols * unit) ∧
      Within (productEntry u u.adjoint i j).im
        ((u.rowWeight i u.cols + u.rowWeight j u.cols) / 2 + 4 * u.cols * unit) := by
  have hunit := unit_pos
  have hunits := side_mul_unit_le hn
  -- the bound stays below twice the greatest double, so no two infinite doubles ever meet
  refine productEntry_adjoint_induction
    (P := fun n s =>
      Within s.re ((u.rowWeight i n + u.rowWeight j n) / 2 + 4 * n * unit) ∧
        Within s.im ((u.rowWeight i n + u.rowWeight j n) / 2 + 4 * n * unit)) hj ?_ ?_ ?_
  · have hstart : (u.rowWeight i 0 + u.rowWeight j 0) / 2 + 4 * ((0 : Nat) : ℚ) * unit = 0 := by
      rw [rowWeight, rowWeight, Finset.range_zero, Finset.sum_empty, Finset.sum_empty,
        Nat.cast_zero]
      ring
    rw [hstart]
    exact ⟨within_zero, within_zero⟩
  · intro n _ _ s ih
    have hstep : (u.rowWeight i n + u.rowWeight j n) / 2 + 4 * n * unit ≤
        (u.rowWeight i (n + 1) + u.rowWeight j (n + 1)) / 2 + 4 * ((n + 1 : Nat) : ℚ) * unit := by
      have hmono := rowWeight_mono u i (Nat.le_succ n)
      have hmono' := rowWeight_mono u j (Nat.le_succ n)
      rw [Nat.cast_succ]
      linarith
    exact ⟨ih.1.mono hstep, ih.2.mono hstep⟩
  · intro n hlt s ih
    have hnext := rowWeight_mono u i (Nat.succ_le_of_lt hlt)
    have hnext' := rowWeight_mono u j (Nat.succ_le_of_lt hlt)
    rw [Nat.succ_eq_add_one, rowWeight_succ] at hnext hnext'
    have hpast := rowWeight_nonneg u i n
    have hpast' := rowWeight_nonneg u j n
    have hless : (n : ℚ) * unit ≤ u.cols * unit :=
      mul_le_mul_of_nonneg_right (by exact_mod_cast hlt.le) hunit.le
    obtain ⟨hre, him⟩ := within_mul_conj (hfinite n hlt) (hfinite' n hlt)
      (by rw [greatest_eq] at hrow hrow' ⊢; linarith)
    have hroom : (u.rowWeight i n + u.rowWeight j n) / 2 + 4 * n * unit +
        (((u.get i n).weight + (u.get j n).weight) / 2 + 3 * unit) < greatest + greatest := by
      rw [greatest_eq] at hrow hrow' ⊢
      linarith
    have hsum : (u.rowWeight i n + u.rowWeight j n) / 2 + 4 * n * unit +
        (((u.get i n).weight + (u.get j n).weight) / 2 + 3 * unit) + unit =
        (u.rowWeight i (n + 1) + u.rowWeight j (n + 1)) / 2 + 4 * ((n + 1 : Nat) : ℚ) * unit := by
      rw [rowWeight_succ, rowWeight_succ, Nat.cast_succ]
      ring
    exact ⟨(ih.1.add hre hroom).mono hsum.le, (ih.2.add him hroom).mono hsum.le⟩

end Rows

section Accepted

variable {u : Dense (Amplitude Float)} {i j : Nat}

def gram (u : Dense (Amplitude Float)) : Dense (Amplitude Float) :=
  build u.rows u.rows (productEntry u u.adjoint)

theorem mul_adjoint (hn : Storable u.rows) : u.mul u.adjoint = .ok u.gram := by
  have hinner : u.cols = u.adjoint.rows := rfl
  have houter : u.adjoint.cols = u.rows := rfl
  rw [mul, if_neg (not_not.mpr hinner), houter, hn.reserve]
  rfl

/-- The check accepts the square matrices with room for a product that is nowhere too far from the
identity. -/
theorem isUnitary_eq_true_iff : u.isUnitary eps = .ok true ↔
    u.rows = u.cols ∧ Storable u.rows ∧
      ∀ i < u.rows, ∀ j < u.rows, ¬ eps < gap u.gram (unitMatrix u.rows) i j := by
  have hclose : Storable u.rows → (closeCells eps u.gram (unitMatrix u.rows) = true ↔
      ∀ i < u.rows, ∀ j < u.rows, ¬ eps < gap u.gram (unitMatrix u.rows) i j) := by
    intro hn
    exact closeCells_iff (wellFormed_build hn.1 hn.1 _) (wellFormed_build hn.1 hn.1 _) rfl rfl
  have hvalue : u.rows = u.cols → Storable u.rows →
      u.isUnitary eps = .ok (closeCells eps u.gram (unitMatrix u.rows)) := by
    intro hsq hn
    rw [isUnitary, if_neg (not_not.mpr hsq), mul_adjoint hn, noting_ok, ok_bind,
      identity_eq_unitMatrix hn, noting_ok, ok_bind, allClose,
      if_neg (by simp [gram, unitMatrix, build])]
  constructor
  · intro h
    by_cases hsq : u.rows = u.cols
    · have hn : Storable u.rows := by
        rw [isUnitary, if_neg (not_not.mpr hsq)] at h
        obtain ⟨_, _, h⟩ := bind_eq_ok h
        obtain ⟨one, hone, _⟩ := bind_eq_ok h
        exact storable_of_identity (noting_eq_ok hone)
      rw [hvalue hsq hn] at h
      exact ⟨hsq, hn, (hclose hn).mp (Except.ok.inj h)⟩
    · rw [isUnitary, if_pos hsq] at h
      cases h
  · rintro ⟨hsq, hn, h⟩
    rw [hvalue hsq hn, (hclose hn).mpr h]

theorem gap_gram (hi : i < u.rows) (hj : j < u.rows) : gap u.gram (unitMatrix u.rows) i j =
    ((productEntry u u.adjoint i j).sub (if i = j then 1 else 0)).abs := by
  rw [gap, gram, unitMatrix, get_build hi hj, get_build hi hj]

theorem isNaN_gap_diagonal (hi : i < u.rows) {k : Nat} (hk : k < u.cols)
    (h : (u.get i k).Spoilt) : (gap u.gram (unitMatrix u.rows) i i).isNaN = true := by
  obtain ⟨hre, him⟩ := isNaN_diagonal hi hk h
  rw [gap_gram hi hi]
  exact isNaN_abs (isNaN_sub_iff.mpr (isNaN_add_of_left hre))
    (isNaN_sub_iff.mpr (isNaN_add_of_left him))

/-- An unspoilt row with a diagonal entry near one is not too long for a double. -/
theorem rowWeight_le (heps : Quantity.isFinite eps = true) (hn : u.cols ≤ 4194304)
    (hi : i < u.rows) (hrow : ∀ k < u.cols, ¬ (u.get i k).Spoilt)
    (h : ¬ eps < gap u.gram (unitMatrix u.rows) i i) :
    u.rowWeight i u.cols ≤ greatest + 4 * u.cols * unit := by
  rw [gap_gram hi hi, if_pos rfl] at h
  have hfinite := (isInf_of_not_lt heps h).1
  cases atLeast_diagonal hn hi hrow with
  | infinite hvalue =>
    have hinf : ((productEntry u u.adjoint i i).re - 1).isInf = true := by
      rw [isInf_iff, value_sub]
      exact ⟨_, (add_infinity_of_isFinite hvalue (by decide +kernel)).1⟩
    rw [← Bool.not_eq_true] at hfinite
    exact absurd hinf hfinite
  | finite hre hle =>
    have := toRat_le_greatest hre
    linarith

theorem finite_of_rowWeight_le (hn : u.cols ≤ 4194304)
    (h : u.rowWeight i u.cols ≤ greatest + 4 * u.cols * unit) :
    ∀ k < u.cols, (u.get i k).Finite := by
  intro k hk
  have hunits := side_mul_unit_le hn
  have hweight := weight_le_rowWeight (u := u) (i := i) hk
  refine finite_of_weight_lt ?_
  rw [greatest_eq] at h ⊢
  linarith [unit_pos]

theorem within_one : Within 1 unit := by
  have hone : toRat 1 = 1 := by
    have hvalue : value 1 = .finite .positive 4503599627370496 (-52) (by decide) := rfl
    rw [toRat, hvalue, number_finite, Float.Model.UnpackedFloat.Sign.apply]
    norm_num
  refine .finite (by decide +kernel) ?_
  rw [hone, abs_one, unit_eq]
  exact one_le_zpow₀ (by norm_num) (by norm_num)

theorem not_spoilt_of_rowWeight_le (hn : u.cols ≤ 4194304) (hj : j < u.rows)
    (hrow : u.rowWeight i u.cols ≤ greatest + 4 * u.cols * unit)
    (hrow' : u.rowWeight j u.cols ≤ greatest + 4 * u.cols * unit) :
    ¬ ((productEntry u u.adjoint i j).sub (if i = j then 1 else 0)).Spoilt := by
  obtain ⟨hre, him⟩ := within_entry hn hj (finite_of_rowWeight_le hn hrow)
    (finite_of_rowWeight_le hn hrow') hrow hrow'
  have hunit := unit_pos
  have hunits := side_mul_unit_le hn
  have hroom : (u.rowWeight i u.cols + u.rowWeight j u.cols) / 2 + 4 * u.cols * unit + unit <
      greatest + greatest := by
    rw [greatest_eq] at hrow hrow' ⊢
    linarith
  have hzero : Within 0 unit := within_zero.mono hunit.le
  rw [not_spoilt_iff]
  by_cases hij : i = j
  · rw [if_pos hij]
    exact ⟨(hre.sub within_one hroom).isNaN, (him.sub hzero hroom).isNaN⟩
  · rw [if_neg hij]
    exact ⟨(hre.sub hzero hroom).isNaN, (him.sub hzero hroom).isNaN⟩

/-- What the check says of a matrix `u`, given its product with its adjoint and the identity. -/
structure MeetsBound (eps : Float) (u product one : Dense (Amplitude Float)) : Prop where
  /-- No distance is above the tolerance, but it may be no number. -/
  near : ∀ i < u.rows, ∀ j < u.rows,
    product.gap one i j ≤ eps ∨ (product.gap one i j).isNaN = true
  /-- On the diagonal the bound holds exactly for the rows without a spoilt entry. -/
  diagonal : ∀ i < u.rows, product.gap one i i ≤ eps ↔ ∀ k < u.rows, ¬ (u.get i k).Spoilt
  /-- Between two such rows it holds as well. -/
  between : ∀ i < u.rows, ∀ j < u.rows, (∀ k < u.rows, ¬ (u.get i k).Spoilt) →
    (∀ k < u.rows, ¬ (u.get j k).Spoilt) → product.gap one i j ≤ eps
  /-- Such a row has no infinite entry either. -/
  finite : ∀ i < u.rows, (∀ k < u.rows, ¬ (u.get i k).Spoilt) → ∀ k < u.rows, (u.get i k).Finite

theorem meetsBound_of_near (heps : Quantity.isFinite eps = true) (hsq : u.rows = u.cols)
    (hn : Storable u.rows)
    (hnear : ∀ i < u.rows, ∀ j < u.rows, ¬ eps < gap u.gram (unitMatrix u.rows) i j) :
    MeetsBound eps u u.gram (unitMatrix u.rows) := by
  have hside : u.cols ≤ 4194304 := hsq ▸ hn.side_le
  have hrow : ∀ i < u.rows, (∀ k < u.rows, ¬ (u.get i k).Spoilt) →
      u.rowWeight i u.cols ≤ greatest + 4 * u.cols * unit := by
    intro i hi h
    exact rowWeight_le heps hside hi (hsq ▸ h) (hnear i hi i hi)
  have hbetween : ∀ i < u.rows, ∀ j < u.rows, (∀ k < u.rows, ¬ (u.get i k).Spoilt) →
      (∀ k < u.rows, ¬ (u.get j k).Spoilt) → gap u.gram (unitMatrix u.rows) i j ≤ eps := by
    intro i hi j hj h h'
    have hgap := hnear i hi j hj
    rw [gap_gram hi hj] at hgap ⊢
    exact abs_le_of_not_lt heps
      (not_spoilt_of_rowWeight_le hside hj (hrow i hi h) (hrow j hj h')) hgap
  refine ⟨?_, ?_, hbetween, ?_⟩
  · intro i hi j hj
    exact (not_lt_abs_iff heps).mp (hnear i hi j hj)
  · intro i hi
    constructor
    · intro hle k hk hspoilt
      have hnan := isNaN_gap_diagonal hi (hsq ▸ hk) hspoilt
      rw [le_iff, isNaN_iff.mp hnan] at hle
      cases hle
    · intro h
      exact hbetween i hi i hi h h
  · intro i hi h
    rw [hsq]
    exact finite_of_rowWeight_le hside (hrow i hi h)

theorem MeetsBound.everywhere_iff {product one : Dense (Amplitude Float)}
    (h : MeetsBound eps u product one) :
    (∀ i < u.rows, ∀ j < u.rows, product.gap one i j ≤ eps) ↔
      ∀ i < u.rows, ∀ k < u.rows, (u.get i k).Finite := by
  constructor
  · intro hle i hi
    exact h.finite i hi ((h.diagonal i hi).mp (hle i hi i hi))
  · intro hfinite i hi j hj
    exact h.between i hi j hj (fun k hk => (hfinite i hi k hk).not_spoilt)
      fun k hk => (hfinite j hj k hk).not_spoilt

end Accepted

end Dense

namespace Device

open DualRail.Dense

theorem ofMatrix_eq_ok_iff {R : Type} [Quantity R] {name : String} {eps : R}
    {u : Dense (Amplitude R)} {d : Device R} :
    Device.ofMatrix name eps (some u) = .ok d ↔
      u.isUnitary eps = .ok true ∧ d = .unitary name u := by
  constructor
  · intro h
    obtain ⟨accepted, hcheck, h⟩ := bind_eq_ok h
    cases accepted with
    | false => cases h
    | true => exact ⟨noting_eq_ok hcheck, (Except.ok.inj h).symm⟩
  · rintro ⟨hcheck, rfl⟩
    rw [ofMatrix, hcheck, noting_ok, ok_bind]
    rfl

/-- An accepted matrix is square, and each entry of its product with its adjoint is within the
tolerance of the identity or at a distance that is no number. The bound holds as a comparison
everywhere exactly if the matrix is finite; otherwise some entry has a part that is no number, and
the bound fails on the diagonal of its row. The comparison of two matrices fails to be one only at
entries that are not finite. -/
theorem accepted_matrix_meets_bound {given : List Float} {eps : Float}
    (heps : Tolerance.choose given = .ok eps) :
    (∀ (name : String) (u : Dense (Amplitude Float)) (d : Device Float),
      Device.ofMatrix name eps (some u) = .ok d →
        d = .unitary name u ∧ u.rows = u.cols ∧
          ∃ product one, u.mul u.adjoint = .ok product ∧ identity u.rows = .ok one ∧
            MeetsBound eps u product one ∧
            ((∀ i < u.rows, ∀ j < u.rows, product.gap one i j ≤ eps) ↔
              ∀ i < u.rows, ∀ k < u.rows, (u.get i k).Finite)) ∧
      ∀ a b : Dense (Amplitude Float), a.WellFormed → b.WellFormed →
        (allClose eps a b = .ok true ↔ a.rows = b.rows ∧ a.cols = b.cols ∧
          ∀ i < a.rows, ∀ j < a.cols, a.gap b i j ≤ eps ∨ (a.gap b i j).isNaN = true) ∧
        ∀ i < a.rows, ∀ j < a.cols, (a.get i j).Finite → (b.get i j).Finite →
          (a.gap b i j).isNaN = false := by
  have hfinite := Tolerance.isFinite_of_choose heps
  constructor
  · intro name u d h
    obtain ⟨hcheck, hd⟩ := ofMatrix_eq_ok_iff.mp h
    obtain ⟨hsq, hn, hnear⟩ := isUnitary_eq_true_iff.mp hcheck
    have hbound := meetsBound_of_near hfinite hsq hn hnear
    exact ⟨hd, hsq, u.gram, unitMatrix u.rows, mul_adjoint hn, identity_eq_unitMatrix hn, hbound,
      hbound.everywhere_iff⟩
  · intro a b ha hb
    exact ⟨allClose_eq_true_iff hfinite ha hb, fun i _ j _ => isNaN_gap_of_finite⟩

def exchanged : Dense (Amplitude Float) := ⟨2, 2, #[0, 1, 1, 0]⟩

theorem accepted_matrix_meets_bound_exchange :
    Device.ofMatrix "X" Tolerance.standard (some exchanged) = .ok (.unitary "X" exchanged) ∧
      (∃ product one, exchanged.mul exchanged.adjoint = .ok product ∧ identity 2 = .ok one ∧
        MeetsBound Tolerance.standard exchanged product one) ∧
      allClose Tolerance.standard exchanged exchanged = .ok true ∧
      (exchanged.gap exchanged 0 1).isNaN = false := by
  have hcheck : exchanged.isUnitary Tolerance.standard = .ok true :=
    isUnitary_eq_true_iff.mpr ⟨rfl, by decide +kernel, by decide +kernel⟩
  have hdevice : Device.ofMatrix "X" Tolerance.standard (some exchanged) =
      .ok (.unitary "X" exchanged) := ofMatrix_eq_ok_iff.mpr ⟨hcheck, rfl⟩
  have hwell : exchanged.WellFormed := ⟨by decide, by decide, rfl⟩
  have hchoose : Tolerance.choose [] = .ok (Tolerance.standard : Float) := rfl
  obtain ⟨haccepted, hclose⟩ := accepted_matrix_meets_bound hchoose
  obtain ⟨_, _, product, one, hproduct, hone, hbound, _⟩ := haccepted "X" exchanged _ hdevice
  obtain ⟨hiff, hnumber⟩ := hclose exchanged exchanged hwell hwell
  have hentry : (exchanged.get 0 1).Finite := ⟨by decide +kernel, by decide +kernel⟩
  exact ⟨hdevice, ⟨product, one, hproduct, hone, hbound⟩, hiff.mpr ⟨rfl, rfl, by decide +kernel⟩,
    hnumber 0 (by decide) 1 (by decide) hentry hentry⟩

/-- A matrix that is no number is accepted, and it counts as close to the identity. -/
theorem spoilt_matrix_is_accepted :
    ∃ u : Dense (Amplitude Float), (u.get 0 0).Spoilt ∧
      Device.ofMatrix "u" Tolerance.standard (some u) = .ok (.unitary "u" u) ∧
      (∃ product one, u.mul u.adjoint = .ok product ∧ identity 1 = .ok one ∧
        ¬ product.gap one 0 0 ≤ Tolerance.standard ∧
        allClose Tolerance.standard u one = .ok true ∧ ¬ u.gap one 0 0 ≤ Tolerance.standard) := by
  have hcheck : (⟨1, 1, #[⟨Decimal.nan, 0⟩]⟩ : Dense (Amplitude Float)).isUnitary
      Tolerance.standard = .ok true :=
    isUnitary_eq_true_iff.mpr ⟨rfl, by decide +kernel, by decide +kernel⟩
  refine ⟨⟨1, 1, #[⟨Decimal.nan, 0⟩]⟩, .inl (by decide +kernel),
    ofMatrix_eq_ok_iff.mpr ⟨hcheck, rfl⟩, _, unitMatrix 1, mul_adjoint (by decide +kernel),
    identity_eq_unitMatrix (by decide +kernel), by decide +kernel, ?_, by decide +kernel⟩
  exact (allClose_eq_true_iff Tolerance.isFinite_standard ⟨by decide, by decide, rfl⟩
    ⟨by decide, by decide, rfl⟩).mpr ⟨rfl, rfl, by decide +kernel⟩

end Device

end DualRail
