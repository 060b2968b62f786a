import Mathlib
import DualRail.Proofs.PermutationAction

/-!
The moving part of a permutation. A permutation is its moving part lifted to the place it was taken
from, and a permutation that moves both of its ends is the moving part of whatever it is lifted to:
trimming and lifting undo each other.
-/

namespace DualRail.Permutation

/-- The first and the last mode move. -/
def MovesEnds (q : Permutation) : Prop := q.apply 0 ≠ 0 ∧ q.apply (q.width - 1) ≠ q.width - 1

instance (q : Permutation) : Decidable q.MovesEnds := inferInstanceAs (Decidable (_ ∧ _))

/-- Lifting `q` to `m` modes gives `p`; only room for the vector can be wanting. -/
def LiftsTo (q : Permutation) (m offset : Int) (p : Permutation) : Prop :=
  q.lift m offset = if m * 8 ≤ Storage.limit then .ok p else .error (.overrun .allocation)

theorem liftsTo_raise {q : Permutation} {m offset : Nat} (hfit : offset + q.width ≤ m) :
    q.LiftsTo m offset (q.raise offset (m - (offset + q.width))) := by
  unfold LiftsTo
  by_cases hroom : m * 8 ≤ Storage.limit
  · rw [if_pos (by exact_mod_cast hroom), lift_of_fits hfit hroom]
  · rw [if_neg (by exact_mod_cast hroom), lift_overrun hfit (Nat.not_le.mp hroom)]

section Raised

variable {q q' : Permutation} {offset rest rest' : Nat}

theorem raise_moves_iff {i : Nat} :
    (q.raise offset rest).apply i ≠ i ↔
      offset ≤ i ∧ i < offset + q.width ∧ q.apply (i - offset) ≠ i - offset := by
  rw [raise_apply]
  split
  · rename_i hinside
    constructor
    · intro hmoved
      exact ⟨hinside.1, hinside.2, by omega⟩
    · rintro ⟨_, _, hmoved⟩
      omega
  · rename_i houtside
    constructor
    · intro hmoved
      exact absurd rfl hmoved
    · rintro ⟨hlow, hhigh, _⟩
      exact absurd ⟨hlow, hhigh⟩ houtside

theorem eq_of_raise_eq (hw : q.width = q'.width)
    (h : q.raise offset rest = q'.raise offset rest') : q = q' := by
  apply ext_apply hw
  intro i hi
  have hplace := congrArg (fun p => p.apply (offset + i)) h
  simp only [raise_apply, Nat.add_sub_cancel_left] at hplace
  rw [if_pos (by omega), if_pos (by omega)] at hplace
  exact Nat.add_left_cancel hplace

/-- A permutation that moves its ends fills the smallest interval, wherever it is raised to. -/
theorem smallestSpan_raise (hends : q.MovesEnds) :
    (q.raise offset rest).SmallestSpan offset q.width := by
  have hpos := q.width_pos
  have hfirst : (q.raise offset rest).apply offset ≠ offset := by
    rw [raise_moves_iff, Nat.sub_self]
    exact ⟨Nat.le_refl _, by omega, hends.1⟩
  have hlast : (q.raise offset rest).apply (offset + (q.width - 1)) ≠
      offset + (q.width - 1) := by
    rw [raise_moves_iff, Nat.add_sub_cancel_left]
    exact ⟨by omega, by omega, hends.2⟩
  constructor
  · intro i hmoved
    obtain ⟨hlow, hhigh, _⟩ := raise_moves_iff.mp hmoved
    exact ⟨hlow, hhigh⟩
  · intro lo count hcovers
    have hbegin := hcovers _ hfirst
    have hend := hcovers _ hlast
    omega

end Raised

theorem SmallestSpan.unique {p : Permutation} {lo lo' count count' : Nat}
    (h : p.SmallestSpan lo count) (h' : p.SmallestSpan lo' count') :
    lo = lo' ∧ count = count' := by
  obtain ⟨hlow, hhigh⟩ := h.least lo' count' h'.covers
  obtain ⟨hlow', hhigh'⟩ := h'.least lo count h.covers
  omega

section Trimmed

variable {p q : Permutation} {lo : Nat}

theorem trim_eq_none_iff : p.trim = none ↔ ∀ i, p.apply i = i := by
  rw [← isIdentity_iff]
  exact ⟨trim_eq_none, trim_of_isIdentity⟩

theorem movesEnds_of_trim (h : p.trim = some (lo, q)) : q.MovesEnds := by
  obtain ⟨hfirst, hi, hlast, hend⟩ := ends_of_trim h
  obtain ⟨_, hraise⟩ := trim_eq_some h
  have hmoves : ∀ i ∈ p.moved, q.apply (i - lo) ≠ i - lo := by
    intro i hmem
    have hmoved := (mem_moved.mp hmem).2
    rw [← hraise] at hmoved
    exact (raise_moves_iff.mp hmoved).2.2
  have hbegin := hmoves lo hfirst
  rw [Nat.sub_self] at hbegin
  have hstop := hmoves hi hlast
  rw [show hi - lo = q.width - 1 by omega] at hstop
  exact ⟨hbegin, hstop⟩

theorem trim_raise (hends : q.MovesEnds) (offset rest : Nat) :
    (q.raise offset rest).trim = some (offset, q) := by
  have hspan : (q.raise offset rest).SmallestSpan offset q.width := smallestSpan_raise hends
  cases htrim : (q.raise offset rest).trim with
  | none =>
    have hfixed := trim_eq_none_iff.mp htrim offset
    have hpos := q.width_pos
    rw [raise_apply, if_pos (by omega), Nat.sub_self] at hfixed
    exact absurd (Nat.add_eq_left.mp hfixed) hends.1
  | some found =>
    obtain ⟨lo, core⟩ := found
    obtain ⟨rfl, hwidth⟩ := (smallestSpan_of_trim htrim).unique hspan
    obtain ⟨_, hraise⟩ := trim_eq_some htrim
    rw [eq_of_raise_eq hwidth hraise]

end Trimmed

/-- Trimming and lifting undo each other. Trimming finds nothing exactly in the identity; otherwise
it gives a bijection that moves both of its ends, the place of the smallest interval with all the
modes that move, and lifting it to that place gives the permutation again. Conversely, a permutation
that moves both of its ends is found by trimming, with its place, in whatever it is lifted to. -/
theorem trim_and_lift_are_inverse :
    (∀ p : Permutation,
      (p.trim = none ↔ ∀ i, i < p.width → p.apply i = i) ∧
      ∀ lo q, p.trim = some (lo, q) →
        q.vector.Perm (List.range q.width) ∧ q.MovesEnds ∧ lo + q.width ≤ p.width ∧
        q.LiftsTo p.width lo p ∧ p.SmallestSpan lo q.width) ∧
    (∀ q : Permutation, q.MovesEnds → ∀ m offset : Int, 0 ≤ offset → offset + q.width ≤ m →
      ∃ p : Permutation, p.width = m ∧ q.LiftsTo m offset p ∧
        p.trim = some (offset.toNat, q)) := by
  refine ⟨fun p => ⟨?_, fun lo q htrim => ?_⟩, fun q hends m offset hpos hfit => ?_⟩
  · rw [trim_eq_none_iff]
    constructor
    · exact fun hfixed i _ => hfixed i
    · intro hfixed i
      by_cases hi : i < p.width
      · exact hfixed i hi
      · exact apply_of_le (Nat.not_lt.mp hi)
  · obtain ⟨hfit, hraise⟩ := trim_eq_some htrim
    have hlift := liftsTo_raise hfit
    rw [hraise] at hlift
    exact ⟨q.bijective, movesEnds_of_trim htrim, hfit, hlift, smallestSpan_of_trim htrim⟩
  · obtain ⟨offset, rfl⟩ := Int.eq_ofNat_of_zero_le hpos
    obtain ⟨m, rfl⟩ := Int.eq_ofNat_of_zero_le (show 0 ≤ m by omega)
    have hinside : offset + q.width ≤ m := by omega
    exact ⟨_, by rw [width_raise_of_fits hinside], liftsTo_raise hinside, trim_raise hends _ _⟩

def outerCrossing : Permutation := ⟨#[2, 1, 0], by decide, by decide⟩

/-- A fixed mode between two that move stays in the moving part, those beside it do not. -/
theorem trim_and_lift_are_inverse_outer :
    outerCrossing.MovesEnds ∧ ∃ p : Permutation, outerCrossing.lift 6 2 = .ok p ∧
      p.vector = [0, 1, 4, 3, 2, 5] ∧ p.trim = some (2, outerCrossing) ∧
      p.SmallestSpan 2 3 := by
  have hends : outerCrossing.MovesEnds := by decide
  obtain ⟨p, _, hlift, htrim⟩ :=
    trim_and_lift_are_inverse.2 outerCrossing hends 6 2 (by decide) (by decide)
  have hlifted : outerCrossing.lift 6 2 = .ok p := hlift
  have hvector : (outerCrossing.lift 6 2).map vector = .ok [0, 1, 4, 3, 2, 5] := by decide +kernel
  rw [hlifted] at hvector
  exact ⟨hends, p, hlifted, Except.ok.inj hvector, htrim,
    ((trim_and_lift_are_inverse.1 p).2 2 outerCrossing htrim).2.2.2.2⟩

end DualRail.Permutation
