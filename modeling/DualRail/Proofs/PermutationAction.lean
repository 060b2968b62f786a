import Mathlib
import DualRail.Permutation.Basic
import DualRail.Proofs.ExactMatrix

/-!
Permutations through their images. Each operation is described by what it does to
`Permutation.apply`, and a permutation is determined by its width and its images; later proofs use
these descriptions and never look into the arrays.
-/

namespace DualRail.Permutation

theorem size_images (p : Permutation) : p.images.size = p.width := rfl

theorem width_pos (p : Permutation) : 0 < p.width := p.nonempty

theorem apply_of_lt {p : Permutation} {i : Nat} (h : i < p.images.size) :
    p.apply i = p.images[i] := by
  simp [apply, Array.getD, h]

theorem apply_of_le {p : Permutation} {i : Nat} (h : p.width ≤ i) : p.apply i = i := by
  have hn : ¬ i < p.images.size := Nat.not_lt.mpr h
  simp [apply, Array.getD, hn]

theorem apply_lt {p : Permutation} {i : Nat} (h : i < p.width) : p.apply i < p.width := by
  rw [apply_of_lt h]
  exact lt_of_mem (Array.mem_toList_iff.mpr (Array.getElem_mem h))

theorem apply_lt_iff {p : Permutation} {i : Nat} : p.apply i < p.width ↔ i < p.width := by
  constructor
  · intro h
    by_contra hn
    rw [apply_of_le (Nat.not_lt.mp hn)] at h
    exact hn h
  · exact apply_lt

theorem apply_injective (p : Permutation) : Function.Injective p.apply := by
  intro i j h
  by_cases hi : i < p.width
  · have hj : j < p.width := apply_lt_iff.mp (h ▸ apply_lt hi)
    have hli : i < p.images.toList.length := by rwa [Array.length_toList]
    have hlj : j < p.images.toList.length := by rwa [Array.length_toList]
    have he : p.images.toList[i] = p.images.toList[j] := by
      rw [getElem_toList, getElem_toList]
      exact h
    exact p.nodup.getElem_inj_iff.mp he
  · have hj : ¬ j < p.width := fun hj => hi (apply_lt_iff.mp (h ▸ apply_lt hj))
    rwa [apply_of_le (Nat.not_lt.mp hi), apply_of_le (Nat.not_lt.mp hj)] at h

theorem ext_apply {p q : Permutation} (hw : p.width = q.width)
    (h : ∀ i, i < p.width → p.apply i = q.apply i) : p = q := by
  apply Permutation.ext
  apply Array.ext hw
  intro i hi hj
  rw [← apply_of_lt hi, ← apply_of_lt hj]
  exact h i hi

theorem isIdentity_iff {p : Permutation} : p.isIdentity = true ↔ ∀ i, p.apply i = i := by
  rw [isIdentity, beq_iff_eq]
  constructor
  · intro h i
    by_cases hi : i < p.width
    · rw [apply_of_lt hi]
      simp [h]
    · exact apply_of_le (Nat.not_lt.mp hi)
  · intro h
    apply Array.ext
    · simp [size_images]
    · intro i hi hj
      rw [← apply_of_lt hi, h i]
      simp

def crossing : Permutation := ⟨#[1, 0], by decide, by decide⟩

@[simp] theorem width_inverse (p : Permutation) : p.inverse.width = p.width := by
  simp [width, inverse, inverseImages]

@[simp] theorem inverse_apply_apply (p : Permutation) (i : Nat) :
    p.inverse.apply (p.apply i) = i := by
  by_cases hi : i < p.width
  · have hv : p.apply i < p.inverse.images.size := by
      rw [size_images, width_inverse]
      exact apply_lt hi
    have hi' : i < p.images.size := hi
    have hg : p.images.getD i 0 = p.apply i := by simp [apply, Array.getD, hi']
    have h := getD_inverseImages p hi'
    rw [hg] at h
    rw [apply_of_lt hv]
    have hd : (inverseImages p.images).getD (p.apply i) 0 = p.inverse.images[p.apply i] := by
      change p.inverse.images.getD (p.apply i) 0 = _
      simp [Array.getD, hv]
    rw [← hd, h]
  · have hle : p.width ≤ i := Nat.not_lt.mp hi
    rw [apply_of_le hle, apply_of_le (by rwa [width_inverse])]

@[simp] theorem apply_inverse_apply (p : Permutation) (i : Nat) :
    p.apply (p.inverse.apply i) = i := by
  apply p.inverse.apply_injective
  rw [inverse_apply_apply]

@[simp] theorem width_comp (p q : Permutation) (h : p.width = q.width) :
    (p.comp q h).width = p.width := by
  simp [width, comp]

@[simp] theorem comp_apply (p q : Permutation) (h : p.width = q.width) (i : Nat) :
    (p.comp q h).apply i = q.apply (p.apply i) := by
  by_cases hi : i < p.width
  · have hc : i < (p.comp q h).images.size := by
      rw [size_images, width_comp]
      exact hi
    have hq : p.apply i < q.images.size := by
      rw [size_images, ← h]
      exact apply_lt hi
    have hi' : i < p.images.size := hi
    have hg : (p.comp q h).images[i] = q.images.getD p.images[i] 0 := Array.getElem_map ..
    rw [apply_of_lt hc, hg, ← apply_of_lt hi', apply_of_lt hq]
    simp [Array.getD, hq]
  · have hle : p.width ≤ i := Nat.not_lt.mp hi
    rw [apply_of_le hle, apply_of_le (by rwa [width_comp]), apply_of_le (by rwa [← h])]

theorem andThen_eq {p q : Permutation} (h : p.width = q.width) :
    p.andThen q = .ok (p.comp q h) := by
  simp [andThen, h]

theorem andThen_eq_ok {p q r : Permutation} (h : p.andThen q = .ok r) :
    ∃ hw : p.width = q.width, r = p.comp q hw := by
  unfold andThen at h
  split at h
  · rename_i hw
    exact ⟨hw, (Except.ok.inj h).symm⟩
  · cases h

theorem comp_inverse_isIdentity (p : Permutation) :
    (p.comp p.inverse (width_inverse p).symm).isIdentity = true :=
  isIdentity_iff.mpr fun i => by simp

@[simp] theorem width_raise (p : Permutation) (offset rest : Nat) :
    (p.raise offset rest).width = offset + p.width + rest := by
  simp only [width, raise, liftImages, List.size_toArray, List.length_append, List.length_range,
    List.length_map, Array.length_toList, List.length_range']

theorem raise_apply (p : Permutation) (offset rest i : Nat) :
    (p.raise offset rest).apply i =
      if offset ≤ i ∧ i < offset + p.width then offset + p.apply (i - offset) else i := by
  by_cases hi : i < offset + p.width + rest
  · have hs : i < (p.raise offset rest).images.size := by
      rw [size_images, width_raise]
      exact hi
    rw [apply_of_lt hs]
    simp only [raise, liftImages, List.getElem_toArray]
    by_cases hlow : i < offset
    · rw [if_neg (by omega), List.getElem_append_left (by simp; omega),
        List.getElem_append_left (by simpa using hlow), List.getElem_range]
    · by_cases hmid : i < offset + p.width
      · have hk : i - offset < p.images.size := by
          rw [size_images]
          omega
        rw [if_pos ⟨by omega, hmid⟩, List.getElem_append_left (by simp [size_images]; omega),
          List.getElem_append_right (by simpa using hlow), List.getElem_map, apply_of_lt hk]
        simp
      · rw [if_neg (by omega), List.getElem_append_right (by simp [size_images]; omega),
          List.getElem_range']
        simp [size_images]
        omega
  · rw [apply_of_le (by rw [width_raise]; omega), if_neg (by omega)]

theorem one_apply (n i : Nat) : (one n).apply i = i := by
  by_cases hi : i < n + 1
  · simp [apply, one, hi]
  · simp [apply, one, hi]

theorem width_one (n : Nat) : (one n).width = n + 1 := by
  simp [width, one]

theorem identity_of_le {m : Nat} (hm : 0 < m) (h : m * 8 ≤ Storage.limit) :
    identity (m : Int) = .ok (one (m - 1)) := by
  unfold identity
  rw [if_neg (by omega), Storage.reserve_of_le h]
  rfl

theorem identity_overrun {m : Nat} (h : Storage.limit < m * 8) :
    identity (m : Int) = .error (.overrun .allocation) := by
  unfold identity
  rw [if_neg (by omega), Storage.reserve_eq_error h]
  rfl

theorem width_raise_of_fits {p : Permutation} {m offset : Nat} (hfit : offset + p.width ≤ m) :
    (p.raise offset (m - (offset + p.width))).width = m := by
  rw [width_raise]
  omega

theorem lift_of_fits {p : Permutation} {m offset : Nat} (hfit : offset + p.width ≤ m)
    (hm : m * 8 ≤ Storage.limit) :
    p.lift m offset = .ok (p.raise offset (m - (offset + p.width))) := by
  have hpos := p.width_pos
  have hw : Word.wrap ((offset : Int) + p.width) = ((offset + p.width : Nat) : Int) := by
    rw [Storage.limit_eq] at hm
    rw [← Int.natCast_add]
    apply Word.wrap_of_inRange
    unfold Word.InRange Word.min Word.max
    omega
  have h₁ : ¬ ((m : Int) < ((offset + p.width : Nat) : Int)) := by omega
  have h₂ : ¬ ((m : Int) ≤ 0) := by omega
  have h₃ : (offset : Int) + p.width ≤ m := by omega
  simp only [lift, hw, h₁, h₂, h₃, Int.natCast_nonneg, Int.not_lt.mpr, decide_false, Bool.or_self,
    Bool.false_eq_true, if_false, if_true, Storage.reserve_of_le hm, Int.toNat_natCast, bind,
    Except.bind]
  rfl

theorem lift_eq_ok {p q : Permutation} {m offset : Nat} (h : p.lift m offset = .ok q) :
    offset + p.width ≤ m ∧ q = p.raise offset (m - (offset + p.width)) := by
  unfold lift at h
  split at h
  · cases h
  · split at h
    · cases h
    · cases hr : Storage.reserve (m : Int) 8 with
      | error f =>
        rw [hr] at h
        cases h
      | ok c =>
        rw [hr] at h
        change (if (offset : Int) + p.width ≤ m then _ else _) = _ at h
        by_cases hfit : (offset : Int) + p.width ≤ m
        · rw [if_pos hfit] at h
          exact ⟨by omega, (Except.ok.inj h).symm⟩
        · rw [if_neg hfit] at h
          cases h

theorem lift_overrun {p : Permutation} {m offset : Nat} (hfit : offset + p.width ≤ m)
    (hm : Storage.limit < m * 8) : p.lift m offset = .error (.overrun .allocation) := by
  have hpos := p.width_pos
  have hw : Word.wrap ((offset : Int) + p.width) ≤ (offset : Int) + p.width :=
    Word.wrap_le (by omega)
  have h₁ : ¬ ((m : Int) < Word.wrap ((offset : Int) + p.width)) := by omega
  have h₂ : ¬ ((m : Int) ≤ 0) := by omega
  unfold lift
  rw [if_neg (by simp [h₁]), if_neg h₂, Storage.reserve_eq_error hm]
  rfl

theorem width_narrow (p : Permutation) {lo count : Nat} (hc : 0 < count)
    (hin : lo + count ≤ p.width)
    (hfix : ∀ i, i < p.width → i < lo ∨ lo + count ≤ i → p.apply i = i) :
    (p.narrow lo count hc hin hfix).width = count := by
  have hs := p.size_images
  simp only [width, narrow, coreImages, List.size_toArray, List.length_map, List.length_take,
    List.length_drop, Array.length_toList]
  omega

/-- Outside an interval that holds all moved modes nothing changes, so neither does it for images
of the interval. -/
theorem le_apply_of_fixed {p : Permutation} {lo count i : Nat}
    (hfix : ∀ j, j < p.width → j < lo ∨ lo + count ≤ j → p.apply j = j)
    (hin : lo + count ≤ p.width) (hlo : lo ≤ i) (hi : i < lo + count) :
    lo ≤ p.apply i ∧ p.apply i < lo + count := by
  by_contra hn
  have hlt : p.apply i < p.width := apply_lt (by omega)
  have hself := hfix (p.apply i) hlt (by omega)
  have := p.apply_injective hself
  omega

theorem narrow_apply (p : Permutation) {lo count : Nat} (hc : 0 < count)
    (hin : lo + count ≤ p.width)
    (hfix : ∀ i, i < p.width → i < lo ∨ lo + count ≤ i → p.apply i = i) {i : Nat}
    (hi : i < count) : lo + (p.narrow lo count hc hin hfix).apply i = p.apply (lo + i) := by
  have hs : i < (p.narrow lo count hc hin hfix).images.size := by
    rw [size_images, width_narrow]
    exact hi
  have hp : lo + i < p.images.size := by
    rw [size_images]
    omega
  have hb := le_apply_of_fixed hfix hin (i := lo + i) (by omega) (by omega)
  rw [apply_of_lt hs]
  rw [apply_of_lt hp] at hb ⊢
  simp only [narrow, coreImages, List.getElem_toArray, List.getElem_map, List.getElem_take,
    List.getElem_drop, Array.getElem_toList]
  omega

theorem raise_narrow (p : Permutation) {lo count : Nat} (hc : 0 < count)
    (hin : lo + count ≤ p.width)
    (hfix : ∀ i, i < p.width → i < lo ∨ lo + count ≤ i → p.apply i = i) :
    (p.narrow lo count hc hin hfix).raise lo (p.width - (lo + count)) = p := by
  have hw := width_narrow p hc hin hfix
  apply ext_apply
  · rw [width_raise, hw]
    omega
  · intro i hi
    rw [width_raise, hw] at hi
    rw [raise_apply, hw]
    split
    · rename_i h
      rw [narrow_apply p hc hin hfix (by omega)]
      congr 1
      omega
    · exact (hfix i (by omega) (by omega)).symm

theorem trim_eq_none {p : Permutation} (h : p.trim = none) : p.isIdentity = true := by
  unfold trim at h
  split at h
  · rename_i hm
    refine isIdentity_iff.mpr fun i => ?_
    by_cases hi : i < p.width
    · by_contra hne
      have := mem_moved.mpr ⟨hi, hne⟩
      simp [hm] at this
    · exact apply_of_le (Nat.not_lt.mp hi)
  · cases h

section Trim

variable {p core : Permutation} {lo : Nat}

theorem moved_of_trim (h : p.trim = some (lo, core)) :
    ∃ more, p.moved = lo :: more ∧ lo + core.width = more.getLastD lo + 1 := by
  unfold trim at h
  split at h
  · cases h
  · rename_i first more hm
    obtain ⟨rfl, rfl⟩ := Prod.mk.inj (Option.some.inj h)
    have ha : (first :: more).Pairwise (· < ·) := hm ▸ p.moved_ascending
    have hlow := le_getLast_of_ascending ha (by simp) first List.mem_cons_self
    refine ⟨more, hm, ?_⟩
    rw [width_narrow, ← List.getLast_eq_getLastD (by simp)]
    omega

theorem ends_of_trim (h : p.trim = some (lo, core)) :
    lo ∈ p.moved ∧ ∃ hi ∈ p.moved, lo + core.width = hi + 1 := by
  obtain ⟨more, hm, hend⟩ := moved_of_trim h
  rw [hm]
  exact ⟨List.mem_cons_self, _, List.getLastD_mem_cons, hend⟩

/-- The trimmed part, put back in its place, is the whole permutation. -/
theorem trim_eq_some (h : p.trim = some (lo, core)) :
    lo + core.width ≤ p.width ∧ core.raise lo (p.width - (lo + core.width)) = p := by
  obtain ⟨-, hi, hlast, hend⟩ := ends_of_trim h
  have htop := (mem_moved.mp hlast).1
  refine ⟨by omega, ?_⟩
  unfold trim at h
  split at h
  · cases h
  · obtain ⟨rfl, rfl⟩ := Prod.mk.inj (Option.some.inj h)
    rw [width_narrow]
    exact raise_narrow p _ _ _

theorem trim_of_isIdentity (h : p.isIdentity = true) : p.trim = none := by
  cases ht : p.trim with
  | none => rfl
  | some found => exact absurd (isIdentity_iff.mp h _) (mem_moved.mp (ends_of_trim ht).1).2

/-- The interval of `count` modes from `lo` on holds every mode that `p` moves, and every interval
that does holds it. -/
structure SmallestSpan (p : Permutation) (lo count : Nat) : Prop where
  covers : ∀ i, p.apply i ≠ i → lo ≤ i ∧ i < lo + count
  least : ∀ lo' count', (∀ i, p.apply i ≠ i → lo' ≤ i ∧ i < lo' + count') →
    lo' ≤ lo ∧ lo + count ≤ lo' + count'

theorem smallestSpan_of_trim (h : p.trim = some (lo, core)) : p.SmallestSpan lo core.width := by
  obtain ⟨hfirst, hi, hlast, hend⟩ := ends_of_trim h
  constructor
  · intro i hmoved
    by_contra houtside
    apply hmoved
    rw [← (trim_eq_some h).2, raise_apply, if_neg houtside]
  · intro lo' count' hcovers
    have hbegin := hcovers lo (mem_moved.mp hfirst).2
    have hstop := hcovers hi (mem_moved.mp hlast).2
    omega

end Trim

theorem fault?_of_distinct {n i : Nat} {seen : Array Bool} {l : List Nat} (hsize : seen.size = n)
    (hlt : ∀ v ∈ l, v < n ∧ seen.getD v false = false) (hnd : l.Nodup) :
    fault? n i seen (l.map Int.ofNat) = none := by
  induction l generalizing i seen with
  | nil => rfl
  | cons v rest ih =>
    obtain ⟨hv, hs⟩ := hlt v List.mem_cons_self
    rw [List.nodup_cons] at hnd
    have hrange : ¬ ((Int.ofNat v < 0 || (n : Int) ≤ Int.ofNat v) = true) := by
      simp only [Int.ofNat_eq_natCast, Bool.or_eq_true, decide_eq_true_eq]
      omega
    rw [List.map_cons, fault?, if_neg hrange, if_neg (by simpa using hs)]
    apply ih (by simpa using hsize) _ hnd.2
    intro w hw
    obtain ⟨hlw, hsw⟩ := hlt w (List.mem_cons_of_mem _ hw)
    have hne : v ≠ w := fun e => hnd.1 (e ▸ hw)
    refine ⟨hlw, ?_⟩
    rw [Array.getD_eq_getD_getElem?] at hsw ⊢
    rwa [Int.ofNat_eq_natCast, Int.toNat_natCast, Array.getElem?_setIfInBounds_ne hne]

theorem map_toNat_map_ofNat (l : List Nat) : (l.map Int.ofNat).map Int.toNat = l := by
  rw [List.map_map]
  conv_rhs => rw [← List.map_id l]
  apply List.map_congr_left
  intro v _
  simp

theorem ofVector_of_perm {l : List Nat} (hne : 0 < l.length)
    (hp : l.Perm (List.range l.length)) :
    ∃ p : Permutation, ofVector (l.map Int.ofNat) = .ok p ∧ p.images = l.toArray := by
  have hnone : vectorFault? (l.map Int.ofNat) = none := by
    have hemp : (l.map Int.ofNat).isEmpty = false := by
      cases l with
      | nil => simp at hne
      | cons => rfl
    rw [vectorFault?, hemp, List.length_map]
    apply fault?_of_distinct (by simp) _ (hp.nodup_iff.mpr List.nodup_range)
    intro v hv
    have := List.mem_range.mp (hp.mem_iff.mp hv)
    simp [Array.getD, this]
  unfold ofVector
  split
  · rename_i note h
    rw [hnone] at h
    cases h
  · exact ⟨_, rfl, by simp only [map_toNat_map_ofNat]⟩

section Matrix

variable {K : Type} [Scalar K]

@[simp] theorem rows_matrix (p : Permutation) : (p.matrix : Dense K).rows = p.width := rfl

theorem get_matrix {p : Permutation} {i j : Nat} (hi : i < p.width) (hj : j < p.width) :
    (p.matrix : Dense K).get i j = if p.apply j = i then 1 else 0 :=
  Dense.get_build hi hj

theorem embedEntry_matrix (p : Permutation) (offset rest i j : Nat) :
    Dense.embedEntry offset (p.matrix : Dense K) i j =
      if (p.raise offset rest).apply j = i then 1 else 0 := by
  rw [raise_apply, Dense.embedEntry_eq, rows_matrix]
  by_cases hj : offset ≤ j ∧ j < offset + p.width
  · by_cases hi : offset ≤ i ∧ i < offset + p.width
    · rw [if_pos ⟨hi, hj⟩, if_pos hj, get_matrix (by omega) (by omega)]
      congr 1
      exact propext ⟨fun h => by omega, fun h => by omega⟩
    · have hlt : p.apply (j - offset) < p.width := apply_lt (by omega)
      rw [if_neg (by tauto), if_pos hj, if_neg (by omega), if_neg (by omega)]
  · rw [if_neg (by tauto), if_neg hj]
    simp only [eq_comm]

theorem mem_zipIdx_vector {p : Permutation} {w : Nat × Nat} :
    w ∈ p.vector.zipIdx ↔ w.2 < p.width ∧ p.apply w.2 = w.1 := by
  rw [List.mem_zipIdx_iff_getElem?, vector, List.getElem?_eq_some_iff]
  constructor
  · rintro ⟨hi, hv⟩
    exact ⟨by simpa [size_images] using hi, by rw [← hv, getElem_toList]⟩
  · rintro ⟨hi, hv⟩
    exact ⟨by simpa [size_images] using hi, by rw [getElem_toList, hv]⟩

theorem lt_of_mem_zipIdx {p : Permutation} {w : Nat × Nat} (h : w ∈ p.vector.zipIdx) :
    w.1 < p.width ∧ w.2 < p.width := by
  obtain ⟨hi, hv⟩ := mem_zipIdx_vector.mp h
  exact ⟨hv ▸ apply_lt hi, hi⟩

theorem mem_cells_iff {p : Permutation} {k : Nat} :
    k ∈ p.vector.zipIdx.map (fun w => w.1 * p.width + w.2) ↔
      p.apply (k % p.width) = k / p.width := by
  have hpos := p.width_pos
  rw [List.mem_map]
  constructor
  · rintro ⟨w, hw, rfl⟩
    obtain ⟨hi, hv⟩ := mem_zipIdx_vector.mp hw
    rw [Nat.mul_add_mod_of_lt hi, Nat.mul_comm w.1, Nat.mul_add_div hpos, Nat.div_eq_of_lt hi,
      Nat.add_zero, hv]
  · intro hv
    exact ⟨(k / p.width, k % p.width), mem_zipIdx_vector.mpr ⟨Nat.mod_lt _ hpos, hv⟩,
      Nat.div_add_mod' k p.width⟩

theorem storedMatrix_of_storable {p : Permutation} (h : Dense.Storable p.width) :
    p.storedMatrix = .ok (p.matrix : Dense K) := by
  have hroom := Dense.room_self_iff.mpr h
  rw [storedMatrix, Dense.zeros_of_room hroom]
  refine (Dense.foldlM_write (u := ⟨p.width, p.width, _⟩) hroom (by simp)
    (fun w hw => lt_of_mem_zipIdx hw) 1).trans ?_
  refine congrArg Except.ok (congrArg (Dense.mk p.width p.width) (Array.ext ?_ fun k hk hk' => ?_))
  · simp
  · have hcell : k < p.width * p.width := by simpa using hk
    have hread := getElem?_scatter_map_const (p.vector.zipIdx.map fun w => w.1 * p.width + w.2)
      (1 : K) (Array.replicate (p.width * p.width) 0) (by simpa using hcell)
    rw [List.map_map, Array.getElem?_eq_getElem (by simpa using hcell)] at hread
    refine Option.some.inj (hread.trans ?_)
    simp only [mem_cells_iff, Array.getElem_ofFn]
    split
    · rfl
    · simp [hcell]

/-- Without a place for the matrix there is none: the blank store cannot be made, or its length has
wrapped and the one in the first row behind its end falls outside. -/
theorem storedMatrix_of_not_storable {p : Permutation} (h : ¬ Dense.Storable p.width) :
    ∃ f, (p.storedMatrix : Except Failure (Dense K)) = .error f ∧ f.IsOverrun := by
  have hpos := p.width_pos
  have hsize : Storage.limit < p.width * p.width * 16 := Nat.lt_of_not_le fun hle => h ⟨hpos, hle⟩
  have hzeros : ¬ (((p.width : Int) ≤ 0 || (p.width : Int) ≤ 0) = true) := by
    simp only [Bool.or_self, decide_eq_true_eq]
    omega
  rw [storedMatrix, Dense.zeros, if_neg hzeros]
  cases hr : Storage.reserveGrid (p.width : Int) p.width 16 with
  | error f => exact ⟨f, rfl, Storage.isOverrun_of_reserveGrid hr⟩
  | ok count =>
    obtain ⟨⟨hword, _⟩, _, hcount⟩ := Storage.reserveGrid_eq_ok hr
    rw [Storage.limit_eq] at hcount hsize
    have hwide : 4194305 ≤ p.width := by
      by_contra hn
      have := Nat.mul_le_mul (Nat.lt_succ_iff.mp (Nat.lt_of_not_le hn))
        (Nat.lt_succ_iff.mp (Nat.lt_of_not_le hn))
      omega
    -- the first row that starts behind the end of the store
    have hceil := Nat.div_add_mod (count + p.width - 1) p.width
    have hmod := Nat.mod_lt (count + p.width - 1) hpos
    generalize hrow : (count + p.width - 1) / p.width = row at hceil
    rw [Nat.mul_comm] at hceil
    have hlast : 4194304 * 4194305 ≤ (p.width - 1) * p.width :=
      Nat.mul_le_mul (by omega) hwide
    have hin : row < p.width := by
      by_contra hn
      have := Nat.mul_le_mul_right p.width (Nat.le_of_not_lt hn)
      have hsplit : p.width * p.width = (p.width - 1) * p.width + p.width := by
        rw [← Nat.succ_mul, Nat.succ_eq_add_one, Nat.sub_add_cancel hpos]
      omega
    have hnear : count ≤ p.width → row * p.width ≤ p.width := by
      intro hle
      have hone : row ≤ 1 := by
        by_contra hn
        have := Nat.mul_le_mul_right p.width (Nat.lt_of_not_le hn)
        omega
      exact (Nat.mul_le_mul_right p.width hone).trans_eq (Nat.one_mul _)
    obtain ⟨i, hi, himage⟩ : ∃ i, i < p.width ∧ p.apply i = row :=
      ⟨p.inverse.apply row, by rwa [← apply_lt_iff, apply_inverse_apply],
        apply_inverse_apply p row⟩
    refine Dense.foldlM_write_overrun (u := ⟨p.width, p.width, Array.replicate count 0⟩)
      (w := (row, i)) (fun w hw => lt_of_mem_zipIdx hw)
      (mem_zipIdx_vector.mpr ⟨hi, himage⟩) ?_ 1
    simp only [Array.size_replicate]
    rw [← Int.natCast_mul]
    unfold Word.max at hword
    by_cases hfar : ((row * p.width : Nat) : Int) + i ≤ Word.max
    · rw [Word.wrap_of_inRange ⟨by unfold Word.min; omega, hfar⟩]
      omega
    · left
      refine Word.wrap_neg (by omega) ?_
      unfold Word.max
      omega

theorem storedMatrix_eq_ok {p : Permutation} {V : Dense K} (h : p.storedMatrix = .ok V) :
    Dense.Storable p.width ∧ V = p.matrix := by
  by_cases hs : Dense.Storable p.width
  · rw [storedMatrix_of_storable hs] at h
    exact ⟨hs, (Except.ok.inj h).symm⟩
  · obtain ⟨f, hf, _⟩ := storedMatrix_of_not_storable (K := K) hs
    rw [hf] at h
    cases h

end Matrix

end DualRail.Permutation
