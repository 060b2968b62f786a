import Mathlib
import DualRail.Matrix.Dense
import DualRail.Permutation.Scatter
import DualRail.Proofs.Checked

/-!
Dense matrices over exact scalars. Over a commutative ring whose zero test decides equality with
zero, the checked operations on stores are the operations on matrices indexed by `Fin`, as soon as
the result can be stored at all: the skipped zero factors of a product leave its sum as it is.
-/

namespace DualRail

/-- Scalars that form a commutative ring and whose zero test is exact. -/
class ExactScalar (K : Type) extends CommRing K, Scalar K where
  isZero_iff (x : K) : Scalar.isZero x = true ↔ x = 0

@[reducible] def ExactScalar.ofCommRing (K : Type) [CommRing K] [DecidableEq K] : ExactScalar K :=
  { ‹CommRing K› with
    conj := id
    isZero := fun x => decide (x = 0)
    isZero_iff := by simp }

namespace Storage

theorem limit_eq : limit = 281474976710656 := rfl

theorem reserve_of_le {count size : Nat} (h : count * size ≤ limit) :
    reserve count size = .ok count := by
  have hi : ¬ ((limit : Int) < (count : Int) * size) := by
    rw [← Int.natCast_mul]
    omega
  simp [reserve, hi]

theorem reserve_eq_ok {count : Int} {size n : Nat} (h : reserve count size = .ok n) :
    count = n ∧ n * size ≤ limit := by
  unfold reserve at h
  split at h
  · cases h
  · rename_i hc
    simp only [Bool.or_eq_true, decide_eq_true_eq, not_or, Int.not_lt] at hc
    obtain rfl := Except.ok.inj h
    refine ⟨by omega, ?_⟩
    have : ((count.toNat * size : Nat) : Int) ≤ limit := by
      rw [Int.natCast_mul, Int.toNat_of_nonneg hc.1]
      exact hc.2
    omega

theorem reserve_eq_error {count size : Nat} (h : limit < count * size) :
    reserve count size = .error (.overrun .allocation) := by
  have hi : (limit : Int) < (count : Int) * size := by
    rw [← Int.natCast_mul]
    omega
  simp [reserve, hi]

theorem isOverrun_of_reserve {count : Int} {size : Nat} {f : Failure}
    (h : reserve count size = .error f) : f.IsOverrun := by
  unfold reserve at h
  split at h
  · obtain rfl := Except.error.inj h
    exact Failure.isOverrun_overrun _
  · cases h

theorem isOverrun_of_reserveGrid {rows cols : Int} {size : Nat} {f : Failure}
    (h : reserveGrid rows cols size = .error f) : f.IsOverrun := by
  unfold reserveGrid at h
  split at h
  · obtain rfl := Except.error.inj h
    exact Failure.isOverrun_overrun _
  · exact isOverrun_of_reserve h

theorem reserveGrid_eq_ok {rows cols : Int} {size n : Nat}
    (h : reserveGrid rows cols size = .ok n) :
    (rows ≤ Word.max ∧ cols ≤ Word.max) ∧ Word.wrap (rows * cols) = n ∧ n * size ≤ limit := by
  unfold reserveGrid at h
  split at h
  · cases h
  · rename_i hwords
    simp only [Bool.or_eq_true, decide_eq_true_eq, not_or, Int.not_lt] at hwords
    exact ⟨hwords, reserve_eq_ok h⟩

variable {K : Type} {cells : Array K}

theorem cellAt_of_lt {p : Nat} (h : p < cells.size) : cellAt cells (p : Int) = .ok ⟨p, h⟩ := by
  rw [cellAt, dif_pos ⟨Int.natCast_nonneg p, h⟩]
  rfl

theorem cellAt_outside {p : Int} (h : p < 0 ∨ (cells.size : Int) ≤ p) :
    cellAt cells p = .error (.overrun (.index p cells.size)) := by
  rw [cellAt, dif_neg (by omega)]

end Storage

namespace Dense

variable {K : Type}

/-- A square matrix of size `n` is not empty and fits into storage. -/
def Storable (n : Nat) : Prop := 0 < n ∧ n * n * 16 ≤ Storage.limit

instance (n : Nat) : Decidable (Storable n) := inferInstanceAs (Decidable (_ ∧ _))

/-- A matrix of these sizes is not empty and fits into storage. -/
def Room (rows cols : Nat) : Prop := 0 < rows ∧ 0 < cols ∧ rows * cols * 16 ≤ Storage.limit

instance (rows cols : Nat) : Decidable (Room rows cols) :=
  inferInstanceAs (Decidable (_ ∧ _ ∧ _))

theorem room_self_iff {n : Nat} : Room n n ↔ Storable n :=
  ⟨fun h => h.2, fun h => ⟨h.1, h⟩⟩

theorem Room.symm {rows cols : Nat} (h : Room rows cols) : Room cols rows :=
  ⟨h.2.1, h.1, by rw [Nat.mul_comm cols]; exact h.2.2⟩

theorem Room.inRange {rows cols k : Nat} (h : Room rows cols) (hk : k ≤ rows * cols) :
    Word.InRange (k : Int) := by
  have hs := h.2.2
  rw [Storage.limit_eq] at hs
  unfold Word.InRange Word.min Word.max
  omega

theorem Room.wrap_cell {rows cols k : Nat} (h : Room rows cols) (hk : k ≤ rows * cols) :
    Word.wrap (k : Int) = k := Word.wrap_of_inRange (h.inRange hk)

theorem Storable.wrap {n k : Nat} (h : Storable n) (hk : k ≤ n) : Word.wrap (k : Int) = k :=
  (room_self_iff.mpr h).wrap_cell (hk.trans (Nat.le_mul_of_pos_left n h.1))

theorem Storable.reserve {n : Nat} (h : Storable n) :
    Storage.reserve (Word.wrap ((n : Int) * n)) 16 = .ok (n * n) := by
  rw [← Int.natCast_mul, (room_self_iff.mpr h).wrap_cell le_rfl]
  exact Storage.reserve_of_le h.2

theorem Room.reserveGrid {rows cols : Nat} (h : Room rows cols) :
    Storage.reserveGrid rows cols 16 = .ok (rows * cols) := by
  have hrows := (h.inRange (Nat.le_mul_of_pos_right rows h.2.1)).2
  have hcols := (h.inRange (Nat.le_mul_of_pos_left cols h.1)).2
  rw [Storage.reserveGrid, if_neg, ← Int.natCast_mul, h.wrap_cell le_rfl]
  · exact Storage.reserve_of_le h.2.2
  · simp only [Bool.or_eq_true, decide_eq_true_eq, not_or, Int.not_lt]
    exact ⟨hrows, hcols⟩

theorem Storable.mono {m n : Nat} (h : Storable m) (hn : 0 < n) (hle : n ≤ m) : Storable n :=
  ⟨hn, (Nat.mul_le_mul_right 16 (Nat.mul_le_mul hle hle)).trans h.2⟩

theorem flat_lt {rows cols i j : Nat} (hi : i < rows) (hj : j < cols) :
    i * cols + j < rows * cols := by
  calc i * cols + j < i * cols + cols := by omega
    _ = (i + 1) * cols := by ring
    _ ≤ rows * cols := Nat.mul_le_mul_right _ hi

theorem Room.wrap_flat {rows cols i j : Nat} (h : Room rows cols) (hi : i < rows) (hj : j < cols) :
    Word.wrap ((i : Int) * cols + j) = ((i * cols + j : Nat) : Int) := by
  rw [← Int.natCast_mul, ← Int.natCast_add]
  exact h.wrap_cell (flat_lt hi hj).le

theorem build_congr {rows cols : Nat} {f g : Nat → Nat → K}
    (h : ∀ i j, i < rows → j < cols → f i j = g i j) : build rows cols f = build rows cols g := by
  unfold build
  congr 2
  funext p
  have hc : 0 < cols := Nat.pos_of_ne_zero fun hz => by
    have := p.isLt
    simp [hz] at this
  apply h
  · exact Nat.div_lt_of_lt_mul (lt_of_lt_of_eq p.isLt (Nat.mul_comm _ _))
  · exact Nat.mod_lt _ hc

theorem wellFormed_build {rows cols : Nat} (hr : 0 < rows) (hc : 0 < cols) (f : Nat → Nat → K) :
    (build rows cols f).WellFormed := ⟨hr, hc, Array.size_ofFn⟩

section View

variable [Scalar K]

theorem get_build {rows cols : Nat} {f : Nat → Nat → K} {i j : Nat} (hi : i < rows)
    (hj : j < cols) : (build rows cols f).get i j = f i j := by
  have hlt := flat_lt hi hj
  have hdiv : (i * cols + j) / cols = i := by
    rw [Nat.add_comm, Nat.add_mul_div_right _ _ (by omega), Nat.div_eq_of_lt hj, Nat.zero_add]
  have hmod : (i * cols + j) % cols = j := by
    rw [Nat.add_comm, Nat.add_mul_mod_self_right, Nat.mod_eq_of_lt hj]
  simp [build, get, Array.getD, hlt, hdiv, hmod]

/-- The store of a matrix indexed by `Fin`. -/
def ofMatrix {m n : Nat} (M : Matrix (Fin m) (Fin n) K) : Dense K :=
  build m n fun i j => if h : i < m ∧ j < n then M ⟨i, h.1⟩ ⟨j, h.2⟩ else 0

@[simp] theorem rows_ofMatrix {m n : Nat} (M : Matrix (Fin m) (Fin n) K) :
    (ofMatrix M).rows = m := rfl

@[simp] theorem cols_ofMatrix {m n : Nat} (M : Matrix (Fin m) (Fin n) K) :
    (ofMatrix M).cols = n := rfl

@[simp] theorem get_ofMatrix {m n : Nat} (M : Matrix (Fin m) (Fin n) K) (i : Fin m) (j : Fin n) :
    (ofMatrix M).get i j = M i j := by
  simp [ofMatrix, get_build]

theorem build_eq_ofMatrix {m n : Nat} {f : Nat → Nat → K} {M : Matrix (Fin m) (Fin n) K}
    (h : ∀ i j, f i.val j.val = M i j) : build m n f = ofMatrix M := by
  apply build_congr
  intro i j hi hj
  simpa [hi, hj] using h ⟨i, hi⟩ ⟨j, hj⟩

theorem ofMatrix_injective {m n : Nat} :
    Function.Injective (ofMatrix : Matrix (Fin m) (Fin n) K → Dense K) := by
  intro A B h
  funext i j
  rw [← get_ofMatrix A, ← get_ofMatrix B, h]

theorem zeros_of_room {rows cols : Nat} (h : Room rows cols) :
    zeros (rows : Int) cols = .ok (⟨rows, cols, Array.replicate (rows * cols) 0⟩ : Dense K) := by
  have hpos : ¬ (((rows : Int) ≤ 0 || (cols : Int) ≤ 0) = true) := by
    have hrows := h.1
    have hcols := h.2.1
    simp only [Bool.or_eq_true, decide_eq_true_eq]
    omega
  rw [zeros, if_neg hpos, h.reserveGrid]
  rfl

omit [Scalar K] in
theorem write_of_inside {u : Dense K} {i j : Nat} (hi : i < u.rows) (hj : j < u.cols) (x : K) :
    u.write (i : Int) j x = (Storage.cellAt u.cells (Word.wrap ((i : Int) * u.cols + j))).map
      fun p => { u with cells := u.cells.set p x } := by
  have hinside : u.isInside (i : Int) j = true := by
    simp [isInside, hi, hj]
  rw [write, cellIndex, if_pos hinside]
  cases Storage.cellAt u.cells (Word.wrap ((i : Int) * u.cols + j)) <;> rfl

omit [Scalar K] in
theorem foldlM_write {writes : List (Nat × Nat)} {u : Dense K} (hroom : Room u.rows u.cols)
    (hsize : u.cells.size = u.rows * u.cols)
    (hin : ∀ w ∈ writes, w.1 < u.rows ∧ w.2 < u.cols) (x : K) :
    writes.foldlM (fun u w => u.write w.1 w.2 x) u =
      .ok { u with cells := scatter (writes.map fun w => (w.1 * u.cols + w.2, x)) u.cells } := by
  induction writes generalizing u with
  | nil => rfl
  | cons w rest ih =>
    obtain ⟨⟨hrow, hcol⟩, hrest⟩ := List.forall_mem_cons.mp hin
    have hcell : w.1 * u.cols + w.2 < u.cells.size := by
      rw [hsize]
      exact flat_lt hrow hcol
    rw [List.foldlM_cons, write_of_inside hrow hcol, hroom.wrap_flat hrow hcol,
      Storage.cellAt_of_lt hcell]
    have hset : u.cells.setIfInBounds (w.1 * u.cols + w.2) x =
        u.cells.set (w.1 * u.cols + w.2) x hcell := dif_pos hcell
    refine (ih (u := { u with cells := u.cells.set (w.1 * u.cols + w.2) x hcell }) hroom
      (by simpa using hsize) hrest).trans ?_
    rw [← hset]
    rfl

omit [Scalar K] in
theorem foldlM_write_overrun {writes : List (Nat × Nat)} {u : Dense K} {w : Nat × Nat}
    (hin : ∀ w ∈ writes, w.1 < u.rows ∧ w.2 < u.cols) (hw : w ∈ writes)
    (hout : Word.wrap ((w.1 : Int) * u.cols + w.2) < 0 ∨
      (u.cells.size : Int) ≤ Word.wrap ((w.1 : Int) * u.cols + w.2)) (x : K) :
    ∃ f, writes.foldlM (fun u w => u.write w.1 w.2 x) u = .error f ∧ f.IsOverrun := by
  induction writes generalizing u with
  | nil => cases hw
  | cons first rest ih =>
    obtain ⟨⟨hrow, hcol⟩, hrest⟩ := List.forall_mem_cons.mp hin
    rw [List.foldlM_cons, write_of_inside hrow hcol]
    cases hcell : Storage.cellAt u.cells (Word.wrap ((first.1 : Int) * u.cols + first.2)) with
    | error f =>
      refine ⟨f, rfl, ?_⟩
      unfold Storage.cellAt at hcell
      split at hcell
      · cases hcell
      · obtain rfl := Except.error.inj hcell
        exact Failure.isOverrun_overrun _
    | ok p =>
      have hlater : w ∈ rest := (List.mem_cons.mp hw).resolve_left fun he => by
        subst he
        rw [Storage.cellAt_outside hout] at hcell
        cases hcell
      exact ih (u := { u with cells := u.cells.set p x }) hrest hlater (by simpa using hout)

theorem embedEntry_eq (offset : Nat) (block : Dense K) (i j : Nat) :
    embedEntry offset block i j =
      if (offset ≤ i ∧ i < offset + block.rows) ∧ offset ≤ j ∧ j < offset + block.rows then
        block.get (i - offset) (j - offset)
      else if i = j then 1
      else 0 := by
  simp [embedEntry, and_assoc]

def toMatrix (m n : Nat) (d : Dense K) : Matrix (Fin m) (Fin n) K := fun i j => d.get i j

@[simp] theorem toMatrix_ofMatrix {m n : Nat} (M : Matrix (Fin m) (Fin n) K) :
    (ofMatrix M).toMatrix m n = M := by
  funext i j
  exact get_ofMatrix M i j

theorem storable_of_identity {n : Nat} {d : Dense K} (h : identity (n : Int) = .ok d) :
    Storable n := by
  unfold identity at h
  by_cases hn : (n : Int) ≤ 0
  · rw [if_pos hn] at h
    cases h
  · rw [if_neg hn] at h
    cases hr : Storage.reserve (Word.wrap ((n : Int) * n)) 16 with
    | error f =>
      rw [hr] at h
      cases h
    | ok count =>
      rw [hr] at h
      have hs := (Storage.reserve_eq_ok hr).2
      by_cases hc : count = (n : Int).toNat * (n : Int).toNat
      · rw [hc, Int.toNat_natCast] at hs
        exact ⟨by omega, hs⟩
      · change (if count = (n : Int).toNat * (n : Int).toNat then _ else _) = _ at h
        rw [if_neg hc] at h
        cases h

end View

section Exact

variable [ExactScalar K]

theorem productEntry_eq_sum (a b : Dense K) (i j : Nat) :
    productEntry a b i j = ∑ k ∈ Finset.range a.cols, a.get i k * b.get k j := by
  unfold productEntry
  induction a.cols with
  | zero => simp
  | succ n ih =>
    rw [Nat.fold_succ, ih, Finset.sum_range_succ]
    by_cases h : a.get i n = 0
    · simp [h]
    · have hz : Scalar.isZero (a.get i n) = false :=
        Bool.eq_false_iff.mpr fun e => h ((ExactScalar.isZero_iff _).mp e)
      simp [hz]

/-- The entries of a product are those of the product of matrices, also of rectangular ones. -/
theorem build_productEntry {l m n : Nat} (A : Matrix (Fin l) (Fin m) K)
    (B : Matrix (Fin m) (Fin n) K) :
    build l n (productEntry (ofMatrix A) (ofMatrix B)) = ofMatrix (A * B) := by
  apply build_eq_ofMatrix
  intro i j
  rw [productEntry_eq_sum, cols_ofMatrix, Finset.sum_range, Matrix.mul_apply]
  exact Finset.sum_congr rfl fun k _ => by rw [get_ofMatrix A i k, get_ofMatrix B k j]

theorem mul_ofMatrix {n : Nat} (h : Storable n) (A B : Matrix (Fin n) (Fin n) K) :
    (ofMatrix A).mul (ofMatrix B) = .ok (ofMatrix (A * B)) := by
  simp only [mul, cols_ofMatrix, rows_ofMatrix, ne_eq, not_true_eq_false, if_false, h.reserve]
  exact congrArg Except.ok (build_productEntry A B)

theorem build_one {n : Nat} :
    build n n (fun i j => if i = j then (1 : K) else 0) =
      ofMatrix (1 : Matrix (Fin n) (Fin n) K) := by
  apply build_eq_ofMatrix
  intro i j
  simp [Matrix.one_apply, Fin.ext_iff]

theorem identity_of_storable {n : Nat} (h : Storable n) :
    identity (n : Int) = .ok (ofMatrix (1 : Matrix (Fin n) (Fin n) K)) := by
  have hn : ¬ ((n : Int) ≤ 0) := by have := h.1; omega
  simp only [identity, hn, if_false, h.reserve]
  change (if n * n = (n : Int).toNat * (n : Int).toNat then _ else _) = _
  simp only [Int.toNat_natCast, if_true]
  exact congrArg Except.ok build_one

def embedded (m offset : Nat) (block : Dense K) : Matrix (Fin m) (Fin m) K :=
  fun i j => embedEntry offset block i j

theorem embed_of_storable {m offset : Nat} {block : Dense K} (h : Storable m)
    (hsq : block.rows = block.cols) (hfit : offset + block.rows ≤ m) :
    embed (m : Int) offset block = .ok (ofMatrix (embedded m offset block)) := by
  have hw : ¬ ((m : Int) < Word.wrap ((offset : Int) + block.rows)) := by
    rw [← Int.natCast_add, h.wrap hfit]
    omega
  have hin : (offset : Int) + block.rows ≤ m := by omega
  have hb : build m m (embedEntry offset block) = ofMatrix (embedded m offset block) :=
    build_eq_ofMatrix fun _ _ => rfl
  simp only [embed, hsq, ne_eq, not_true_eq_false, if_false, identity_of_storable h]
  rw [hsq] at hw hin
  simp only [hw, Int.natCast_nonneg, Int.not_lt.mpr, decide_false, Bool.or_self,
    Bool.false_eq_true, if_false, noting, Except.mapError, bind, Except.bind, hin, if_true]
  exact congrArg Except.ok hb

theorem embed_eq_ok {m offset : Nat} {block d : Dense K}
    (h : embed (m : Int) offset block = .ok d) :
    block.rows = block.cols ∧ offset + block.rows ≤ m ∧ Storable m := by
  unfold embed at h
  by_cases hsq : block.rows = block.cols
  · rw [if_neg (not_not.mpr hsq)] at h
    split at h
    · cases h
    · cases hid : identity (K := K) (m : Int) with
      | error f =>
        rw [hid] at h
        cases h
      | ok e =>
        rw [hid] at h
        change (if (offset : Int) + block.rows ≤ m then _ else _) = _ at h
        by_cases hfit : (offset : Int) + block.rows ≤ m
        · exact ⟨hsq, by omega, storable_of_identity hid⟩
        · rw [if_neg hfit] at h
          cases h
  · rw [if_pos hsq] at h
    cases h

end Exact

end Dense

end DualRail
