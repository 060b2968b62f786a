import Mathlib
import DualRail.Matrix.Flat
import DualRail.Proofs.ExactMatrix

/-!
Loops over flat stores. A store shows a matrix if the cell of every position holds its entry; a
checked access at a position inside the sizes then succeeds and sees or changes that entry alone.
Each loop is read through what it has shown after some of its steps, and at the end of the loop the
store is that of the matrix which the entries describe.
-/

namespace DualRail

variable {K : Type}

section Loops

variable {σ : Type} {step : Nat → σ → Except Failure σ} {first count : Nat} {s : σ}

theorem loopFrom_add (m n : Nat) :
    loopFrom step first (m + n) s =
      loopFrom step first m s >>= fun t => loopFrom step (first + m) n t := by
  induction m generalizing first s with
  | zero => rw [Nat.zero_add, Nat.add_zero]; rfl
  | succ m ih =>
    rw [Nat.succ_add, loopFrom, loopFrom]
    cases step first s with
    | error f => rfl
    | ok t =>
      rw [ok_bind, ok_bind, ih, Nat.succ_add_eq_add_succ]

theorem loopFrom_invariant {I : Nat → σ → Prop} (hstart : I first s)
    (hstep : ∀ i s, first ≤ i → i < first + count → I i s →
      ∃ t, step i s = .ok t ∧ I (i + 1) t) :
    ∃ t, loopFrom step first count s = .ok t ∧ I (first + count) t := by
  induction count generalizing first s with
  | zero => exact ⟨s, rfl, hstart⟩
  | succ count ih =>
    obtain ⟨t, ht, hI⟩ := hstep first s le_rfl (by omega) hstart
    obtain ⟨u, hu, hend⟩ := ih hI fun i s hi hi' => hstep i s (by omega) (by omega)
    refine ⟨u, ?_, ?_⟩
    · rw [loopFrom, ht, ok_bind, hu]
    · rwa [show first + (count + 1) = first + 1 + count by omega]

/-- What holds before the first step and is handed on by every step holds at the end. -/
theorem loop_invariant (step : Nat → σ → Except Failure σ) (count : Nat) (I : Nat → σ → Prop)
    (hstart : I 0 s)
    (hstep : ∀ i s, i < count → I i s → ∃ t, step i s = .ok t ∧ I (i + 1) t) :
    ∃ t, loop count step s = .ok t ∧ I count t := by
  obtain ⟨t, ht, hI⟩ : ∃ t, loopFrom step 0 count s = .ok t ∧ I (0 + count) t :=
    loopFrom_invariant hstart fun i s _ hi => hstep i s (by omega)
  exact ⟨t, ht, by rwa [Nat.zero_add] at hI⟩

/-- A loop that stays in order up to its step `n` ends with the failure of that step. -/
theorem loop_fails (I : Nat → σ → Prop) {n : Nat} {f : Failure} (hn : n < count) (hstart : I 0 s)
    (hstep : ∀ i s, i < n → I i s → ∃ t, step i s = .ok t ∧ I (i + 1) t)
    (hfail : ∀ s, I n s → step n s = .error f) : loop count step s = .error f := by
  obtain ⟨t, ht, hI⟩ := loop_invariant step n I hstart hstep
  obtain ⟨rest, rfl⟩ : ∃ rest, count = n + (rest + 1) := ⟨count - n - 1, by omega⟩
  rw [loop, loopFrom_add]
  rw [loop] at ht
  rw [ht, ok_bind, Nat.zero_add, loopFrom, hfail t hI]
  rfl

theorem loop_preserves {P : σ → Prop} {t : σ} (h : loop count step s = .ok t)
    (hstep : ∀ i s t, step i s = .ok t → P s → P t) (hs : P s) : P t := by
  have hfrom : ∀ first count s, loopFrom step first count s = .ok t → P s → P t := by
    intro first count
    induction count generalizing first with
    | zero =>
      intro s h hs
      rwa [← Except.ok.inj (show (Except.ok s : Except Failure σ) = .ok t from h)]
    | succ count ih =>
      intro s h hs
      rw [loopFrom] at h
      obtain ⟨u, hu, h⟩ := bind_eq_ok h
      exact ih _ u h (hstep _ _ _ hu hs)
  exact hfrom 0 count s h hs

end Loops

namespace Storage

variable {cells : Array K} {p : Nat}

theorem fetch_of_lt (h : p < cells.size) : fetch cells (p : Int) = .ok (cells[p]) := by
  rw [fetch, cellAt_of_lt h]
  rfl

theorem put_of_lt (h : p < cells.size) (v : K) :
    put cells (p : Int) v = .ok (cells.set p v) := by
  rw [put, cellAt_of_lt h]
  rfl

theorem put_outside {q : Int} (h : q < 0 ∨ (cells.size : Int) ≤ q) (v : K) :
    put cells q v = .error (.overrun (.index q cells.size)) := by
  rw [put, cellAt_outside h]
  rfl

theorem size_of_put {q : Int} {v : K} {cells' : Array K} (h : put cells q v = .ok cells') :
    cells'.size = cells.size := by
  obtain ⟨c, _, h⟩ := bind_eq_ok h
  rw [← Except.ok.inj (show (Except.ok _ : Except Failure (Array K)) = .ok cells' from h)]
  exact Array.size_set _

theorem checkSlice_of_le {low high : Int} (hlow : 0 ≤ low) (hle : low ≤ high)
    (hhigh : high ≤ cells.size) : checkSlice cells low high = .ok () := by
  rw [checkSlice, if_pos (by simp [hlow, hle, hhigh])]

theorem copySlice_of_le {target source : Array K} {low start length : Nat}
    (hlow : low + length ≤ target.size) (hstart : start + length ≤ source.size) :
    ∃ cells, copySlice target low (low + length : Nat) source start (start + length : Nat) =
        .ok cells ∧
      cells.size = target.size ∧
      ∀ q, cells[q]? = if low ≤ q ∧ q < low + length then source[start + (q - low)]?
        else target[q]? := by
  have hcount : (min (((low + length : Nat) : Int) - low)
      (((start + length : Nat) : Int) - start)).toNat = length := by omega
  rw [copySlice, checkSlice_of_le (by omega) (by omega) (by omega), ok_bind,
    checkSlice_of_le (by omega) (by omega) (by omega), ok_bind, hcount]
  -- after `j` steps the first `j` cells of the slice are copied
  refine loop_invariant _ length (fun j (cells : Array K) => cells.size = target.size ∧
    ∀ q, cells[q]? = if low ≤ q ∧ q < low + j then source[start + (q - low)]? else target[q]?)
    ⟨rfl, fun q => ?_⟩ fun j cells hj ⟨hsize, hcells⟩ => ?_
  · rw [if_neg (by omega)]
  · have hread : start + j < source.size := by omega
    have hwrite : low + j < cells.size := by omega
    refine ⟨cells.set (low + j) source[start + j], ?_, ?_, fun q => ?_⟩
    · rw [← Int.natCast_add, ← Int.natCast_add, fetch_of_lt hread, ok_bind, put_of_lt hwrite]
    · rw [Array.size_set, hsize]
    · rw [Array.getElem?_set]
      by_cases hq : low + j = q
      · subst hq
        rw [if_pos rfl, if_pos (by omega), Nat.add_sub_cancel_left,
          Array.getElem?_eq_getElem hread]
      · rw [if_neg hq, hcells]
        by_cases hin : low ≤ q ∧ q < low + j
        · rw [if_pos hin, if_pos (by omega)]
        · rw [if_neg hin, if_neg (by omega)]

end Storage

namespace Dense

/-- The store holds `f i j` in the cell of every position `(i, j)` inside the sizes. -/
structure Shows (rows cols : Nat) (f : Nat → Nat → K) (cells : Array K) : Prop where
  size : cells.size = rows * cols
  entry : ∀ i j, i < rows → j < cols → cells[i * cols + j]? = some (f i j)

/-- There is room for the sizes, and the store has exactly one cell for every position. -/
structure Stored (m : Dense K) : Prop where
  room : Room m.rows m.cols
  size : m.cells.size = m.rows * m.cols

theorem flat_injective {cols i j p q : Nat} (hj : j < cols) (hq : q < cols)
    (h : i * cols + j = p * cols + q) : i = p ∧ j = q := by
  have hcols : 0 < cols := by omega
  have hrow : ∀ a b, b < cols → (a * cols + b) / cols = a := by
    intro a b hb
    rw [Nat.mul_comm, Nat.mul_add_div hcols, Nat.div_eq_of_lt hb, Nat.add_zero]
  have hip : i = p := by rw [← hrow i j hj, h, hrow p q hq]
  subst hip
  exact ⟨rfl, by omega⟩

section Shown

variable {rows cols : Nat} {f g : Nat → Nat → K} {cells : Array K}

theorem Shows.congr (h : Shows rows cols f cells)
    (hfg : ∀ i j, i < rows → j < cols → f i j = g i j) : Shows rows cols g cells :=
  ⟨h.size, fun i j hi hj => by rw [h.entry i j hi hj, hfg i j hi hj]⟩

theorem shows_replicate (rows cols : Nat) (v : K) :
    Shows rows cols (fun _ _ => v) (Array.replicate (rows * cols) v) := by
  refine ⟨Array.size_replicate, fun i j hi hj => ?_⟩
  rw [Array.getElem?_replicate, if_pos (flat_lt hi hj)]

theorem Shows.eq_build (h : Shows rows cols f cells) :
    (⟨rows, cols, cells⟩ : Dense K) = build rows cols f := by
  refine congrArg (Dense.mk rows cols) (Array.ext ?_ fun q hq hq' => ?_)
  · rw [h.size, Array.size_ofFn]
  · have hlt : q < rows * cols := by rwa [h.size] at hq
    have hcols : 0 < cols := Nat.pos_of_ne_zero fun hz => by simp [hz] at hlt
    have hrow : q / cols < rows := Nat.div_lt_of_lt_mul (by rwa [Nat.mul_comm])
    have hentry := h.entry (q / cols) (q % cols) hrow (Nat.mod_lt q hcols)
    rw [Nat.div_add_mod', Array.getElem?_eq_getElem hq] at hentry
    rw [Option.some.inj hentry, Array.getElem_ofFn]

theorem stored_build (h : Room rows cols) (f : Nat → Nat → K) : (build rows cols f).Stored :=
  ⟨h, Array.size_ofFn⟩

theorem Stored.shows [Scalar K] {m : Dense K} (h : m.Stored) :
    Shows m.rows m.cols m.get m.cells := by
  refine ⟨h.size, fun i j hi hj => ?_⟩
  have hlt : i * m.cols + j < m.cells.size := by
    rw [h.size]
    exact flat_lt hi hj
  rw [get, Array.getElem?_eq_getElem hlt, Array.getD_eq_getD_getElem?,
    Array.getElem?_eq_getElem hlt]
  rfl

theorem Stored.eq_build [Scalar K] {m : Dense K} (h : m.Stored) :
    m = build m.rows m.cols m.get := h.shows.eq_build

theorem Stored.storable {m : Dense K} (h : m.Stored) (hsq : m.rows = m.cols) : Storable m.rows := by
  have hroom := h.room
  rw [← hsq] at hroom
  exact room_self_iff.mp hroom

theorem zeros_shows [Scalar K] (h : Room rows cols) :
    ∃ cells, zeros (rows : Int) cols = .ok (⟨rows, cols, cells⟩ : Dense K) ∧
      Shows rows cols (fun _ _ => 0) cells :=
  ⟨_, zeros_of_room h, shows_replicate rows cols 0⟩

end Shown

namespace Flat

open Storage

variable {rows cols i j : Nat} {f : Nat → Nat → K} {cells : Array K}

theorem position_eq (h : Room rows cols) (hi : i < rows) (hj : j < cols) :
    position cols i j = ((i * cols + j : Nat) : Int) := h.wrap_flat hi hj

theorem fetch_of_shows (hroom : Room rows cols) (h : Shows rows cols f cells) (hi : i < rows)
    (hj : j < cols) : fetch cells (position cols i j) = .ok (f i j) := by
  have hlt : i * cols + j < cells.size := by
    rw [h.size]
    exact flat_lt hi hj
  have hentry := h.entry i j hi hj
  rw [Array.getElem?_eq_getElem hlt] at hentry
  rw [position_eq hroom hi hj, fetch_of_lt hlt, Option.some.inj hentry]

theorem put_of_shows (hroom : Room rows cols) (h : Shows rows cols f cells) (hi : i < rows)
    (hj : j < cols) (v : K) :
    ∃ cells', put cells (position cols i j) v = .ok cells' ∧
      Shows rows cols (fun p q => if p = i ∧ q = j then v else f p q) cells' := by
  have hlt : i * cols + j < cells.size := by
    rw [h.size]
    exact flat_lt hi hj
  refine ⟨cells.set (i * cols + j) v, ?_, ?_, fun p q hp hq => ?_⟩
  · rw [position_eq hroom hi hj, put_of_lt hlt]
  · rw [Array.size_set, h.size]
  · rw [Array.getElem?_set]
    by_cases hcell : i * cols + j = p * cols + q
    · obtain ⟨rfl, rfl⟩ := flat_injective hj hq hcell
      rw [if_pos rfl, if_pos ⟨rfl, rfl⟩]
    · rw [if_neg hcell, h.entry p q hp hq, if_neg]
      rintro ⟨rfl, rfl⟩
      exact hcell rfl

theorem ite_extend {cell done next : Prop} [Decidable cell] [Decidable done] [Decidable next]
    {v new old : K} (hv : cell → v = new) (hnext : next ↔ cell ∨ done) :
    (if cell then v else if done then new else old) = if next then new else old := by
  by_cases hcell : cell
  · rw [if_pos hcell, if_pos (hnext.mpr (.inl hcell)), hv hcell]
  · rw [if_neg hcell]
    by_cases hdone : done
    · rw [if_pos hdone, if_pos (hnext.mpr (.inr hdone))]
    · rw [if_neg hdone, if_neg fun h => (hnext.mp h).elim hcell hdone]

section Product

variable [Scalar K] {a b : Dense K}

/-- The entry of a product after the first `n` terms. -/
def partialEntry (a b : Dense K) (i j n : Nat) : K :=
  Nat.fold n (fun k _ sum =>
    let x := a.get i k
    if Scalar.isZero x then sum else sum + x * b.get k j) 0

theorem partialEntry_succ (a b : Dense K) (i j n : Nat) :
    partialEntry a b i j (n + 1) =
      if Scalar.isZero (a.get i n) then partialEntry a b i j n
      else partialEntry a b i j n + a.get i n * b.get n j := Nat.fold_succ ..

theorem addEntry_of_shows (hb : b.Stored) (hroom : Room rows b.cols)
    (h : Shows rows b.cols f cells) {k : Nat} (hi : i < rows) (hj : j < b.cols) (hk : k < b.rows)
    (x : K) :
    ∃ cells', addEntry b i k x j cells = .ok cells' ∧ Shows rows b.cols
      (fun p q => if p = i ∧ q = j then f i j + x * b.get k j else f p q) cells' := by
  rw [addEntry, fetch_of_shows hroom h hi hj, ok_bind, fetch_of_shows hb.room hb.shows hk hj,
    ok_bind]
  exact put_of_shows hroom h hi hj _

theorem addRow_of_shows (hb : b.Stored) (hroom : Room rows b.cols)
    (h : Shows rows b.cols f cells) {k : Nat} (hi : i < rows) (hk : k < b.rows) (x : K) :
    ∃ cells', loop b.cols (addEntry b i k x) cells = .ok cells' ∧
      Shows rows b.cols (fun p q => if p = i then f p q + x * b.get k q else f p q) cells' := by
  have hrun := loop_invariant (addEntry b i k x) b.cols
    (fun j => Shows rows b.cols fun p q =>
      if p = i ∧ q < j then f p q + x * b.get k q else f p q)
    (h.congr fun p q _ _ => (if_neg (by omega)).symm) ?_
  · obtain ⟨cells', hloop, hshown⟩ := hrun
    refine ⟨cells', hloop, hshown.congr fun p q _ hq => ?_⟩
    by_cases hp : p = i
    · rw [if_pos ⟨hp, hq⟩, if_pos hp]
    · rw [if_neg (fun hpq => hp hpq.1), if_neg hp]
  · intro j cells hj hshown
    obtain ⟨cells', hstep, hnext⟩ := addEntry_of_shows hb hroom hshown hi hj hk x
    refine ⟨cells', hstep, hnext.congr fun p q _ _ => ite_extend ?_ (by omega)⟩
    rintro ⟨rfl, rfl⟩
    rw [if_neg (by omega)]

theorem addTerms_of_shows (ha : a.Stored) (hb : b.Stored) (hinner : a.cols = b.rows)
    (hroom : Room a.rows b.cols) {k : Nat} (hi : i < a.rows) (hk : k < a.cols)
    (h : Shows a.rows b.cols (fun p q => if p = i then partialEntry a b i q k else f p q) cells) :
    ∃ cells', addTerms a b i k cells = .ok cells' ∧ Shows a.rows b.cols
      (fun p q => if p = i then partialEntry a b i q (k + 1) else f p q) cells' := by
  rw [addTerms, fetch_of_shows ha.room ha.shows hi hk, ok_bind]
  by_cases hzero : Scalar.isZero (a.get i k) = true
  · rw [if_pos hzero]
    refine ⟨cells, rfl, h.congr fun p q _ _ => ?_⟩
    rw [partialEntry_succ, if_pos hzero]
  · rw [if_neg hzero]
    obtain ⟨cells', hrow, hnext⟩ := addRow_of_shows hb hroom h hi (hinner ▸ hk) (a.get i k)
    refine ⟨cells', hrow, hnext.congr fun p q _ _ => ?_⟩
    rw [partialEntry_succ, if_neg hzero]
    by_cases hp : p = i
    · rw [if_pos hp, if_pos hp, if_pos hp]
    · rw [if_neg hp, if_neg hp, if_neg hp]

theorem mulRow_of_shows (ha : a.Stored) (hb : b.Stored) (hinner : a.cols = b.rows)
    (hroom : Room a.rows b.cols) (h : Shows a.rows b.cols f cells) (hi : i < a.rows)
    (hblank : ∀ q, q < b.cols → f i q = 0) :
    ∃ cells', mulRow a b i cells = .ok cells' ∧
      Shows a.rows b.cols (fun p q => if p = i then productEntry a b p q else f p q) cells' := by
  have hrun := loop_invariant (addTerms a b i) a.cols
    (fun k => Shows a.rows b.cols fun p q => if p = i then partialEntry a b i q k else f p q)
    (h.congr fun p q _ hq => ?_)
    fun k cells hk hshown => addTerms_of_shows ha hb hinner hroom hi hk hshown
  · obtain ⟨cells', hloop, hshown⟩ := hrun
    refine ⟨cells', hloop, hshown.congr fun p q _ _ => ?_⟩
    by_cases hp : p = i
    · rw [if_pos hp, if_pos hp, hp]
      rfl
    · rw [if_neg hp, if_neg hp]
  · by_cases hp : p = i
    · rw [if_pos hp, hp, hblank q hq]
      rfl
    · rw [if_neg hp]

/-- The loops of a product compute its entries: after `i` steps the first `i` rows are finished and
the others still blank. -/
theorem mul_of_stored (ha : a.Stored) (hb : b.Stored) (hinner : a.cols = b.rows)
    (hroom : Room a.rows b.cols) :
    mul a b = .ok (build a.rows b.cols (productEntry a b)) := by
  obtain ⟨blank, hzeros, hblank⟩ := zeros_shows (K := K) hroom
  have hrun := loop_invariant (mulRow a b) a.rows
    (fun i => Shows a.rows b.cols fun p q => if p < i then productEntry a b p q else 0)
    (hblank.congr fun p q _ _ => (if_neg (by omega)).symm) ?_
  · obtain ⟨cells, hloop, hshown⟩ := hrun
    have hend := (hshown.congr fun p q hp _ => if_pos hp).eq_build
    rw [mul, if_neg (not_not.mpr hinner), hzeros, ok_bind, hloop, ok_bind, ← hend]
    rfl
  · intro i cells hi hshown
    obtain ⟨cells', hrow, hnext⟩ := mulRow_of_shows ha hb hinner hroom hshown hi
      fun q _ => if_neg (by omega)
    exact ⟨cells', hrow, hnext.congr fun p q _ _ => ite_extend (fun _ => rfl) (by omega)⟩

end Product

section Adjoint

variable [Scalar K] {m : Dense K}

theorem putConj_of_shows (hm : m.Stored) (h : Shows m.cols m.rows f cells) (hi : i < m.rows)
    (hj : j < m.cols) :
    ∃ cells', putConj m i j cells = .ok cells' ∧ Shows m.cols m.rows
      (fun p q => if p = j ∧ q = i then Scalar.conj (m.get i j) else f p q) cells' := by
  rw [putConj, fetch_of_shows hm.room hm.shows hi hj, ok_bind]
  exact put_of_shows hm.room.symm h hj hi _

theorem putColumn_of_shows (hm : m.Stored) (h : Shows m.cols m.rows f cells) (hi : i < m.rows) :
    ∃ cells', loop m.cols (putConj m i) cells = .ok cells' ∧ Shows m.cols m.rows
      (fun p q => if q = i then Scalar.conj (m.get q p) else f p q) cells' := by
  have hrun := loop_invariant (putConj m i) m.cols
    (fun j => Shows m.cols m.rows fun p q =>
      if q = i ∧ p < j then Scalar.conj (m.get q p) else f p q)
    (h.congr fun p q _ _ => (if_neg (by omega)).symm) ?_
  · obtain ⟨cells', hloop, hshown⟩ := hrun
    refine ⟨cells', hloop, hshown.congr fun p q hp _ => ?_⟩
    by_cases hq : q = i
    · rw [if_pos ⟨hq, hp⟩, if_pos hq]
    · rw [if_neg (fun hpq => hq hpq.1), if_neg hq]
  · intro j cells hj hshown
    obtain ⟨cells', hstep, hnext⟩ := putConj_of_shows hm hshown hi hj
    refine ⟨cells', hstep, hnext.congr fun p q _ _ => ite_extend ?_ (by omega)⟩
    rintro ⟨rfl, rfl⟩
    rfl

theorem adjoint_of_stored (hm : m.Stored) : adjoint m = .ok m.adjoint := by
  obtain ⟨blank, hzeros, hblank⟩ := zeros_shows (K := K) hm.room.symm
  have hrun := loop_invariant (fun i => loop m.cols (putConj m i)) m.rows
    (fun i => Shows m.cols m.rows fun p q => if q < i then Scalar.conj (m.get q p) else 0)
    (hblank.congr fun p q _ _ => (if_neg (by omega)).symm) ?_
  · obtain ⟨cells, hloop, hshown⟩ := hrun
    have hend := (hshown.congr fun p q _ hq => if_pos hq).eq_build
    rw [adjoint, hzeros, ok_bind, hloop, ok_bind, Dense.adjoint, ← hend]
    rfl
  · intro i cells hi hshown
    obtain ⟨cells', hcolumn, hnext⟩ := putColumn_of_shows hm hshown hi
    exact ⟨cells', hcolumn, hnext.congr fun p q _ _ => ite_extend (fun _ => rfl) (by omega)⟩

end Adjoint

section Identity

variable [Scalar K]

theorem identity_of_storable {n : Nat} (h : Storable n) :
    identity (n : Int) = .ok (build n n fun i j => if i = j then (1 : K) else 0) := by
  have hroom := room_self_iff.mpr h
  obtain ⟨blank, hzeros, hblank⟩ := zeros_shows (K := K) hroom
  have hrun := loop_invariant (putOne n) n
    (fun i => Shows n n fun p q => if p = q ∧ p < i then (1 : K) else 0)
    (hblank.congr fun p q _ _ => (if_neg (by omega)).symm) ?_
  · obtain ⟨cells, hloop, hshown⟩ := hrun
    have hend := (hshown.congr (g := fun p q => if p = q then (1 : K) else 0)
      fun p q hp _ => by simp only [hp, and_true]).eq_build
    rw [identity, hzeros, ok_bind, Int.toNat_natCast, hloop, ok_bind, ← hend]
    rfl
  · intro i cells hi hshown
    obtain ⟨cells', hput, hnext⟩ := put_of_shows hroom hshown hi hi 1
    exact ⟨cells', hput, hnext.congr fun p q _ _ => ite_extend (fun _ => rfl) (by omega)⟩

theorem putOnes_of_short {n count : Nat} (hn : (n : Int) ≤ Word.max) (hshort : count < n * n)
    (hcount : count * 16 ≤ Storage.limit) :
    loop n (putOne n) (Array.replicate count (0 : K)) =
      .error (.overrun (.index (Word.wrap (((count + n) / (n + 1) : Nat) * (n + 1))) count)) := by
  rw [Storage.limit_eq] at hcount
  unfold Word.max at hn
  have hceil := Nat.div_add_mod (count + n) (n + 1)
  have hmod := Nat.mod_lt (count + n) (show n + 1 > 0 by omega)
  generalize (count + n) / (n + 1) = last at hceil
  rw [Nat.mul_comm] at hceil
  have hlast : last < n := by
    by_contra hle
    have := Nat.mul_le_mul_right (n + 1) (Nat.le_of_not_lt hle)
    have hsq : n * (n + 1) = n * n + n := by ring
    omega
  refine loop_fails (fun _ cells => cells.size = count) hlast Array.size_replicate ?_ ?_
  · intro i cells hi hsize
    have hstep : (i + 1) * (n + 1) ≤ last * (n + 1) := Nat.mul_le_mul_right _ hi
    have hflat : i * n + i = i * (n + 1) := by ring
    have hnext : (i + 1) * (n + 1) = i * (n + 1) + (n + 1) := by ring
    have hlt : i * n + i < cells.size := by omega
    refine ⟨cells.set (i * n + i) 1, ?_, by rw [Array.size_set, hsize]⟩
    rw [putOne, position, ← Int.natCast_mul, ← Int.natCast_add, Word.wrap_of_inRange,
      put_of_lt hlt]
    unfold Word.InRange Word.min Word.max
    omega
  · intro cells hsize
    have hflat : (last : Int) * n + last = ((last * (n + 1) : Nat) : Int) := by push_cast; ring
    rw [putOne, position, hflat, put_outside, hsize]
    · push_cast
      rfl
    · rw [hsize]
      by_cases hword : ((last * (n + 1) : Nat) : Int) ≤ Word.max
      · rw [Word.wrap_of_inRange ⟨by unfold Word.min; omega, hword⟩]
        omega
      · left
        refine Word.wrap_neg (by omega) ?_
        unfold Word.max
        omega

/-- The loop and the closed form agree for every word, also where storage is overrun. -/
theorem identity_eq {n : Int} (hn : n ≤ Word.max) :
    (identity n : Except Failure (Dense K)) = Dense.identity n := by
  by_cases hpos : n ≤ 0
  · rw [identity, zeros, if_pos (by simp [hpos]), Dense.identity, if_pos hpos]
    rfl
  · obtain ⟨n, rfl⟩ := Int.eq_ofNat_of_zero_le (a := n) (by omega)
    by_cases hs : Storable n
    · have hsize : (n : Int).toNat = n := Int.toNat_natCast n
      rw [identity_of_storable hs, Dense.identity, if_neg hpos, hs.reserve, ok_bind]
      simp only [hsize, if_true]
      rfl
    · have hgrid : Storage.reserveGrid (n : Int) n 16 =
          Storage.reserve (Word.wrap ((n : Int) * n)) 16 := by
        rw [Storage.reserveGrid, if_neg]
        simp only [Bool.or_self, decide_eq_true_eq, Int.not_lt]
        exact hn
      rw [identity, zeros, if_neg (by simpa using hpos), Dense.identity, if_neg hpos, hgrid]
      cases hr : Storage.reserve (Word.wrap ((n : Int) * n)) 16 with
      | error f => rfl
      | ok count =>
        obtain ⟨hwrap, hcount⟩ := Storage.reserve_eq_ok hr
        have hne : count ≠ n * n := fun he => hs ⟨by omega, by rwa [← he]⟩
        have hshort : count < n * n := by
          have hle := Word.wrap_le (Int.mul_nonneg (Int.natCast_nonneg n) (Int.natCast_nonneg n))
          rw [hwrap, ← Int.natCast_mul] at hle
          omega
        have hloop := putOnes_of_short (K := K) hn hshort hcount
        simp only [ok_bind, Int.toNat_natCast, pure, Except.pure]
        rw [hloop, error_bind, if_neg hne]

end Identity

section Rows

variable {total want index : Nat} {row : List K} {rest : List (List K)}

theorem copyRow_of_length (hroom : Room total want) (hsize : cells.size = total * want)
    (hindex : index < total) (hrow : row.length = want) :
    ∃ cells', copySlice cells (position want index 0) (position want (index + 1) 0) row.toArray 0
        row.length = .ok cells' ∧
      cells'.size = cells.size ∧
      ∀ q, cells'[q]? = if index * want ≤ q ∧ q < index * want + want then row[q - index * want]?
        else cells[q]? := by
  have hend : index * want + want ≤ total * want := by
    rw [← Nat.succ_mul]
    exact Nat.mul_le_mul_right want hindex
  have hlow : position want index 0 = ((index * want : Nat) : Int) := by
    rw [position, ← Int.natCast_mul, ← Int.natCast_add, Nat.add_zero]
    exact hroom.wrap_cell ((Nat.le_add_right _ _).trans hend)
  have hhigh : position want (index + 1) 0 = ((index * want + want : Nat) : Int) := by
    rw [position, ← Int.natCast_mul, ← Int.natCast_add, Nat.add_zero, Nat.succ_mul]
    exact hroom.wrap_cell hend
  have hsource : 0 + want ≤ row.toArray.size := by
    rw [List.size_toArray, hrow, Nat.zero_add]
  obtain ⟨cells', hcopy, hsize', hcells⟩ := copySlice_of_le (hend.trans_eq hsize.symm) hsource
  refine ⟨cells', ?_, hsize', fun q => ?_⟩
  · rw [hlow, hhigh, hrow]
    rw [Nat.zero_add] at hcopy
    exact hcopy
  · rw [hcells, Nat.zero_add, List.getElem?_toArray]

theorem fillRows_of_even (hroom : Room total want) (hsize : cells.size = total * want)
    (hindex : index + rest.length = total) (heven : raggedRow? want index rest = none) :
    ∃ cells', fillRows want index rest cells = .ok cells' ∧ cells'.size = cells.size ∧
      ∀ q, q < total * want → cells'[q]? =
        if q < index * want then cells[q]? else rest.flatten[q - index * want]? := by
  induction rest generalizing index cells with
  | nil =>
    refine ⟨cells, rfl, rfl, fun q hq => ?_⟩
    rw [List.length_nil, Nat.add_zero] at hindex
    rw [hindex, if_pos hq]
  | cons row rest ih =>
    rw [List.length_cons] at hindex
    rw [raggedRow?] at heven
    by_cases hrow : row.length = want
    · rw [if_pos hrow] at heven
      obtain ⟨cells₁, hcopy, hsize₁, hcells₁⟩ :=
        copyRow_of_length hroom hsize (by omega : index < total) hrow
      obtain ⟨cells₂, hfill, hsize₂, hcells₂⟩ :=
        ih (hsize₁.trans hsize) (by omega : index + 1 + rest.length = total) heven
      refine ⟨cells₂, ?_, hsize₂.trans hsize₁, fun q hq => ?_⟩
      · rw [fillRows, if_neg (not_not.mpr hrow), hcopy, ok_bind, hfill]
      · rw [hcells₂ q hq, hcells₁, Nat.succ_mul, List.flatten_cons]
        by_cases hbefore : q < index * want
        · rw [if_pos (by omega), if_neg (by omega), if_pos hbefore]
        · rw [if_neg hbefore]
          by_cases hin : q < index * want + want
          · rw [if_pos hin, if_pos (by omega), List.getElem?_append_left (by omega)]
          · rw [if_neg hin, List.getElem?_append_right (by omega), hrow, Nat.sub_add_eq]
    · rw [if_neg hrow] at heven
      cases heven

theorem fillRows_of_ragged (hroom : Room total want) (hsize : cells.size = total * want)
    (hindex : index + rest.length = total) {i length : Nat}
    (hragged : raggedRow? want index rest = some (i, length)) :
    fillRows want index rest cells = refuse .dimensionMismatch [.row i length want] := by
  induction rest generalizing index cells with
  | nil => cases hragged
  | cons row rest ih =>
    rw [List.length_cons] at hindex
    rw [raggedRow?] at hragged
    by_cases hrow : row.length = want
    · rw [if_pos hrow] at hragged
      obtain ⟨cells₁, hcopy, hsize₁, _⟩ :=
        copyRow_of_length hroom hsize (by omega : index < total) hrow
      rw [fillRows, if_neg (not_not.mpr hrow), hcopy, ok_bind]
      exact ih (hsize₁.trans hsize) (by omega) hragged
    · rw [if_neg hrow] at hragged
      obtain ⟨rfl, rfl⟩ := Prod.mk.inj (Option.some.inj hragged)
      rw [fillRows, if_pos hrow]

theorem length_flatten_of_even (heven : raggedRow? want index rest = none) :
    rest.flatten.length = rest.length * want := by
  induction rest generalizing index with
  | nil => simp
  | cons row rest ih =>
    rw [raggedRow?] at heven
    by_cases hrow : row.length = want
    · rw [if_pos hrow] at heven
      rw [List.flatten_cons, List.length_append, ih heven, hrow, List.length_cons, Nat.succ_mul,
        Nat.add_comm]
    · rw [if_neg hrow] at heven
      cases heven

theorem ofRows_of_room [Scalar K] (hroom : Room (row :: rest).length row.length) :
    ofRows (row :: rest) = Dense.ofRows (row :: rest) := by
  rw [ofRows, Dense.ofRows]
  by_cases hempty : row.isEmpty = true
  · rw [if_pos hempty, if_pos hempty]
  · obtain ⟨blank, hzeros, hblank⟩ := zeros_shows (K := K) hroom
    rw [if_neg hempty, if_neg hempty, hzeros, ok_bind]
    cases hcheck : raggedRow? row.length 0 (row :: rest) with
    | some found =>
      rw [fillRows_of_ragged hroom hblank.size (Nat.zero_add _) hcheck]
      rfl
    | none =>
      obtain ⟨cells, hfill, hsize, hcells⟩ :=
        fillRows_of_even hroom hblank.size (Nat.zero_add _) hcheck
      have hflat : cells = (row :: rest).flatten.toArray := by
        refine Array.ext_getElem? fun q => ?_
        by_cases hq : q < (row :: rest).length * row.length
        · rw [hcells q hq, Nat.zero_mul, if_neg q.not_lt_zero, Nat.sub_zero,
            List.getElem?_toArray]
        · have hcells' : cells.size ≤ q := by
            rw [hsize, hblank.size]
            exact Nat.le_of_not_lt hq
          have hrows : (row :: rest).flatten.length ≤ q := by
            rw [length_flatten_of_even hcheck]
            exact Nat.le_of_not_lt hq
          rw [Array.getElem?_eq_none hcells', List.getElem?_toArray, List.getElem?_eq_none hrows]
      rw [hfill, ok_bind, hflat]
      rfl

end Rows

theorem pos_of_identity [Scalar K] {n : Int} {one : Dense K} (h : Dense.identity n = .ok one) :
    0 < n := by
  by_contra hn
  rw [Dense.identity, if_pos (Int.not_lt.mp hn)] at h
  cases h

section Block

variable {n offset : Nat} {block : Dense K}

theorem in_slice_iff {row col length p q : Nat} (hcol : col + length ≤ n) (hq : q < n) :
    (row * n + col ≤ p * n + q ∧ p * n + q < row * n + col + length) ↔
      p = row ∧ col ≤ q ∧ q < col + length := by
  constructor
  · rintro ⟨hlow, hhigh⟩
    have hcell : p * n + q = row * n + (p * n + q - row * n) := by omega
    obtain ⟨rfl, hq'⟩ := flat_injective hq (by omega) hcell
    omega
  · rintro ⟨rfl, hlow, hhigh⟩
    omega

variable [Scalar K]

theorem embedRow_of_shows (hn : Storable n) (hblock : block.Stored)
    (hsq : block.rows = block.cols) (hfit : offset + block.rows ≤ n) (hi : i < block.rows)
    (h : Shows n n f cells) :
    ∃ cells', embedRow n offset block i cells = .ok cells' ∧ Shows n n
      (fun p q => if p = offset + i ∧ offset ≤ q ∧ q < offset + block.rows then
        block.get i (q - offset) else f p q) cells' := by
  have hroom := room_self_iff.mpr hn
  have hrow : (offset + i) * n + n ≤ n * n := by
    rw [← Nat.succ_mul]
    exact Nat.mul_le_mul_right n (by omega)
  have hsource : i * block.rows + block.rows ≤ block.rows * block.rows := by
    rw [← Nat.succ_mul]
    exact Nat.mul_le_mul_right block.rows hi
  have hsize : block.cells.size = block.rows * block.rows := by rw [hblock.size, ← hsq]
  have hlarge : block.rows * block.rows ≤ n * n := Nat.mul_le_mul (by omega) (by omega)
  have hend : (offset + i) * n + offset + block.rows ≤ n * n := by omega
  have hlow : Word.wrap (((offset : Int) + i) * n + offset) =
      (((offset + i) * n + offset : Nat) : Int) := by
    rw [← hroom.wrap_cell ((Nat.le_add_right _ _).trans hend)]
    push_cast
    rfl
  have hhigh : Word.wrap ((((offset + i) * n + offset : Nat) : Int) + block.rows) =
      (((offset + i) * n + offset + block.rows : Nat) : Int) := hroom.wrap_cell hend
  have hstart : position block.rows i 0 = ((i * block.rows : Nat) : Int) := by
    rw [position, ← Int.natCast_mul, ← Int.natCast_add, Nat.add_zero]
    exact hroom.wrap_cell ((Nat.le_add_right _ _).trans (hsource.trans hlarge))
  have hstop : position block.rows (i + 1) 0 = ((i * block.rows + block.rows : Nat) : Int) := by
    rw [position, ← Int.natCast_mul, ← Int.natCast_add, Nat.add_zero, Nat.succ_mul]
    exact hroom.wrap_cell (hsource.trans hlarge)
  obtain ⟨cells', hcopy, hsize', hcells⟩ :=
    copySlice_of_le (hend.trans_eq h.size.symm) (hsource.trans_eq hsize.symm)
  refine ⟨cells', ?_, hsize'.trans h.size, fun p q hp hq => ?_⟩
  · simp only [embedRow, hlow, hhigh, hstart, hstop]
    exact hcopy
  · rw [hcells, if_congr (in_slice_iff hfit hq) rfl rfl]
    by_cases hin : p = offset + i ∧ offset ≤ q ∧ q < offset + block.rows
    · have hcol : q - offset < block.cols := hsq ▸ Nat.sub_lt_left_of_lt_add hin.2.1 hin.2.2
      rw [if_pos hin, if_pos hin, hin.1, Nat.add_sub_add_left]
      rw [← hblock.shows.entry i (q - offset) hi hcol, ← hsq]
    · rw [if_neg hin, if_neg hin, h.entry p q hp hq]

theorem embed_of_fits (hn : Storable n) (hblock : block.Stored) (hsq : block.rows = block.cols)
    (hfit : offset + block.rows ≤ n) {one : Dense K}
    (hone : one = build n n fun i j => if i = j then 1 else 0) :
    (loop block.rows (embedRow n offset block) one.cells >>= fun cells =>
      (pure { one with cells } : Except Failure (Dense K))) =
      .ok (build n n (embedEntry offset block)) := by
  have hroom := room_self_iff.mpr hn
  have hshows : Shows n n (fun p q => if p = q then (1 : K) else 0) one.cells := by
    rw [hone]
    exact (stored_build hroom _).shows.congr fun p q hp hq => get_build hp hq
  have hrun := loop_invariant (embedRow (n : Int) offset block) block.rows
    (fun i => Shows n n fun p q =>
      if (offset ≤ p ∧ p < offset + i) ∧ offset ≤ q ∧ q < offset + block.rows then
        block.get (p - offset) (q - offset)
      else if p = q then 1 else 0)
    (hshows.congr fun p q _ _ => (if_neg (by omega)).symm) ?_
  · obtain ⟨cells, hloop, hshown⟩ := hrun
    have hend := (hshown.congr fun p q _ _ => (embedEntry_eq offset block p q).symm).eq_build
    rw [hloop, ← hend, hone]
    rfl
  · intro i cells hi hshown
    obtain ⟨cells', hrow, hnext⟩ := embedRow_of_shows hn hblock hsq hfit hi hshown
    refine ⟨cells', hrow, hnext.congr fun p q _ _ => ite_extend ?_ (by omega)⟩
    rintro ⟨rfl, _⟩
    rw [Nat.add_sub_cancel_left]

omit [Scalar K] in
theorem checkSlice_outside {low high : Int} (h : low < 0 ∨ (cells.size : Int) < low) :
    checkSlice cells low high = .error (.overrun (.slice low high cells.size)) := by
  rw [checkSlice, if_neg]
  simp only [Bool.and_eq_true, decide_eq_true_eq]
  omega

theorem embedRow_outside {k : Nat} (hn : Storable n) (hk : Storable k)
    (hoff : (offset : Int) ≤ Word.max) (hover : Word.max < (offset : Int) + k) :
    Word.wrap ((offset : Int) * n + offset) < 0 ∨
      ((n * n : Nat) : Int) < Word.wrap ((offset : Int) * n + offset) := by
  have hsmall : ∀ m, Storable m → m ≤ 4194304 := by
    intro m hm
    have hs := hm.2
    rw [Storage.limit_eq] at hs
    by_contra hlarge
    have hsq := Nat.mul_le_mul (Nat.lt_of_not_le hlarge) (Nat.lt_of_not_le hlarge)
    omega
  have hn' := hsmall n hn
  have hk' := hsmall k hk
  unfold Word.max at hoff hover
  -- the offset lies `d` before the end of the words, and so the slice `d * (n + 1)` before a
  -- multiple of half their number
  obtain ⟨d, hd⟩ : ∃ d : Nat, offset + d = 9223372036854775808 :=
    ⟨9223372036854775808 - offset, by omega⟩
  have hshort : d * (n + 1) ≤ 4194304 * 4194305 := Nat.mul_le_mul (by omega) (by omega)
  have hpos : 0 < d * (n + 1) := Nat.mul_pos (by omega) (by omega)
  have hsq : n * n ≤ 4194304 * 4194304 := Nat.mul_le_mul hn' hn'
  have hd' : (offset : Int) = 9223372036854775808 - d := by omega
  obtain ⟨t, ht | ht⟩ := Nat.even_or_odd' (n + 1)
  · have hstart : (offset : Int) * n + offset = -((d * (n + 1) : Nat) : Int) + Word.count * t := by
      have ht' : ((n : Int) + 1) = 2 * t := by exact_mod_cast ht
      unfold Word.count
      push_cast
      rw [hd']
      linear_combination 9223372036854775808 * ht'
    rw [hstart, Word.wrap_add_count_mul, Word.wrap_of_inRange]
    · omega
    · unfold Word.InRange Word.min Word.max
      omega
  · have hstart : (offset : Int) * n + offset =
        (9223372036854775808 - ((d * (n + 1) : Nat) : Int)) + Word.count * t := by
      have ht' : ((n : Int) + 1) = 2 * t + 1 := by exact_mod_cast ht
      unfold Word.count
      push_cast
      rw [hd']
      linear_combination 9223372036854775808 * ht'
    rw [hstart, Word.wrap_add_count_mul, Word.wrap_of_inRange]
    · omega
    · unfold Word.InRange Word.min Word.max
      omega

/-- The loop and the closed form agree for all words, also where a slice leaves the store. -/
theorem embed_eq {n offset : Int} (hn : n ≤ Word.max) (hoff : offset ≤ Word.max)
    (hblock : block.Stored) : embed n offset block = Dense.embed n offset block := by
  rw [embed, Dense.embed]
  by_cases hsq : block.rows = block.cols
  · rw [if_neg (not_not.mpr hsq), if_neg (not_not.mpr hsq)]
    by_cases hcheck : (decide (offset < 0) || decide (n < Word.wrap (offset + block.rows))) = true
    · rw [if_pos hcheck, if_pos hcheck]
    · rw [if_neg hcheck, if_neg hcheck, identity_eq hn]
      simp only [Bool.or_eq_true, decide_eq_true_eq, not_or, Int.not_lt] at hcheck
      obtain ⟨offset, rfl⟩ := Int.eq_ofNat_of_zero_le hcheck.1
      cases hone : Dense.identity (K := K) n with
      | error f => rfl
      | ok one =>
        rw [noting_ok, ok_bind, ok_bind]
        obtain ⟨n, rfl⟩ := Int.eq_ofNat_of_zero_le (pos_of_identity hone).le
        have hs := storable_of_identity hone
        have hbuild : one = build n n fun i j => if i = j then 1 else 0 := by
          rw [← identity_eq hn, identity_of_storable hs] at hone
          exact (Except.ok.inj hone).symm
        by_cases hfit : (offset : Int) + block.rows ≤ n
        · rw [if_pos hfit, embed_of_fits hs hblock hsq (by omega) hbuild, hbuild]
          rfl
        · have hover : Word.max < (offset : Int) + block.rows := by
            by_contra hle
            have hword : Word.InRange ((offset : Int) + block.rows) :=
              ⟨by unfold Word.min; omega, Int.not_lt.mp hle⟩
            exact hfit (Word.wrap_of_inRange hword ▸ hcheck.2)
          have hsize : one.cells.size = n * n := by
            rw [hbuild]
            exact Array.size_ofFn
          have hout := embedRow_outside hs (hblock.storable hsq) hoff hover
          rw [← hsize] at hout
          rw [if_neg hfit, loop_fails (fun _ cells => cells = one.cells) hblock.room.1 rfl
            (fun i _ hi => absurd hi i.not_lt_zero) (fun cells h => ?_), error_bind]
          rw [h, embedRow, Int.natCast_zero, Int.add_zero, copySlice, checkSlice_outside hout]
          rfl
  · rw [if_pos hsq, if_pos hsq]

end Block

end Flat

end Dense

end DualRail
