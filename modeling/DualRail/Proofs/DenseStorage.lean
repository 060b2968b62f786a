import Mathlib
import DualRail.Proofs.FlatLoops
import DualRail.Workbench.Registers

/-!
Which stores the matrix calls make. Sizes are checked one by one, but the number of cells is their
product and the end of a block is a sum, and both are words. A matrix has one cell for every
position as long as these words do not wrap, and then no call leaves a store; where they wrap, the
store that is made is too short for its sizes.
-/

namespace DualRail

variable {K β γ : Type}

/-- A result, a refusal, or an end for want of storage or of the matrix itself. -/
def Contained (x : Except Failure β) : Prop :=
  ∀ f, x = .error f →
    (∃ c, f.root = .cause c) ∨ f.root = .overrun .allocation ∨ f.root = .overrun .absent

theorem contained_ok (b : β) : Contained (.ok b) := nofun

theorem contained_refuse (c : Cause) (notes : List Note) :
    Contained (refuse c notes : Except Failure β) := by
  intro f hf
  obtain rfl := Except.error.inj hf
  exact .inl ⟨c, rfl⟩

theorem Contained.bind {x : Except Failure β} {g : β → Except Failure γ} (hx : Contained x)
    (hg : ∀ b, x = .ok b → Contained (g b)) : Contained (x >>= g) := by
  intro f hf
  rcases bind_eq_error hf with herror | ⟨b, hb, hgb⟩
  · exact hx f herror
  · exact hg b hb f hgb

theorem Contained.noting {x : Except Failure β} (hx : Contained x) (note : Note) :
    Contained (noting note x) := by
  cases x with
  | ok b => exact contained_ok b
  | error e =>
    intro f hf
    obtain rfl := Except.error.inj hf
    have hroot : (e.noted note).root = e.root := by
      unfold Failure.noted
      split <;> simp_all
    rw [hroot]
    exact hx e rfl

theorem Workbench.contained_required (x : Option β) : Contained (Workbench.required x) := by
  cases x with
  | some b => exact contained_ok b
  | none =>
    intro f hf
    obtain rfl := Except.error.inj hf
    exact .inr (.inr rfl)

theorem Dense.contained_required (step : MatrixStep) (x : Option (Dense K)) :
    Contained (Dense.required step x) := by
  cases x with
  | some m => exact contained_ok m
  | none => exact contained_refuse _ _

theorem Dense.required_eq_ok {step : MatrixStep} {x : Option (Dense K)} {m : Dense K}
    (h : Dense.required step x = .ok m) : x = some m := by
  cases x with
  | none => cases h
  | some d => rw [Except.ok.inj (show (Except.ok d : Except Failure (Dense K)) = .ok m from h)]

theorem Workbench.required_eq_ok {x : Option β} {b : β} (h : Workbench.required x = .ok b) :
    x = some b := by
  cases x with
  | none => cases h
  | some c => rw [Except.ok.inj (show (Except.ok c : Except Failure β) = .ok b from h)]

namespace Storage

variable {cells : Array K}

theorem size_of_copySlice {target source : Array K} {low high start stop : Int}
    (h : copySlice target low high source start stop = .ok cells) : cells.size = target.size := by
  obtain ⟨_, _, h⟩ := bind_eq_ok h
  obtain ⟨_, _, h⟩ := bind_eq_ok h
  refine loop_preserves (P := fun cells : Array K => cells.size = target.size) h ?_ rfl
  intro j cells cells' hstep hsize
  obtain ⟨x, _, hput⟩ := bind_eq_ok hstep
  exact (size_of_put hput).trans hsize

end Storage

namespace Dense

open Storage

/-- The matrix was made for these sizes, and the number of its cells was computed as a word. -/
structure Sized (rows cols : Int) (m : Dense K) : Prop where
  rows_pos : 0 < rows
  cols_pos : 0 < cols
  rows_eq : (m.rows : Int) = rows
  cols_eq : (m.cols : Int) = cols
  size_eq : (m.cells.size : Int) = Word.wrap (rows * cols)
  limit : m.cells.size * 16 ≤ Storage.limit

section Sized

variable {rows cols : Int} {m : Dense K} {cells : Array K}

theorem Sized.withCells (h : Sized rows cols m) (hsize : cells.size = m.cells.size) :
    Sized rows cols { m with cells } :=
  ⟨h.rows_pos, h.cols_pos, h.rows_eq, h.cols_eq, by rw [hsize]; exact h.size_eq,
    by rw [hsize]; exact h.limit⟩

theorem Sized.stored (h : Sized rows cols m) (hm : m.WellFormed) : m.Stored :=
  ⟨⟨hm.1, hm.2.1, by rw [← hm.2.2]; exact h.limit⟩, hm.2.2⟩

theorem Stored.wellFormed (h : m.Stored) : m.WellFormed := ⟨h.room.1, h.room.2.1, h.size⟩

/-- The store is complete exactly if the number of cells did not wrap. -/
theorem Sized.stored_iff (h : Sized rows cols m) : m.Stored ↔ rows * cols ≤ Word.max := by
  have hproduct : ((m.rows * m.cols : Nat) : Int) = rows * cols := by
    rw [Int.natCast_mul, h.rows_eq, h.cols_eq]
  constructor
  · intro hm
    rw [← hproduct]
    exact (hm.room.inRange le_rfl).2
  · intro hword
    have hnonneg : 0 ≤ rows * cols := (Int.mul_pos h.rows_pos h.cols_pos).le
    have hsize := h.size_eq
    rw [Word.wrap_of_inRange ⟨by unfold Word.min; omega, hword⟩, ← hproduct] at hsize
    have hrows := h.rows_pos
    have hcols := h.cols_pos
    have hrows' := h.rows_eq
    have hcols' := h.cols_eq
    exact h.stored ⟨by omega, by omega, by omega⟩

variable [Scalar K]

theorem sized_zeros (h : zeros rows cols = .ok m) : Sized rows cols m := by
  rw [zeros] at h
  by_cases hpos : (decide (rows ≤ 0) || decide (cols ≤ 0)) = true
  · rw [if_pos hpos] at h
    cases h
  · rw [if_neg hpos] at h
    simp only [Bool.or_eq_true, decide_eq_true_eq, not_or, Int.not_le] at hpos
    obtain ⟨count, hreserve, h⟩ := bind_eq_ok h
    obtain ⟨_, hwrap, hlimit⟩ := reserveGrid_eq_ok hreserve
    obtain rfl := Except.ok.inj h
    refine ⟨hpos.1, hpos.2, Int.toNat_of_nonneg hpos.1.le, Int.toNat_of_nonneg hpos.2.le, ?_, ?_⟩
    · rw [Array.size_replicate, hwrap]
    · rwa [Array.size_replicate]

theorem zeros_of_reserve (rows cols : Int) (count : Nat) (hrows : 0 < rows)
    (hcols : 0 < cols) (h : reserveGrid rows cols 16 = .ok count) :
    ∃ m : Dense K, zeros rows cols = .ok m ∧ (m.rows : Int) = rows ∧ (m.cols : Int) = cols ∧
      m.cells.size = count := by
  refine ⟨⟨rows.toNat, cols.toNat, Array.replicate count 0⟩, ?_, ?_, ?_, Array.size_replicate⟩
  · have hpos : ¬ (decide (rows ≤ 0) || decide (cols ≤ 0)) = true := by
      simp only [Bool.or_eq_true, decide_eq_true_eq]
      omega
    rw [zeros, if_neg hpos, h]
    rfl
  · exact Int.toNat_of_nonneg hrows.le
  · exact Int.toNat_of_nonneg hcols.le

theorem contained_zeros (rows cols : Int) :
    Contained (zeros rows cols : Except Failure (Dense K)) := by
  rw [zeros]
  split
  · exact contained_refuse _ _
  · refine Contained.bind (fun f hf => ?_) fun count _ => contained_ok _
    refine .inr (.inl ?_)
    rw [reserveGrid, reserve] at hf
    split at hf
    · rw [← Except.error.inj hf]
      rfl
    · split at hf
      · rw [← Except.error.inj hf]
        rfl
      · cases hf

theorem zeros_of_no_room {rows cols : Nat} (hrows : 0 < rows) (hcols : 0 < cols)
    (hroom : ¬ Room rows cols) (hword : (rows : Int) * cols ≤ Word.max) :
    zeros (rows : Int) cols = (.error (.overrun .allocation) : Except Failure (Dense K)) := by
  have hlimit : Storage.limit < rows * cols * 16 := by
    by_contra hle
    exact hroom ⟨hrows, hcols, Nat.le_of_not_lt hle⟩
  rw [← Int.natCast_mul] at hword
  have hrows' : rows ≤ rows * cols := Nat.le_mul_of_pos_right rows hcols
  have hcols' : cols ≤ rows * cols := Nat.le_mul_of_pos_left cols hrows
  have hpos : ¬ (decide ((rows : Int) ≤ 0) || decide ((cols : Int) ≤ 0)) = true := by
    simp only [Bool.or_eq_true, decide_eq_true_eq]
    omega
  have hwords : ¬ (decide (Word.max < (rows : Int)) ||
      decide (Word.max < (cols : Int))) = true := by
    simp only [Bool.or_eq_true, decide_eq_true_eq]
    omega
  rw [zeros, if_neg hpos, reserveGrid, if_neg hwords, ← Int.natCast_mul,
    Word.wrap_of_inRange ⟨by unfold Word.min; omega, hword⟩, reserve_eq_error hlimit]
  rfl

end Sized

namespace Flat

variable [Scalar K] {m : Dense K}

theorem sized_identity {n : Int} (h : identity n = .ok m) : Sized n n m := by
  obtain ⟨blank, hblank, h⟩ := bind_eq_ok h
  obtain ⟨cells, hloop, h⟩ := bind_eq_ok h
  obtain rfl := Except.ok.inj h
  refine (sized_zeros hblank).withCells ?_
  exact loop_preserves (P := fun cells : Array K => cells.size = blank.cells.size) hloop
    (fun _ _ _ hput hsize => (size_of_put hput).trans hsize) rfl

theorem size_of_mulRow {a b : Dense K} {i : Nat} {cells cells' : Array K}
    (h : mulRow a b i cells = .ok cells') : cells'.size = cells.size := by
  refine loop_preserves (P := fun cells' : Array K => cells'.size = cells.size) h ?_ rfl
  intro k cells₁ cells₂ hterms hsize
  obtain ⟨x, _, hterms⟩ := bind_eq_ok hterms
  by_cases hzero : Scalar.isZero x = true
  · rw [if_pos hzero] at hterms
    rw [← Except.ok.inj hterms, hsize]
  · rw [if_neg hzero] at hterms
    refine loop_preserves (P := fun cells' : Array K => cells'.size = cells.size) hterms ?_ hsize
    intro j cells₃ cells₄ hentry hsize
    obtain ⟨_, _, hentry⟩ := bind_eq_ok hentry
    obtain ⟨_, _, hput⟩ := bind_eq_ok hentry
    exact (size_of_put hput).trans hsize

theorem sized_mul {a b : Dense K} (h : mul a b = .ok m) :
    a.cols = b.rows ∧ Sized a.rows b.cols m := by
  rw [mul] at h
  by_cases hinner : a.cols = b.rows
  · rw [if_neg (not_not.mpr hinner)] at h
    obtain ⟨blank, hblank, h⟩ := bind_eq_ok (noting_eq_ok h)
    obtain ⟨cells, hloop, h⟩ := bind_eq_ok h
    obtain rfl := Except.ok.inj h
    refine ⟨hinner, (sized_zeros hblank).withCells ?_⟩
    exact loop_preserves (P := fun cells : Array K => cells.size = blank.cells.size) hloop
      (fun _ _ _ hrow hsize => (size_of_mulRow hrow).trans hsize) rfl
  · rw [if_pos hinner] at h
    cases h

omit [Scalar K] in
theorem size_of_fillRows {want index : Nat} {rows : List (List K)} {cells cells' : Array K}
    (h : fillRows want index rows cells = .ok cells') : cells'.size = cells.size := by
  induction rows generalizing index cells with
  | nil => rw [← Except.ok.inj (show (Except.ok cells : Except Failure _) = .ok cells' from h)]
  | cons row rest ih =>
    rw [fillRows] at h
    by_cases hrow : row.length = want
    · rw [if_neg (not_not.mpr hrow)] at h
      obtain ⟨cells₁, hcopy, h⟩ := bind_eq_ok h
      exact (ih h).trans (size_of_copySlice hcopy)
    · rw [if_pos hrow] at h
      cases h

theorem sized_ofRows {rows : List (List K)} (h : ofRows rows = .ok m) :
    Sized rows.length (rows.headD []).length m := by
  cases rows with
  | nil => cases h
  | cons first rest =>
    rw [ofRows] at h
    by_cases hempty : first.isEmpty = true
    · rw [if_pos hempty] at h
      cases h
    · rw [if_neg hempty] at h
      obtain ⟨blank, hblank, h⟩ := bind_eq_ok h
      obtain ⟨cells, hfill, h⟩ := bind_eq_ok h
      obtain rfl := Except.ok.inj h
      exact (sized_zeros hblank).withCells (size_of_fillRows hfill)

theorem sized_embed {n offset : Int} {block : Dense K} (h : embed n offset block = .ok m) :
    Sized n n m := by
  rw [embed] at h
  split at h
  · cases h
  · split at h
    · cases h
    · obtain ⟨one, hone, h⟩ := bind_eq_ok h
      obtain ⟨cells, hloop, h⟩ := bind_eq_ok h
      obtain rfl := Except.ok.inj h
      refine (sized_identity (noting_eq_ok hone)).withCells ?_
      exact loop_preserves (P := fun cells : Array K => cells.size = one.cells.size) hloop
        (fun _ _ _ hrow hsize => (size_of_copySlice hrow).trans hsize) rfl

theorem contained_ofRows {rows : List (List K)}
    (hword : (rows.length : Int) * (rows.headD []).length ≤ Word.max) :
    Contained (ofRows rows) := by
  cases rows with
  | nil => exact contained_refuse _ _
  | cons first rest =>
    by_cases hroom : Room (first :: rest).length first.length
    · rw [ofRows_of_room hroom, Dense.ofRows]
      split
      · exact contained_refuse _ _
      · split
        · exact contained_refuse _ _
        · exact contained_ok _
    · rw [ofRows]
      by_cases hempty : first.isEmpty = true
      · rw [if_pos hempty]
        exact contained_refuse _ _
      · have hpos : 0 < first.length := by
          rw [List.isEmpty_iff, ← List.length_eq_zero_iff] at hempty
          omega
        rw [if_neg hempty]
        refine (contained_zeros _ _).bind fun blank hblank => ?_
        rw [zeros_of_no_room (List.length_pos_of_ne_nil (List.cons_ne_nil first rest)) hpos hroom
          hword]
          at hblank
        cases hblank

theorem contained_identity {n : Int} (hword : n * n ≤ Word.max) :
    Contained (identity n : Except Failure (Dense K)) := by
  refine (contained_zeros n n).bind fun blank hblank => ?_
  have hsized := sized_zeros hblank
  obtain ⟨n, rfl⟩ := Int.eq_ofNat_of_zero_le hsized.rows_pos.le
  by_cases hroom : Room n n
  · have hone := identity_of_storable (K := K) (room_self_iff.mp hroom)
    rw [identity, hblank, ok_bind] at hone
    rw [hone]
    exact contained_ok _
  · have hpos : 0 < n := Int.natCast_pos.mp hsized.rows_pos
    rw [zeros_of_no_room hpos hpos hroom hword] at hblank
    cases hblank

theorem mul_of_no_room {a b : Dense K} (ha : a.Stored) (hb : b.Stored) (hinner : a.cols = b.rows)
    (hroom : ¬ Room a.rows b.cols) (hword : (a.rows : Int) * b.cols ≤ Word.max) :
    mul a b = .error (.overrun .allocation) := by
  rw [mul, if_neg (not_not.mpr hinner), zeros_of_no_room ha.room.1 hb.room.2.1 hroom hword]
  rfl

theorem contained_mul {a b : Dense K} (ha : a.Stored) (hb : b.Stored)
    (hword : (a.rows : Int) * b.cols ≤ Word.max) : Contained (mul a b) := by
  by_cases hinner : a.cols = b.rows
  · by_cases hroom : Room a.rows b.cols
    · rw [mul_of_stored ha hb hinner hroom]
      exact contained_ok _
    · rw [mul_of_no_room ha hb hinner hroom hword]
      exact fun f hf => .inr (.inl (by rw [← Except.error.inj hf]; rfl))
  · rw [mul, if_pos hinner]
    exact contained_refuse _ _

theorem contained_embed {n offset : Int} {block : Dense K} (hn : n ≤ Word.max)
    (hblock : block.Stored) (hword : n * n ≤ Word.max) (hend : offset + block.rows ≤ Word.max) :
    Contained (embed n offset block) := by
  rw [embed_eq hn (by omega) hblock, Dense.embed, ← identity_eq hn]
  by_cases hsq : block.rows = block.cols
  · rw [if_neg (not_not.mpr hsq)]
    by_cases hcheck : (decide (offset < 0) || decide (n < Word.wrap (offset + block.rows))) = true
    · rw [if_pos hcheck]
      exact contained_refuse _ _
    · rw [if_neg hcheck]
      refine ((contained_identity hword).noting _).bind fun one _ => ?_
      simp only [Bool.or_eq_true, decide_eq_true_eq, not_or, Int.not_lt] at hcheck
      rw [Word.wrap_of_inRange ⟨by unfold Word.min; omega, hend⟩] at hcheck
      rw [if_pos hcheck.2]
      exact contained_ok _
  · rw [if_pos hsq]
    exact contained_refuse _ _

end Flat

theorem fits_of_embed [Scalar K] {n offset : Int} {block m : Dense K}
    (h : Dense.embed n offset block = .ok m) : offset + block.rows ≤ n := by
  rw [Dense.embed] at h
  split at h
  · cases h
  · split at h
    · cases h
    · obtain ⟨one, _, h⟩ := bind_eq_ok h
      by_contra hfit
      rw [if_neg hfit] at h
      cases h

/-- A block whose end wraps passes the check, and its first row is not in the store. -/
theorem embed_of_wrapped [Scalar K] {n : Nat} {offset : Int} {block : Dense K}
    (hn : Storable n) (hword : offset ≤ Word.max) (hblock : block.Stored)
    (hsq : block.rows = block.cols) (hoff : 0 ≤ offset)
    (hcheck : Word.wrap (offset + block.rows) ≤ n) (hfit : ¬ offset + block.rows ≤ n) {low : Int}
    (hlow : Word.wrap (offset * n + offset) = low) :
    Flat.embed n offset block =
      .error (.overrun (.slice low (Word.wrap (low + block.rows)) (n * n))) := by
  have hn' : (n : Int) ≤ Word.max :=
    ((room_self_iff.mpr hn).inRange (Nat.le_mul_of_pos_left n hn.1)).2
  have hcheck' : ¬ (decide (offset < 0) || decide ((n : Int) < Word.wrap (offset + block.rows))) =
      true := by
    simp only [Bool.or_eq_true, decide_eq_true_eq, not_or, Int.not_lt]
    exact ⟨hoff, hcheck⟩
  rw [Flat.embed_eq hn' hword hblock, embed, if_neg (not_not.mpr hsq), if_neg hcheck',
    ← Flat.identity_eq hn', Flat.identity_of_storable hn, noting_ok, ok_bind,
    if_neg hfit, hlow]
  simp only [build, Array.size_ofFn]

section Access

variable {m : Dense K} {i j : Nat}

theorem isInside_iff {row col : Int} :
    m.isInside row col = true ↔ ∃ i j : Nat, row = i ∧ col = j ∧ i < m.rows ∧ j < m.cols := by
  simp only [isInside, Bool.and_eq_true, decide_eq_true_eq]
  constructor
  · rintro ⟨⟨⟨hrow, hrow'⟩, hcol⟩, hcol'⟩
    exact ⟨row.toNat, col.toNat, by omega, by omega, by omega, by omega⟩
  · rintro ⟨i, j, rfl, rfl, hi, hj⟩
    omega

theorem Stored.cell_lt (h : m.Stored) (hi : i < m.rows) (hj : j < m.cols) :
    i * m.cols + j < m.cells.size := by
  rw [h.size]
  exact flat_lt hi hj

theorem Stored.cellIndex_inside (h : m.Stored) (writing : Bool) (hi : i < m.rows)
    (hj : j < m.cols) : m.cellIndex writing i j = .ok ⟨i * m.cols + j, h.cell_lt hi hj⟩ := by
  rw [cellIndex, if_pos (isInside_iff.mpr ⟨i, j, rfl, rfl, hi, hj⟩), h.room.wrap_flat hi hj,
    cellAt_of_lt (h.cell_lt hi hj)]

theorem cellIndex_outside {row col : Int} (h : ¬ m.isInside row col = true) (writing : Bool) :
    m.cellIndex writing row col = refuse .indexOutOfBounds [.cell writing row col] := if_neg h

/-- Positions inside the sizes have a cell each, read and written by its position alone, and all
others are refused. -/
structure Accessible [Scalar K] (m : Dense K) : Prop where
  refused : ∀ row col : Int, ¬ m.isInside row col = true →
    m.read row col = refuse .indexOutOfBounds [.cell false row col] ∧
    ∀ v, m.write row col v = refuse .indexOutOfBounds [.cell true row col]
  read : ∀ i j : Nat, i < m.rows → j < m.cols → m.read i j = .ok (m.get i j)
  written : ∀ (i j : Nat) (v : K), i < m.rows → j < m.cols →
    ∃ m', m.write i j v = .ok m' ∧ m'.WellFormed ∧ m'.rows = m.rows ∧ m'.cols = m.cols ∧
      ∀ p q : Nat, p < m.rows → q < m.cols →
        m'.read p q = .ok (if p = i ∧ q = j then v else m.get p q)
  distinct : ∀ {writing writing' : Bool} {row col row' col' : Int} {cell : Fin m.cells.size},
    m.cellIndex writing row col = .ok cell → m.cellIndex writing' row' col' = .ok cell →
      row = row' ∧ col = col'

variable [Scalar K]

theorem Stored.read_inside (h : m.Stored) (hi : i < m.rows) (hj : j < m.cols) :
    m.read i j = .ok (m.get i j) := by
  rw [Dense.read, h.cellIndex_inside false hi hj, get,
    Array.getD_eq_getD_getElem?, Array.getElem?_eq_getElem (h.cell_lt hi hj)]
  rfl

theorem Stored.write_inside (h : m.Stored) (hi : i < m.rows) (hj : j < m.cols) (v : K) :
    ∃ m', m.write i j v = .ok m' ∧ m'.Stored ∧ m'.rows = m.rows ∧ m'.cols = m.cols ∧
      ∀ p q : Nat, p < m.rows → q < m.cols →
        m'.get p q = if p = i ∧ q = j then v else m.get p q := by
  obtain ⟨cells, hput, hcells⟩ := Flat.put_of_shows h.room h.shows hi hj v
  have hstored : Stored { m with cells } := ⟨h.room, hcells.size⟩
  refine ⟨{ m with cells }, ?_, hstored, rfl, rfl, fun p q hp hq => ?_⟩
  · rw [Flat.position_eq h.room hi hj, put_of_lt (h.cell_lt hi hj)] at hput
    rw [write, h.cellIndex_inside true hi hj, ← Except.ok.inj hput]
    rfl
  · have hentry := hstored.shows.entry p q hp hq
    rw [hcells.entry p q hp hq] at hentry
    exact (Option.some.inj hentry).symm

theorem Stored.accessible (h : m.Stored) : m.Accessible where
  refused row col hout := by
    refine ⟨?_, fun v => ?_⟩
    · rw [Dense.read, cellIndex_outside hout]
      rfl
    · rw [write, cellIndex_outside hout]
      rfl
  read i j hi hj := h.read_inside hi hj
  written i j v hi hj := by
    obtain ⟨m', hwrite, hm', hrows, hcols, hget⟩ := h.write_inside hi hj v
    refine ⟨m', hwrite, hm'.wellFormed, hrows, hcols, fun p q hp hq => ?_⟩
    rw [hm'.read_inside (hrows ▸ hp) (hcols ▸ hq), hget p q hp hq]
  distinct {writing writing' row col row' col' cell} hcell hcell' := by
    have hinside : ∀ {writing row col}, m.cellIndex writing row col = .ok cell →
        m.isInside row col = true := by
      intro writing row col hok
      by_contra hout
      rw [cellIndex_outside hout] at hok
      cases hok
    obtain ⟨i, j, rfl, rfl, hi, hj⟩ := isInside_iff.mp (hinside hcell)
    obtain ⟨p, q, rfl, rfl, hp, hq⟩ := isInside_iff.mp (hinside hcell')
    rw [h.cellIndex_inside _ hi hj] at hcell
    rw [h.cellIndex_inside _ hp hq, ← hcell] at hcell'
    obtain ⟨rfl, rfl⟩ := flat_injective hq hj (Fin.mk.inj (Except.ok.inj hcell'))
    exact ⟨rfl, rfl⟩

end Access

end Dense

namespace MatrixCall

/-- The sizes, positions and offsets of a call are words. -/
def Words : MatrixCall K → Prop
  | .zeros rows cols _ => Word.InRange rows ∧ Word.InRange cols
  | .identity n _ => Word.InRange n
  | .set _ row col _ => Word.InRange row ∧ Word.InRange col
  | .embed n offset _ _ => Word.InRange n ∧ Word.InRange offset
  | .ofRows .. | .clone .. | .mul .. | .adjoint .. => True

/-- The number of cells of the result is a word, and so is the end of an embedded block. -/
def Representable (regs : Registers K) : MatrixCall K → Prop
  | .zeros rows cols _ => rows * cols ≤ Word.max
  | .ofRows rows _ => (rows.length : Int) * (rows.headD []).length ≤ Word.max
  | .identity n _ => n * n ≤ Word.max
  | .mul left right _ => ∀ a b, regs.lookup left = some a → regs.lookup right = some b →
      (a.rows : Int) * b.cols ≤ Word.max
  | .embed n offset source _ => n * n ≤ Word.max ∧
      ∀ block, regs.lookup source = some block → offset + block.rows ≤ Word.max
  | .clone .. | .set .. | .adjoint .. => True

end MatrixCall

namespace Registers

/-- Registers that calls lead to, as long as their sums and products are words. -/
inductive Reachable [Scalar K] : Registers K → Prop where
  | empty : Reachable []
  | call {regs regs' : Registers K} {c : MatrixCall K} (before : Reachable regs) (words : c.Words)
      (representable : c.Representable regs) (run : c.run regs = .ok regs') : Reachable regs'

def Intact (regs : Registers K) : Prop := ∀ entry ∈ regs, entry.2.Stored

theorem Intact.lookup {regs : Registers K} (h : Intact regs) {name : String} {m : Dense K}
    (hm : regs.lookup name = some m) : m.Stored := by
  obtain ⟨before, after, rfl, _⟩ := List.lookup_eq_some_iff.mp hm
  exact h (name, m) (by simp)

end Registers

namespace MatrixCall

open Registers

variable [Scalar K] {regs : Registers K} {m : Dense K}

theorem stored_write {row col : Int} {v : K} {m' : Dense K} (hm : m.Stored)
    (h : m.write row col v = .ok m') : m'.Stored := by
  by_cases hin : m.isInside row col = true
  · obtain ⟨i, j, rfl, rfl, hi, hj⟩ := Dense.isInside_iff.mp hin
    obtain ⟨m'', hwrite, hm'', _⟩ := hm.write_inside hi hj v
    rw [h] at hwrite
    rw [Except.ok.inj hwrite]
    exact hm''
  · rw [(hm.accessible.refused row col hin).2 v] at h
    cases h

/-- The store that a call makes is complete exactly if its sums and products are words. -/
theorem stored_result_iff {c : MatrixCall K} (hregs : Intact regs) (hwords : c.Words)
    (h : c.result regs = .ok m) :
    (m.Stored ↔ c.Representable regs) ∧ (m.WellFormed → m.Stored) := by
  cases c with
  | zeros rows cols target =>
    have hsized := Dense.sized_zeros h
    exact ⟨hsized.stored_iff, hsized.stored⟩
  | ofRows rows target =>
    have hsized := Dense.Flat.sized_ofRows h
    exact ⟨hsized.stored_iff, hsized.stored⟩
  | identity n target =>
    have hsized := Dense.Flat.sized_identity h
    exact ⟨hsized.stored_iff, hsized.stored⟩
  | clone source target =>
    have hm := hregs.lookup (Workbench.required_eq_ok h)
    exact ⟨iff_of_true hm trivial, fun _ => hm⟩
  | set target row col v =>
    obtain ⟨a, ha, h⟩ := bind_eq_ok h
    have hm := stored_write (hregs.lookup (Workbench.required_eq_ok ha)) h
    exact ⟨iff_of_true hm trivial, fun _ => hm⟩
  | mul left right target =>
    obtain ⟨a, ha, h⟩ := bind_eq_ok h
    obtain ⟨b, hb, h⟩ := bind_eq_ok h
    have hleft := Dense.required_eq_ok ha
    have hright := Dense.required_eq_ok hb
    obtain ⟨_, hsized⟩ := Dense.Flat.sized_mul h
    refine ⟨hsized.stored_iff.trans ⟨?_, fun hrep => hrep a b hleft hright⟩, hsized.stored⟩
    intro hword a' b' ha' hb'
    obtain rfl := Option.some.inj (hleft.symm.trans ha')
    obtain rfl := Option.some.inj (hright.symm.trans hb')
    exact hword
  | adjoint source target =>
    obtain ⟨a, ha, h⟩ := bind_eq_ok h
    have ha := hregs.lookup (Dense.required_eq_ok ha)
    rw [Dense.Flat.adjoint_of_stored ha] at h
    have hm : m.Stored := Except.ok.inj h ▸ Dense.stored_build ha.room.symm _
    exact ⟨iff_of_true hm trivial, fun _ => hm⟩
  | embed n offset source target =>
    obtain ⟨block, hblock, h⟩ := bind_eq_ok h
    have hsource := Dense.required_eq_ok hblock
    have hsized := Dense.Flat.sized_embed h
    rw [Dense.Flat.embed_eq hwords.1.2 hwords.2.2 (hregs.lookup hsource)] at h
    have hfit := Dense.fits_of_embed h
    refine ⟨hsized.stored_iff.trans ⟨fun hword => ⟨hword, ?_⟩, fun hrep => hrep.1⟩, hsized.stored⟩
    intro block' hblock'
    obtain rfl := Option.some.inj (hsource.symm.trans hblock')
    exact hfit.trans hwords.1.2

theorem contained_result {c : MatrixCall K} (hregs : Intact regs) (hwords : c.Words)
    (hrep : c.Representable regs) : Contained (c.result regs) := by
  cases c with
  | zeros rows cols target => exact Dense.contained_zeros rows cols
  | ofRows rows target => exact Dense.Flat.contained_ofRows hrep
  | identity n target => exact Dense.Flat.contained_identity hrep
  | clone source target => exact Workbench.contained_required _
  | set target row col v =>
    refine (Workbench.contained_required _).bind fun a ha => ?_
    have ha := hregs.lookup (Workbench.required_eq_ok ha)
    by_cases hin : a.isInside row col = true
    · obtain ⟨i, j, rfl, rfl, hi, hj⟩ := Dense.isInside_iff.mp hin
      obtain ⟨m', hwrite, _⟩ := ha.write_inside hi hj v
      rw [hwrite]
      exact contained_ok m'
    · rw [(ha.accessible.refused row col hin).2 v]
      exact contained_refuse _ _
  | mul left right target =>
    refine (Dense.contained_required _ _).bind fun a ha => ?_
    refine (Dense.contained_required _ _).bind fun b hb => ?_
    have hleft := Dense.required_eq_ok ha
    have hright := Dense.required_eq_ok hb
    exact Dense.Flat.contained_mul (hregs.lookup hleft) (hregs.lookup hright)
      (hrep a b hleft hright)
  | adjoint source target =>
    refine (Dense.contained_required _ _).bind fun a ha => ?_
    rw [Dense.Flat.adjoint_of_stored (hregs.lookup (Dense.required_eq_ok ha))]
    exact contained_ok _
  | embed n offset source target =>
    refine (Dense.contained_required _ _).bind fun block hblock => ?_
    have hsource := Dense.required_eq_ok hblock
    exact Dense.Flat.contained_embed hwords.1.2 (hregs.lookup hsource) hrep.1
      (hrep.2 block hsource)

/-- One call keeps the stores complete. -/
theorem intact_run {c : MatrixCall K} {regs' : Registers K} (hregs : Intact regs)
    (hwords : c.Words) (hrep : c.Representable regs) (h : c.run regs = .ok regs') :
    Intact regs' := by
  obtain ⟨m, hm, h⟩ := bind_eq_ok h
  obtain rfl := Except.ok.inj h
  intro entry hentry
  rcases List.mem_cons.mp hentry with rfl | hold
  · exact (stored_result_iff hregs hwords hm).1.mpr hrep
  · exact hregs entry hold

end MatrixCall

namespace Registers

variable [Scalar K] {regs : Registers K}

theorem Reachable.intact (h : Reachable regs) : Intact regs := by
  induction h with
  | empty => exact nofun
  | call _ hwords hrep hrun ih => exact MatrixCall.intact_run ih hwords hrep hrun

/-- Every register that calls lead to has positive sizes and one cell for every position. The next
call gives such a matrix exactly if the number of its cells and the end of its block are words, and
then it touches nothing outside a store. -/
theorem stores_are_complete (h : Reachable regs) :
    (∀ entry ∈ regs, entry.2.WellFormed ∧ entry.2.Accessible) ∧
    ∀ c : MatrixCall K, c.Words →
      (∀ m, c.result regs = .ok m → (m.WellFormed ↔ c.Representable regs)) ∧
      (c.Representable regs → Contained (c.result regs)) := by
  have hregs := h.intact
  refine ⟨fun entry hentry => ?_, fun c hwords => ⟨fun m hm => ?_, ?_⟩⟩
  · exact ⟨(hregs entry hentry).wellFormed, (hregs entry hentry).accessible⟩
  · obtain ⟨hiff, hstored⟩ := MatrixCall.stored_result_iff hregs hwords hm
    exact ⟨fun hw => hiff.mp (hstored hw), fun hrep => (hiff.mpr hrep).wellFormed⟩
  · exact MatrixCall.contained_result hregs hwords

theorem stores_are_complete_block :
    ∃ (_ : ExactScalar ℤ) (regs : Registers ℤ) (whole square : Dense ℤ),
      Reachable regs ∧ regs.lookup "whole" = some whole ∧ whole.WellFormed ∧ whole.Accessible ∧
      (MatrixCall.mul "whole" "whole" "square").result regs = .ok square ∧ square.WellFormed ∧
      Contained ((MatrixCall.mul "whole" "whole" "square").result regs) := by
  let _ := ExactScalar.ofCommRing ℤ
  have hblock : Reachable (K := ℤ) [("block", ⟨1, 1, #[2]⟩)] :=
    .call (c := .ofRows [[2]] "block") .empty trivial
      (show ((1 : Nat) : Int) * (1 : Nat) ≤ Word.max by decide) rfl
  have hwhole : Reachable (K := ℤ) [("whole", ⟨2, 2, #[1, 0, 0, 2]⟩), ("block", ⟨1, 1, #[2]⟩)] := by
    refine .call (c := .embed 2 1 "block" "whole") hblock
      (show Word.InRange 2 ∧ Word.InRange 1 by decide) ⟨by decide, fun b hb => ?_⟩ rfl
    obtain rfl := Option.some.inj hb
    decide
  obtain ⟨hmatrices, hcalls⟩ := stores_are_complete hwhole
  obtain ⟨hexact, hcontained⟩ := hcalls (.mul "whole" "whole" "square") trivial
  obtain ⟨hformed, haccess⟩ := hmatrices _ List.mem_cons_self
  have hrep : MatrixCall.Representable (K := ℤ)
      [("whole", ⟨2, 2, #[1, 0, 0, 2]⟩), ("block", ⟨1, 1, #[2]⟩)]
      (.mul "whole" "whole" "square") := by
    intro a b ha hb
    obtain rfl := Option.some.inj ha
    obtain rfl := Option.some.inj hb
    decide
  exact ⟨ExactScalar.ofCommRing ℤ, _, _, ⟨2, 2, #[1, 0, 0, 4]⟩, hwhole, rfl, hformed, haccess, rfl,
    (hexact ⟨2, 2, #[1, 0, 0, 4]⟩ rfl).mpr hrep, hcontained hrep⟩

/-- Sizes whose product wraps give a store without cells, or one whose cells serve two positions;
and a block at the greatest offset leaves the store. -/
theorem wrapped_sizes_leave_the_store :
    (∃ m : Dense (Amplitude Float),
      MatrixCall.result [] (.zeros 4294967296 4294967296 "m") = .ok m ∧
      ¬ m.WellFormed ∧ m.isInside 0 0 = true ∧ m.read 0 0 = .error (.overrun (.index 0 0))) ∧
    (∃ m : Dense (Amplitude Float),
      MatrixCall.result [] (.zeros 4611686018427387905 4 "m") = .ok m ∧
      ∃ cell, m.cellIndex true 0 0 = .ok cell ∧
        m.cellIndex true 4611686018427387904 0 = .ok cell) ∧
    ∃ regs, (MatrixCall.identity 1 "a" : MatrixCall (Amplitude Float)).run [] = .ok regs ∧
      Reachable regs ∧ (MatrixCall.embed 2 Word.max "a" "b" : MatrixCall (Amplitude Float)).Words ∧
      MatrixCall.result regs (.embed 2 Word.max "a" "b") =
        .error (.overrun (.slice 9223372036854775805 9223372036854775806 4)) := by
  refine ⟨?_, ?_, ?_⟩
  · obtain ⟨m, hm, hrows, hcols, hsize⟩ :=
      Dense.zeros_of_reserve (K := Amplitude Float) 4294967296 4294967296 0 (by decide) (by decide)
        (by decide +kernel)
    have hinside : m.isInside 0 0 = true := by simp [Dense.isInside, hrows, hcols]
    refine ⟨m, hm, ?_, hinside, ?_⟩
    · rintro ⟨hpos, hpos', hfull⟩
      exact absurd (hfull.symm.trans hsize) (Nat.mul_pos hpos hpos').ne'
    · have hwrap : Word.wrap (0 * 4294967296 + 0) = 0 := by decide +kernel
      rw [Dense.read, Dense.cellIndex, if_pos hinside, hcols, hwrap,
        Storage.cellAt_outside (.inr (by rw [hsize]; decide)), error_bind, hsize]
  · obtain ⟨m, hm, hrows, hcols, hsize⟩ :=
      Dense.zeros_of_reserve (K := Amplitude Float) 4611686018427387905 4 4 (by decide) (by decide)
        (by decide +kernel)
    have hwrap : Word.wrap (0 * 4 + 0) = ((0 : Nat) : Int) := by decide +kernel
    have hwrap' : Word.wrap (4611686018427387904 * 4 + 0) = ((0 : Nat) : Int) := by decide +kernel
    have hcell : 0 < m.cells.size := by rw [hsize]; decide
    refine ⟨m, hm, ⟨0, hcell⟩, ?_, ?_⟩
    · rw [Dense.cellIndex, if_pos (by simp [Dense.isInside, hrows, hcols]), hcols, hwrap,
        Storage.cellAt_of_lt hcell]
    · rw [Dense.cellIndex, if_pos (by simp [Dense.isInside, hrows, hcols]), hcols, hwrap',
        Storage.cellAt_of_lt hcell]
  · let one : Dense (Amplitude Float) := Dense.build 1 1 fun i j => if i = j then 1 else 0
    have hone : one.Stored := Dense.stored_build (by decide) _
    have hrun : (MatrixCall.identity 1 "a" : MatrixCall (Amplitude Float)).run [] =
        .ok [("a", one)] := by
      have hid := Dense.Flat.identity_of_storable (K := Amplitude Float) (n := 1) (by decide)
      rw [Int.natCast_one] at hid
      rw [MatrixCall.run, MatrixCall.result, hid]
      rfl
    refine ⟨[("a", one)], hrun, ?_, ?_, ?_⟩
    · exact .call (c := .identity 1 "a") .empty (show Word.InRange 1 by decide)
        (show (1 : Int) * 1 ≤ Word.max by decide) hrun
    · exact show Word.InRange 2 ∧ Word.InRange Word.max by decide
    · have hlookup : Dense.required .embed ([("a", one)].lookup "a") = .ok one := rfl
      have hlow : Word.wrap (Word.max * (2 : Nat) + Word.max) = 9223372036854775805 := by
        decide +kernel
      have hhigh : Word.wrap (9223372036854775805 + (1 : Nat)) = 9223372036854775806 := by
        decide +kernel
      have hover := Dense.embed_of_wrapped (n := 2) (by decide) (le_refl Word.max) hone rfl
        (by decide) (show Word.wrap (Word.max + (1 : Nat)) ≤ (2 : Nat) by decide +kernel)
        (show ¬ Word.max + (1 : Nat) ≤ (2 : Nat) by decide) hlow
      rw [MatrixCall.result, hlookup, ok_bind]
      exact hover.trans (by rw [show one.rows = 1 from rfl, hhigh])

end Registers

end DualRail
