import DualRail.Proofs.NetworkMatrix

/-!
Permutations as vectors of words. Only a vector that is read is checked; every other operation
writes cells at positions it finds in other vectors. Here the operations run on bare vectors, with
no knowledge of what these hold: a read or a write outside a vector is an overrun. Main statements:
the check accepts exactly the bijections of the positions; whatever sequence of operations returned
a vector, it is such a bijection again, and the operations on permutations are these runs; and the
permutations of one width form a group.
-/

namespace DualRail

/-- The vector lists the images of a bijection of its positions, of which there is at least one. -/
def IsBijection (v : List Int) : Prop :=
  v ≠ [] ∧ ∃ e : Equiv.Perm (Fin v.length), ∀ i, v.get i = ((e i).val : Int)

namespace Permutation

/-- The images as words. -/
def cells (p : Permutation) : List Int := p.vector.map Int.ofNat

@[simp] theorem length_cells (p : Permutation) : p.cells.length = p.width := by
  simp [cells, vector, width]

theorem getElem_cells (p : Permutation) {i : Nat} (h : i < p.cells.length) :
    p.cells[i] = (p.apply i : Int) := by
  simp only [cells, vector, List.getElem_map, getElem_toList]
  rfl

theorem cells_eq_map_range (p : Permutation) :
    p.cells = (List.range p.width).map fun i => (p.apply i : Int) := by
  apply List.ext_getElem
  · simp
  · intro i hi _
    rw [getElem_cells, List.getElem_map, List.getElem_range]

def toEquiv (p : Permutation) : Equiv.Perm (Fin p.width) where
  toFun i := ⟨p.apply i, apply_lt i.isLt⟩
  invFun i := ⟨p.inverse.apply i, by
    have := apply_lt (p := p.inverse) (i := i) (by rw [width_inverse]; exact i.isLt)
    rwa [width_inverse] at this⟩
  left_inv i := Fin.ext (p.inverse_apply_apply i)
  right_inv i := Fin.ext (p.apply_inverse_apply i)

theorem isBijection_cells (p : Permutation) : IsBijection p.cells := by
  constructor
  · intro hempty
    have hlength := p.length_cells
    rw [hempty] at hlength
    exact absurd hlength.symm p.width_pos.ne'
  · refine ⟨(finCongr p.length_cells).permCongr.symm p.toEquiv, fun i => ?_⟩
    exact p.getElem_cells i.isLt

theorem map_ofNat_map_toNat {v : List Int} (h : ∀ x ∈ v, 0 ≤ x) :
    (v.map Int.toNat).map Int.ofNat = v := by
  rw [List.map_map]
  conv_rhs => rw [← List.map_id v]
  exact List.map_congr_left fun x hx => Int.toNat_of_nonneg (h x hx)

theorem nonneg_of_vectorFault? {v : List Int} (h : vectorFault? v = none) : ∀ x ∈ v, 0 ≤ x := by
  unfold vectorFault? at h
  split at h
  · cases h
  · exact fun x hx => ((fault?_eq_none (by simp) h).1 x hx).1

theorem exists_ofVector_iff {v : List Int} :
    (∃ p, ofVector v = .ok p) ↔ vectorFault? v = none := by
  unfold ofVector
  split
  · rename_i note h
    rw [h]
    exact iff_of_false (by rintro ⟨p, hp⟩; cases hp) (by simp)
  · rename_i h
    exact iff_of_true ⟨_, rfl⟩ h

theorem ofVector_cells (p : Permutation) : ofVector p.cells = .ok p := by
  have hlength : p.vector.length = p.width := by simp [vector, width]
  obtain ⟨q, hq, himages⟩ := ofVector_of_perm (l := p.vector)
    (by rw [hlength]; exact p.width_pos) (by rw [hlength]; exact p.bijective)
  have hpq : q = p := Permutation.ext (himages.trans Array.toArray_toList)
  rw [cells, hq, hpq]

theorem ofVector_eq_ok_iff {v : List Int} {p : Permutation} :
    ofVector v = .ok p ↔ p.cells = v := by
  constructor
  · intro h
    have hnone := exists_ofVector_iff.mp ⟨p, h⟩
    unfold ofVector at h
    split at h
    · cases h
    · obtain rfl := Except.ok.inj h
      exact map_ofNat_map_toNat (nonneg_of_vectorFault? hnone)
  · rintro rfl
    exact ofVector_cells p

theorem exists_cells_of_isBijection {v : List Int} (h : IsBijection v) :
    ∃ p : Permutation, p.cells = v := by
  obtain ⟨hne, e, he⟩ := h
  have hget : ∀ i (hi : i < v.length), v[i] = ((e ⟨i, hi⟩).val : Int) := fun i hi => he ⟨i, hi⟩
  have hnonneg : ∀ x ∈ v, 0 ≤ x := by
    intro x hx
    obtain ⟨i, hi, rfl⟩ := List.mem_iff_getElem.mp hx
    rw [hget i hi]
    exact Int.natCast_nonneg _
  have hcell : ∀ i (hi : i < (v.map Int.toNat).length),
      (v.map Int.toNat)[i] = (e ⟨i, by simpa using hi⟩).val := by
    intro i hi
    rw [List.getElem_map, hget, Int.toNat_natCast]
  have hnodup : (v.map Int.toNat).Nodup := by
    rw [List.nodup_iff_injective_get]
    intro i j hij
    have hsame := (hcell i i.isLt).symm.trans (hij.trans (hcell j j.isLt))
    exact Fin.ext (Fin.mk.inj (e.injective (Fin.ext hsame)))
  have hbound : ∀ x ∈ v.map Int.toNat, x < (v.map Int.toNat).length := by
    intro x hx
    obtain ⟨i, hi, rfl⟩ := List.mem_iff_getElem.mp hx
    rw [hcell i hi]
    exact (e _).isLt.trans_eq (List.length_map _).symm
  obtain ⟨p, hp, _⟩ := ofVector_of_perm (by simpa using List.length_pos_iff.mpr hne)
    (perm_range_of_nodup hnodup hbound)
  rw [map_ofNat_map_toNat hnonneg] at hp
  exact ⟨p, ofVector_eq_ok_iff.mp hp⟩

theorem isBijection_iff {v : List Int} : IsBijection v ↔ ∃ p : Permutation, p.cells = v := by
  constructor
  · exact exists_cells_of_isBijection
  · rintro ⟨p, rfl⟩
    exact p.isBijection_cells

/-- The check accepts exactly the bijections: outputs that are in range and do not repeat leave
none out. -/
theorem vectorFault?_eq_none_iff {v : List Int} : vectorFault? v = none ↔ IsBijection v := by
  rw [← exists_ofVector_iff, isBijection_iff]
  exact exists_congr fun _ => ofVector_eq_ok_iff

end Permutation

namespace Cells

variable {v w : List Int}

def read (v : List Int) (i : Int) : Except Failure Int :=
  if 0 ≤ i ∧ i < v.length then .ok (v.getD i.toNat 0) else .error (.overrun (.index i v.length))

def write (v : List Int) (i x : Int) : Except Failure (List Int) :=
  if 0 ≤ i ∧ i < v.length then .ok (v.set i.toNat x)
  else .error (.overrun (.index i v.length))

def writeAll (writes : List (Int × Int)) (v : List Int) : Except Failure (List Int) :=
  writes.foldlM (fun v w => write v w.1 w.2) v

def identity (m : Int) : Except Failure (List Int) :=
  if m ≤ 0 then refuse .invalidWidth []
  else do
    let count ← Storage.reserve m 8
    return (List.range count).map Int.ofNat

def inverse (v : List Int) : Except Failure (List Int) :=
  writeAll (v.zipIdx.map fun w => (w.1, (w.2 : Int))) (List.replicate v.length 0)

def andThen (v w : List Int) : Except Failure (List Int) :=
  if v.length = w.length then v.mapM (read w)
  else refuse .invalidWidth [.composing v.length w.length]

def lift (v : List Int) (m offset : Int) : Except Failure (List Int) :=
  if offset < 0 || m < Word.wrap (offset + v.length) then
    refuse .componentRange [.lifting v.length offset m]
  else do
    writeAll (v.zipIdx.map fun w => (offset + w.2, offset + w.1)) (← identity m)

def moved (v : List Int) : List Nat := (v.zipIdx.filter fun w => w.1 != w.2).map (·.2)

def trim (v : List Int) : Except Failure (Option (Nat × List Int)) :=
  match moved v with
  | [] => .ok none
  | lo :: more => do
    let span ← (List.range (more.getLastD lo - lo + 1)).mapM fun i => read v (lo + i : Nat)
    return some (lo, span.map (· - lo))

theorem write_of_inside {i : Nat} (h : i < v.length) (x : Int) :
    write v i x = .ok (v.set i x) := by
  rw [write, if_pos ⟨Int.natCast_nonneg i, by omega⟩, Int.toNat_natCast]

theorem mapM_eq_ok {β γ : Type} {l : List β} {f : β → Except Failure γ} {g : β → γ}
    (h : ∀ x ∈ l, f x = .ok (g x)) : l.mapM f = .ok (l.map g) := by
  induction l with
  | nil => rfl
  | cons x rest ih =>
    obtain ⟨hx, hrest⟩ := List.forall_mem_cons.mp h
    rw [List.mapM_cons, hx, ok_bind, ih hrest]
    rfl

theorem writeAll_of_inside {writes : List (Nat × Nat)} {cells : Array Nat}
    (h : ∀ w ∈ writes, w.1 < cells.size) :
    writeAll (writes.map fun w => ((w.1 : Int), (w.2 : Int))) (cells.toList.map Int.ofNat) =
      .ok ((scatter writes cells).toList.map Int.ofNat) := by
  induction writes generalizing cells with
  | nil => rfl
  | cons w rest ih =>
    obtain ⟨hw, hrest⟩ := List.forall_mem_cons.mp h
    have hstep : (cells.toList.map Int.ofNat).set w.1 (w.2 : Int) =
        (cells.setIfInBounds w.1 w.2).toList.map Int.ofNat := by
      rw [Array.toList_setIfInBounds, List.map_set]
      rfl
    rw [List.map_cons, writeAll, List.foldlM_cons, write_of_inside (by simpa using hw), ok_bind,
      hstep]
    exact ih (by simpa using hrest)

/-- One write outside ends them all. -/
theorem endsInOverrun_writeAll {writes : List (Int × Int)} {w : Int × Int} (hw : w ∈ writes)
    (hout : ¬ (0 ≤ w.1 ∧ w.1 < v.length)) : EndsInOverrun (writeAll writes v) := by
  induction writes generalizing v with
  | nil => cases hw
  | cons first rest ih =>
    rw [writeAll, List.foldlM_cons, write]
    split
    · rename_i hin
      have hlater : w ∈ rest := (List.mem_cons.mp hw).resolve_left fun he => hout (he ▸ hin)
      exact ih hlater (by simpa using hout)
    · exact ⟨_, rfl, Failure.isOverrun_overrun _⟩

end Cells

/-- An unchecked run ends as the checked one: with a view of its result or with its failure, or
both overrun. -/
def EndsAlike {β γ : Type} (view : β → γ) (x : Except Failure β) (y : Except Failure γ) : Prop :=
  y = x.map view ∨ EndsInOverrun x ∧ EndsInOverrun y

section Alike

variable {β γ β' γ' : Type} {view : β → γ} {view' : β' → γ'} {x : Except Failure β}
  {y : Except Failure γ}

theorem EndsAlike.settled (h : EndsAlike view x y) :
    EndsAlike (Option.map view) (settled x) (settled y) := by
  rcases h with rfl | ⟨hx, hy⟩
  · cases x with
    | ok b => exact .inl rfl
    | error f =>
      obtain ⟨notes, root⟩ := f
      cases root <;> exact .inl rfl
  · exact .inr ⟨hx.settled, hy.settled⟩

theorem EndsAlike.bind {f : β → Except Failure β'} {g : γ → Except Failure γ'}
    (h : EndsAlike view x y) (hnext : ∀ b, EndsAlike view' (f b) (g (view b))) :
    EndsAlike view' (x >>= f) (y >>= g) := by
  rcases h with rfl | ⟨hx, hy⟩
  · cases x with
    | ok b => exact hnext b
    | error f => exact .inl rfl
  · exact .inr ⟨hx.bind f, hy.bind g⟩

/-- What an unchecked run returns is a view of what the checked one returns. -/
theorem EndsAlike.exists_ok (h : EndsAlike view x y) {c : γ} (hy : y = .ok c) :
    ∃ b, x = .ok b ∧ view b = c := by
  rcases h with rfl | ⟨_, f, hf, _⟩
  · cases x with
    | ok b => exact ⟨b, rfl, Except.ok.inj hy⟩
    | error f => cases hy
  · cases hf.symm.trans hy

end Alike

namespace Permutation

theorem cells_one (n : Nat) : (one n).cells = (List.range (n + 1)).map Int.ofNat := by
  simp [cells, vector, one]

theorem identity_unchecked (m : Int) : Cells.identity m = (identity m).map cells := by
  unfold Cells.identity identity
  split
  · rfl
  · rename_i hpos
    cases hr : Storage.reserve m 8 with
    | error f => rfl
    | ok count =>
      have hcount : count - 1 + 1 = count := by
        have := (Storage.reserve_eq_ok hr).1
        omega
      refine congrArg Except.ok ?_
      rw [cells_one, hcount]

theorem zipIdx_cells (p : Permutation) :
    p.cells.zipIdx = p.vector.zipIdx.map fun w => ((w.1 : Int), w.2) := by
  rw [cells, List.zipIdx_map]
  rfl

theorem inverse_unchecked (p : Permutation) : Cells.inverse p.cells = .ok p.inverse.cells := by
  have hin : ∀ w ∈ p.vector.zipIdx, w.1 < (Array.replicate p.images.size 0).size := by
    intro w hw
    rw [Array.size_replicate]
    exact (lt_of_mem_zipIdx hw).1
  have hrun := Cells.writeAll_of_inside hin
  rw [Array.toList_replicate, List.map_replicate] at hrun
  rw [Cells.inverse, zipIdx_cells, List.map_map, length_cells]
  exact hrun

theorem read_cells (p : Permutation) {i : Nat} (h : i < p.width) :
    Cells.read p.cells i = .ok (p.apply i : Int) := by
  have hlt : i < p.cells.length := by rwa [length_cells]
  rw [Cells.read, if_pos ⟨Int.natCast_nonneg i, by omega⟩, Int.toNat_natCast,
    List.getD_eq_getElem _ _ hlt, getElem_cells]

theorem andThen_unchecked (p q : Permutation) :
    Cells.andThen p.cells q.cells = (p.andThen q).map cells := by
  unfold Cells.andThen andThen
  rw [length_cells, length_cells]
  split
  · rename_i h
    have hread : ∀ x ∈ (List.range p.width).map fun i => (p.apply i : Int),
        Cells.read q.cells x = .ok (q.apply x.toNat : Int) := by
      intro x hx
      obtain ⟨i, hi, rfl⟩ := List.mem_map.mp hx
      have hlt : p.apply i < q.width := h ▸ apply_lt (List.mem_range.mp hi)
      rw [read_cells q hlt, Int.toNat_natCast]
    rw [cells_eq_map_range p, Cells.mapM_eq_ok hread]
    refine congrArg Except.ok ?_
    rw [cells_eq_map_range, width_comp, List.map_map]
    refine List.map_congr_left fun i _ => ?_
    rw [comp_apply]
    rfl
  · rfl

theorem scatter_range_eq_raise (p : Permutation) (offset rest : Nat) :
    scatter (p.vector.zipIdx.map fun w => (offset + w.2, offset + w.1))
      (Array.range (offset + p.width + rest)) = (p.raise offset rest).images := by
  have hdistinct : ((p.vector.zipIdx.map fun w => (offset + w.2, offset + w.1)).map
      (·.1)).Nodup := by
    have hkeys : (p.vector.zipIdx.map fun w => (offset + w.2, offset + w.1)).map (·.1) =
        (p.vector.zipIdx.map Prod.snd).map (offset + ·) := by
      rw [List.map_map, List.map_map]
      rfl
    rw [hkeys, List.zipIdx_map_snd]
    exact List.Nodup.map (fun _ _ => Nat.add_left_cancel) List.nodup_range'
  have hsize : (p.raise offset rest).images.size = offset + p.width + rest := width_raise ..
  refine Array.ext (by rw [size_scatter, Array.size_range, hsize]) fun i hi hi' => ?_
  rw [size_scatter, Array.size_range] at hi
  rw [← apply_of_lt hi', raise_apply]
  apply Option.some.inj
  rw [← Array.getElem?_eq_getElem]
  split
  · rename_i hmid
    have hmem : (i, offset + p.apply (i - offset)) ∈
        p.vector.zipIdx.map fun w => (offset + w.2, offset + w.1) :=
      List.mem_map.mpr ⟨(p.apply (i - offset), i - offset),
        mem_zipIdx_vector.mpr ⟨by simp only; omega, rfl⟩, by
          simp only [Prod.mk.injEq, and_true]
          omega⟩
    exact getElem?_scatter_of_mem hdistinct hmem (by simpa using hi)
  · rename_i hout
    rw [getElem?_scatter_of_notMem]
    · simp [hi]
    · intro w hw he
      obtain ⟨x, hx, rfl⟩ := List.mem_map.mp hw
      have := (lt_of_mem_zipIdx hx).2
      simp only at he
      omega

theorem liftWrites_cells (p : Permutation) (offset : Nat) :
    (p.cells.zipIdx.map fun w => ((offset : Int) + w.2, (offset : Int) + w.1)) =
      (p.vector.zipIdx.map fun w => (offset + w.2, offset + w.1)).map
        fun w => ((w.1 : Int), (w.2 : Int)) := by
  rw [zipIdx_cells, List.map_map, List.map_map]
  rfl

theorem writeAll_lift_of_fits (p : Permutation) {m offset : Nat} (h : offset + p.width ≤ m) :
    Cells.writeAll (p.cells.zipIdx.map fun w => ((offset : Int) + w.2, (offset : Int) + w.1))
      ((List.range m).map Int.ofNat) = .ok (p.raise offset (m - (offset + p.width))).cells := by
  have hin : ∀ w ∈ p.vector.zipIdx.map fun w => (offset + w.2, offset + w.1),
      w.1 < (Array.range m).size := by
    intro w hw
    obtain ⟨x, hx, rfl⟩ := List.mem_map.mp hw
    have := (lt_of_mem_zipIdx hx).2
    simp only [Array.size_range]
    omega
  have hrun := Cells.writeAll_of_inside hin
  rw [← liftWrites_cells, Array.toList_range] at hrun
  have hm : m = offset + p.width + (m - (offset + p.width)) := by omega
  refine hrun.trans (congrArg Except.ok ?_)
  nth_rewrite 1 [hm]
  rw [scatter_range_eq_raise]
  rfl

theorem endsInOverrun_writeAll_lift (p : Permutation) {m offset : Nat} (h : m < offset + p.width) :
    EndsInOverrun (Cells.writeAll
      (p.cells.zipIdx.map fun w => ((offset : Int) + w.2, (offset : Int) + w.1))
      ((List.range m).map Int.ofNat)) := by
  have hpos := p.width_pos
  have hlast : (p.apply (p.width - 1), p.width - 1) ∈ p.vector.zipIdx :=
    mem_zipIdx_vector.mpr ⟨Nat.sub_lt hpos Nat.one_pos, rfl⟩
  rw [liftWrites_cells]
  refine Cells.endsInOverrun_writeAll (List.mem_map_of_mem (List.mem_map_of_mem hlast)) ?_
  simp only [List.length_map, List.length_range]
  omega

theorem lift_unchecked (p : Permutation) (m offset : Int) :
    EndsAlike cells (p.lift m offset) (Cells.lift p.cells m offset) := by
  unfold Cells.lift lift
  rw [length_cells]
  split
  · exact .inl rfl
  · rename_i hstart
    have hnonneg : 0 ≤ offset := by
      simp only [Bool.or_eq_true, decide_eq_true_eq, not_or, Int.not_lt] at hstart
      exact hstart.1
    obtain ⟨offset, rfl⟩ := Int.eq_ofNat_of_zero_le hnonneg
    unfold Cells.identity
    split
    · exact .inl rfl
    · cases hr : Storage.reserve m 8 with
      | error f => exact .inl rfl
      | ok count =>
        obtain ⟨rfl, _⟩ := Storage.reserve_eq_ok hr
        rw [ok_bind, ok_bind]
        change EndsAlike cells (if _ then _ else _) (Cells.writeAll _ ((List.range count).map _))
        split
        · exact .inl (p.writeAll_lift_of_fits (by omega))
        · exact .inr ⟨⟨_, rfl, Failure.isOverrun_overrun _⟩,
            p.endsInOverrun_writeAll_lift (by omega)⟩

theorem moved_cells (p : Permutation) : Cells.moved p.cells = p.moved := by
  have hzip : p.cells.zipIdx = (List.range p.width).map fun i => ((p.apply i : Int), i) := by
    apply List.ext_getElem
    · simp
    · intro i _ _
      simp [getElem_cells]
  rw [Cells.moved, hzip, List.filter_map, List.map_map, moved]
  have hsame : ((fun w : Int × Nat => w.1 != w.2) ∘ fun i => ((p.apply i : Int), i)) =
      fun i => p.apply i != i := by
    funext i
    simp [bne, Bool.beq_eq_decide_eq]
  rw [hsame]
  exact List.map_id _

theorem trim_unchecked (p : Permutation) :
    Cells.trim p.cells = .ok (p.trim.map fun t => (t.1, t.2.cells)) := by
  rw [Cells.trim, moved_cells]
  cases ht : p.trim with
  | none =>
    have hnone : p.moved = [] := List.eq_nil_iff_forall_not_mem.mpr fun i hi =>
      (mem_moved.mp hi).2 (isIdentity_iff.mp (trim_eq_none ht) i)
    rw [hnone]
    rfl
  | some found =>
    obtain ⟨lo, core⟩ := found
    obtain ⟨more, hmoved, hend⟩ := moved_of_trim ht
    obtain ⟨hfit, hraise⟩ := trim_eq_some ht
    have hcount : more.getLastD lo - lo + 1 = core.width := by
      have := core.width_pos
      omega
    have hread : ∀ i ∈ List.range core.width,
        Cells.read p.cells (lo + i : Nat) = .ok ((lo + core.apply i : Nat) : Int) := by
      intro i hi
      have hi := List.mem_range.mp hi
      rw [read_cells p (by omega)]
      conv_lhs => rw [← hraise, raise_apply, if_pos ⟨by omega, by omega⟩, Nat.add_sub_cancel_left]
    rw [hmoved]
    simp only
    rw [hcount, Cells.mapM_eq_ok hread]
    refine congrArg (fun l => Except.ok (some (lo, l))) ?_
    rw [List.map_map, cells_eq_map_range]
    refine List.map_congr_left fun i _ => ?_
    simp

end Permutation

/-- A network whose rewirings are bare vectors. -/
inductive Wiring where
  | device
  | vector (v : List Int)
  | net (width : Nat) (entries : List (Entry Wiring))

theorem Wiring.induction {motive : Wiring → Prop} (device : motive .device)
    (vector : ∀ v, motive (.vector v))
    (net : ∀ width entries, (∀ e ∈ entries, motive e.item) → motive (.net width entries))
    (w : Wiring) : motive w :=
  @Wiring.rec motive (fun entries => ∀ e ∈ entries, motive e.item) (fun e => motive e.item)
    device vector net nofun (fun _ _ he hrest => List.forall_mem_cons.mpr ⟨he, hrest⟩)
    (fun _ _ h => h) w

mutual

/-- The vector a wiring amounts to, found as for checked components. -/
def Wiring.asVector : Wiring → Except Failure (Option (List Int))
  | .device => .ok none
  | .vector v => .ok (some v)
  | .net width entries => do
    match ← settled (Cells.identity width) with
    | none => return none
    | some v => entriesVector width entries v

def entriesVector (width : Nat) :
    List (Entry Wiring) → List Int → Except Failure (Option (List Int))
  | [], acc => .ok (some acc)
  | ⟨offset, item⟩ :: rest, acc => do
    match ← item.asVector with
    | none => return none
    | some v =>
      match ← settled (Cells.lift v width offset) with
      | none => return none
      | some lifted =>
        match ← settled (Cells.andThen acc lifted) with
        | none => return none
        | some next => entriesVector width rest next

end

mutual

/-- The vectors at the leaves. -/
def Wiring.vectors : Wiring → List (List Int)
  | .device => []
  | .vector v => [v]
  | .net _ entries => entriesVectors entries

def entriesVectors : List (Entry Wiring) → List (List Int)
  | [] => []
  | ⟨_, item⟩ :: rest => item.vectors ++ entriesVectors rest

end

section Unchecked

variable {α : Type}

mutual

def Component.unchecked : Component α → Wiring
  | .device _ => .device
  | .perm p => .vector p.cells
  | .net _ width entries => .net width (uncheckedEntries entries)

def uncheckedEntries : List (Entry (Component α)) → List (Entry Wiring)
  | [] => []
  | ⟨offset, c⟩ :: rest => ⟨offset, c.unchecked⟩ :: uncheckedEntries rest

end

theorem entriesVector_unchecked {width : Nat} {entries : List (Entry (Component α))}
    (hitem : ∀ e ∈ entries, EndsAlike (Option.map Permutation.cells) e.item.asPermutation
      e.item.unchecked.asVector) (acc : Permutation) :
    EndsAlike (Option.map Permutation.cells) (entriesPermutation width entries acc)
      (entriesVector width (uncheckedEntries entries) acc.cells) := by
  induction entries generalizing acc with
  | nil =>
    rw [entriesPermutation, uncheckedEntries, entriesVector]
    exact .inl rfl
  | cons e rest ih =>
    rw [entriesPermutation, uncheckedEntries, entriesVector]
    refine (hitem e List.mem_cons_self).bind fun found => ?_
    cases found with
    | none => exact .inl rfl
    | some p =>
      refine (p.lift_unchecked width e.offset).settled.bind fun found => ?_
      cases found with
      | none => exact .inl rfl
      | some lifted =>
        refine (EndsAlike.settled (.inl (acc.andThen_unchecked lifted))).bind fun found => ?_
        cases found with
        | none => exact .inl rfl
        | some next => exact ih (List.forall_mem_of_forall_mem_cons hitem) next

theorem asVector_unchecked (c : Component α) :
    EndsAlike (Option.map Permutation.cells) c.asPermutation c.unchecked.asVector := by
  induction c using Component.induction with
  | device d =>
    rw [Component.asPermutation, Component.unchecked, Wiring.asVector]
    exact .inl rfl
  | perm p =>
    rw [Component.asPermutation, Component.unchecked, Wiring.asVector]
    exact .inl rfl
  | net name width entries ih =>
    rw [Component.asPermutation, Component.unchecked, Wiring.asVector]
    refine (EndsAlike.settled (.inl (Permutation.identity_unchecked width))).bind fun found => ?_
    cases found with
    | none => exact .inl rfl
    | some one => exact entriesVector_unchecked ih one

end Unchecked

theorem entriesVector_exists_cells {width : Nat} {entries : List (Entry Wiring)}
    (hitem : ∀ e ∈ entries, (∀ v ∈ e.item.vectors, ∃ p : Permutation, p.cells = v) →
      ∀ {v : List Int}, e.item.asVector = .ok (some v) → ∃ p : Permutation, p.cells = v)
    (hw : ∀ v ∈ entriesVectors entries, ∃ p : Permutation, p.cells = v) {acc : Permutation}
    {v : List Int} (h : entriesVector width entries acc.cells = .ok (some v)) :
    ∃ p : Permutation, p.cells = v := by
  induction entries generalizing acc with
  | nil =>
    rw [entriesVector] at h
    exact ⟨acc, Option.some.inj (Except.ok.inj h)⟩
  | cons e rest ih =>
    rw [entriesVectors, List.forall_mem_append] at hw
    rw [entriesVector] at h
    obtain ⟨found, hfound, h⟩ := bind_eq_ok h
    cases found with
    | none => cases h
    | some u =>
      obtain ⟨q, rfl⟩ := hitem e List.mem_cons_self hw.1 hfound
      obtain ⟨found, hlift, h⟩ := bind_eq_ok h
      cases found with
      | none => cases h
      | some lifted =>
        obtain ⟨lifted, _, rfl⟩ := (q.lift_unchecked width e.offset).exists_ok
          (settled_eq_some hlift)
        obtain ⟨found, hthen, h⟩ := bind_eq_ok h
        cases found with
        | none => cases h
        | some next =>
          obtain ⟨next, _, rfl⟩ := EndsAlike.exists_ok (.inl (acc.andThen_unchecked lifted))
            (settled_eq_some hthen)
          exact ih (List.forall_mem_of_forall_mem_cons hitem) hw.2 h

/-- A wiring of cells of permutations amounts to the cells of a permutation, if to anything. -/
theorem Wiring.exists_cells {w : Wiring} (hw : ∀ v ∈ w.vectors, ∃ p : Permutation, p.cells = v)
    {v : List Int} (h : w.asVector = .ok (some v)) : ∃ p : Permutation, p.cells = v := by
  induction w using Wiring.induction generalizing v with
  | device =>
    rw [Wiring.asVector] at h
    cases h
  | vector u =>
    rw [Wiring.asVector] at h
    obtain rfl := Option.some.inj (Except.ok.inj h)
    exact hw u (by rw [Wiring.vectors]; exact List.mem_singleton_self u)
  | net width entries ih =>
    rw [Wiring.vectors] at hw
    rw [Wiring.asVector] at h
    obtain ⟨found, hone, h⟩ := bind_eq_ok h
    cases found with
    | none => cases h
    | some one =>
      obtain ⟨p, _, rfl⟩ := EndsAlike.exists_ok (.inl (Permutation.identity_unchecked width))
        (settled_eq_some hone)
      exact entriesVector_exists_cells ih hw h

/-- The vectors that sequences of calls return: only the first kind of call checks its vector. -/
inductive Reached : List Int → Prop where
  | new {v : List Int} : Permutation.vectorFault? v = none → Reached v
  | identity {m : Int} {v : List Int} : Cells.identity m = .ok v → Reached v
  | inverse {u v : List Int} : Reached u → Cells.inverse u = .ok v → Reached v
  | andThen {t u v : List Int} : Reached t → Reached u → Cells.andThen t u = .ok v → Reached v
  | lift {u v : List Int} {m offset : Int} : Reached u → Cells.lift u m offset = .ok v → Reached v
  | trim {u v : List Int} {lo : Nat} : Reached u → Cells.trim u = .ok (some (lo, v)) → Reached v
  | network {w : Wiring} {v : List Int} : (∀ u ∈ w.vectors, Reached u) →
      w.asVector = .ok (some v) → Reached v

/-- Every call that returns keeps to the cells of permutations. -/
theorem Reached.exists_cells {v : List Int} (h : Reached v) : ∃ p : Permutation, p.cells = v := by
  induction h with
  | new hv =>
    exact Permutation.exists_cells_of_isBijection (Permutation.vectorFault?_eq_none_iff.mp hv)
  | identity hv =>
    obtain ⟨p, _, hp⟩ := EndsAlike.exists_ok (.inl (Permutation.identity_unchecked _)) hv
    exact ⟨p, hp⟩
  | inverse _ hv ih =>
    obtain ⟨p, rfl⟩ := ih
    exact ⟨p.inverse, Except.ok.inj (p.inverse_unchecked.symm.trans hv)⟩
  | andThen _ _ hv iht ihu =>
    obtain ⟨p, rfl⟩ := iht
    obtain ⟨q, rfl⟩ := ihu
    obtain ⟨r, _, hr⟩ := EndsAlike.exists_ok (.inl (p.andThen_unchecked q)) hv
    exact ⟨r, hr⟩
  | lift _ hv ih =>
    obtain ⟨p, rfl⟩ := ih
    obtain ⟨q, _, hq⟩ := (p.lift_unchecked _ _).exists_ok hv
    exact ⟨q, hq⟩
  | trim _ hv ih =>
    obtain ⟨p, rfl⟩ := ih
    have hfound := Except.ok.inj (p.trim_unchecked.symm.trans hv)
    obtain ⟨⟨lo, core⟩, _, hcore⟩ := Option.map_eq_some_iff.mp hfound
    exact ⟨core, (Prod.mk.inj hcore).2⟩
  | network _ hv ih => exact Wiring.exists_cells ih hv

namespace Permutation

/-- The operations on permutations end as the runs on their bare vectors. -/
structure RunsUnchecked (α : Type) : Prop where
  identity (m : Int) : Cells.identity m = (Permutation.identity m).map cells
  inverse (p : Permutation) : Cells.inverse p.cells = .ok p.inverse.cells
  andThen (p q : Permutation) : Cells.andThen p.cells q.cells = (p.andThen q).map cells
  lift (p : Permutation) (m offset : Int) :
    EndsAlike cells (p.lift m offset) (Cells.lift p.cells m offset)
  trim (p : Permutation) : Cells.trim p.cells = .ok (p.trim.map fun t => (t.1, t.2.cells))
  network (c : Component α) :
    EndsAlike (Option.map cells) c.asPermutation c.unchecked.asVector

theorem runsUnchecked (α : Type) : RunsUnchecked α where
  identity := identity_unchecked
  inverse := inverse_unchecked
  andThen := andThen_unchecked
  lift := lift_unchecked
  trim := trim_unchecked
  network := asVector_unchecked

/-- The laws of a group, for three permutations of one width. The identity is returned as long as
its vector has a place in storage. -/
structure GroupLaws (p q r : Permutation) : Prop where
  assoc : ∃ pq qr whole, p.andThen q = .ok pq ∧ q.andThen r = .ok qr ∧
    pq.andThen r = .ok whole ∧ p.andThen qr = .ok whole
  unit : ∃ e, p.andThen e = .ok p ∧ e.andThen p = .ok p ∧ p.andThen p.inverse = .ok e ∧
    p.inverse.andThen p = .ok e ∧ (∀ i, e.apply i = i) ∧
    identity p.width = if p.width * 8 ≤ Storage.limit then .ok e else .error (.overrun .allocation)
  inverse_andThen : ∃ pq, p.andThen q = .ok pq ∧ q.inverse.andThen p.inverse = .ok pq.inverse

theorem andThen_eq_of_apply {p q r : Permutation} (hq : p.width = q.width) (hr : r.width = p.width)
    (h : ∀ i, q.apply (p.apply i) = r.apply i) : p.andThen q = .ok r := by
  rw [andThen_eq hq]
  refine congrArg Except.ok (ext_apply ?_ fun i _ => ?_)
  · rw [width_comp, hr]
  · rw [comp_apply, h]

theorem groupLaws {p q r : Permutation} (hpq : p.width = q.width) (hqr : q.width = r.width) :
    GroupLaws p q r := by
  have hpos := p.width_pos
  have hone : (one (p.width - 1)).width = p.width := by
    rw [width_one]
    omega
  constructor
  · refine ⟨p.comp q hpq, q.comp r hqr, (p.comp q hpq).comp r (by rw [width_comp]; omega),
      andThen_eq hpq, andThen_eq hqr, andThen_eq _, ?_⟩
    apply andThen_eq_of_apply
    · rw [width_comp, hpq]
    · rw [width_comp, width_comp]
    · intro i
      rw [comp_apply, comp_apply, comp_apply]
  · refine ⟨one (p.width - 1), ?_, ?_, ?_, ?_, one_apply _, ?_⟩
    · exact andThen_eq_of_apply hone.symm rfl fun i => one_apply _ _
    · exact andThen_eq_of_apply hone hone.symm fun i => by rw [one_apply]
    · exact andThen_eq_of_apply p.width_inverse.symm hone fun i => by
        rw [inverse_apply_apply, one_apply]
    · refine andThen_eq_of_apply p.width_inverse ?_ fun i => by
        rw [apply_inverse_apply, one_apply]
      rw [hone, width_inverse]
    · split
      · rename_i hroom
        exact identity_of_le hpos hroom
      · rename_i hroom
        exact identity_overrun (Nat.not_le.mp hroom)
  · refine ⟨p.comp q hpq, andThen_eq hpq, ?_⟩
    apply andThen_eq_of_apply
    · rw [width_inverse, width_inverse, hpq]
    · rw [width_inverse, width_inverse, width_comp, hpq]
    · intro i
      -- both send `i` to the one mode that the composition takes to it
      apply (p.comp q hpq).apply_injective
      rw [apply_inverse_apply, comp_apply, apply_inverse_apply, apply_inverse_apply]

/-- The check accepts exactly the bijections of the positions. Every vector that a sequence of calls
returned is one, though only one kind of call checks; the operations on permutations are these
calls. On one width the permutations form a group. -/
theorem vectors_form_groups (α : Type) :
    (∀ v : List Int, (vectorFault? v = none ↔ IsBijection v) ∧
      ∀ p, ofVector v = .ok p ↔ p.cells = v) ∧
    RunsUnchecked α ∧
    (∀ v, Reached v → IsBijection v ∧ vectorFault? v = none ∧ ∃ p, ofVector v = .ok p) ∧
    ∀ p q r : Permutation, p.width = q.width → q.width = r.width → GroupLaws p q r := by
  refine ⟨fun v => ⟨vectorFault?_eq_none_iff, fun p => ofVector_eq_ok_iff⟩, runsUnchecked α,
    fun v hv => ?_, fun p q r => groupLaws⟩
  obtain ⟨p, rfl⟩ := hv.exists_cells
  have hnone := vectorFault?_eq_none_iff.mpr p.isBijection_cells
  exact ⟨p.isBijection_cells, hnone, exists_ofVector_iff.mpr hnone⟩

theorem vectors_form_groups_nested :
    ∃ w : Wiring, w.vectors = [[1, 0], [2, 0, 1]] ∧ w.asVector = .ok (some [3, 0, 1, 2]) ∧
      Reached [3, 0, 1, 2] ∧ IsBijection [3, 0, 1, 2] ∧ ¬ IsBijection [1, 1, 0] ∧
      ∃ p q : Permutation, p.cells = [2, 0, 1] ∧ q.cells = [1, 0, 2] ∧
        p.andThen q ≠ q.andThen p ∧ GroupLaws p q p.inverse := by
  obtain ⟨haccepts, _, hreached, hgroup⟩ := vectors_form_groups Unit
  let w : Wiring := .net 4 [⟨0, .vector [1, 0]⟩, ⟨1, .net 3 [⟨0, .vector [2, 0, 1]⟩]⟩]
  have hleaves : ∀ v ∈ w.vectors, Reached v := by
    intro v hv
    have hv : v ∈ [[1, 0], [2, 0, 1]] := hv
    simp only [List.mem_cons, List.not_mem_nil, or_false] at hv
    rcases hv with rfl | rfl
    · exact .new (by decide)
    · exact .new (by decide)
  have hv : Reached [3, 0, 1, 2] := .network hleaves rfl
  refine ⟨w, rfl, rfl, hv, (hreached _ hv).1, ?_, ⟨#[2, 0, 1], by decide, by decide⟩,
    ⟨#[1, 0, 2], by decide, by decide⟩, rfl, rfl, by decide +kernel, ?_⟩
  · rw [← (haccepts _).1]
    decide
  · exact hgroup _ _ _ rfl (width_inverse _).symm

end Permutation

end DualRail
