import Mathlib
import DualRail.Compiler.Route
import DualRail.Proofs.Checked
import DualRail.Proofs.PermutationAction

/-!
Routes of blocks. A block of distinct modes below `m` always has a route: the forward vector writes
every mode once and every place once, so it is read as a permutation, and the checks on the block
end, on bijectivity and on the round trip never fire.
-/

namespace DualRail

section Scatter

variable {β γ : Type}

theorem scatter_map (g : β → γ) (writes : List (Nat × β)) (cells : Array β) :
    scatter (writes.map fun w => (w.1, g w.2)) (cells.map g) = (scatter writes cells).map g := by
  induction writes generalizing cells with
  | nil => rfl
  | cons w rest ih =>
    change scatter _ ((cells.map g).setIfInBounds w.1 (g w.2)) = _
    have hset : (cells.map g).setIfInBounds w.1 (g w.2) = (cells.setIfInBounds w.1 w.2).map g := by
      rw [Array.map_setIfInBounds]
    rw [hset, ih]
    rfl

theorem scatter_perm {writes : List (Nat × β)} {cells : Array β}
    (h : (writes.map (·.1)).Perm (List.range cells.size)) :
    (scatter writes cells).toList.Perm (writes.map (·.2)) := by
  have hnd : (writes.map (·.1)).Nodup := h.nodup_iff.mpr List.nodup_range
  have hlt : ∀ w ∈ writes, w.1 < cells.size := fun w hw =>
    List.mem_range.mp (h.mem_iff.mp (List.mem_map_of_mem hw))
  have hlook : (List.range cells.size).map (fun i => (scatter writes cells)[i]?) =
      (scatter writes cells).toList.map some := by
    apply List.ext_getElem
    · simp
    · intro i hi _
      simp
  have hwrite : (writes.map (·.1)).map (fun i => (scatter writes cells)[i]?) =
      (writes.map (·.2)).map some := by
    rw [List.map_map, List.map_map]
    apply List.map_congr_left
    intro w hw
    exact getElem?_scatter_of_mem hnd hw (hlt w hw)
  have hp := h.map fun i => (scatter writes cells)[i]?
  rw [hlook, hwrite] at hp
  exact ((List.map_perm_map_iff (Option.some_injective β)).mp hp).symm

end Scatter

section Forward

variable {m : Nat} {block : List Nat}

theorem badBlockMode?_of_distinct (earlier : List Nat) (hnd : block.Nodup)
    (hlt : ∀ x ∈ block, x < m ∧ x ∉ earlier) :
    badBlockMode? m (earlier.map Int.ofNat) (block.map Int.ofNat) = none := by
  induction block generalizing earlier with
  | nil => rfl
  | cons x rest ih =>
    obtain ⟨hx, hfresh⟩ := hlt x List.mem_cons_self
    rw [List.nodup_cons] at hnd
    have hearlier : (earlier.map Int.ofNat).contains (Int.ofNat x) = false := by
      rw [List.contains_eq_mem, decide_eq_false_iff_not]
      intro hmem
      obtain ⟨y, hy, he⟩ := List.mem_map.mp hmem
      exact hfresh (Int.ofNat.inj he ▸ hy)
    have hok : ¬ ((decide (Int.ofNat x < 0) || decide ((m : Int) ≤ Int.ofNat x) ||
        (earlier.map Int.ofNat).contains (Int.ofNat x)) = true) := by
      rw [hearlier]
      simp only [Int.ofNat_eq_natCast, Bool.or_false, Bool.or_eq_true, decide_eq_true_eq]
      omega
    rw [List.map_cons, badBlockMode?, if_neg hok]
    rw [← List.map_cons]
    apply ih (x :: earlier) hnd.2
    intro y hy
    obtain ⟨hym, hye⟩ := hlt y (List.mem_cons_of_mem _ hy)
    refine ⟨hym, fun hmem => ?_⟩
    rcases List.mem_cons.mp hmem with rfl | hmem
    · exact hnd.1 hy
    · exact hye hmem

theorem foldl_min_le (l : List Nat) (a : Nat) :
    l.foldl Nat.min a ≤ a ∧ ∀ x ∈ l, l.foldl Nat.min a ≤ x := by
  induction l generalizing a with
  | nil => simp
  | cons y rest ih =>
    obtain ⟨h₁, h₂⟩ := ih (Nat.min a y)
    have hay : Nat.min a y ≤ a := Nat.min_le_left a y
    have hyy : Nat.min a y ≤ y := Nat.min_le_right a y
    refine ⟨h₁.trans hay, fun x hx => ?_⟩
    rcases List.mem_cons.mp hx with rfl | hx
    · exact h₁.trans hyy
    · exact h₂ x hx

theorem foldl_min_eq_or_mem (l : List Nat) (a : Nat) :
    l.foldl Nat.min a = a ∨ l.foldl Nat.min a ∈ l := by
  induction l generalizing a with
  | nil => exact .inl rfl
  | cons y rest ih =>
    rw [List.foldl_cons]
    rcases ih (Nat.min a y) with h | h
    · rw [h]
      rcases Nat.le_total a y with hle | hle
      · exact .inl (Nat.min_eq_left hle)
      · exact .inr (List.mem_cons.mpr (.inl (Nat.min_eq_right hle)))
    · exact .inr (List.mem_cons_of_mem _ h)

theorem start_add_length_le {start : Nat} (hnd : block.Nodup) (hlt : ∀ x ∈ block, x < m)
    (hstart : ∀ x ∈ block, start ≤ x) (hle : start ≤ m) : start + block.length ≤ m := by
  have hshift : (block.map (· - start)).Nodup := by
    apply hnd.map_on
    intro x hx y hy he
    have := hstart x hx
    have := hstart y hy
    omega
  have hlen := (length_le_of_nodup (n := m - start) hshift fun y hy => by
    obtain ⟨x, hx, rfl⟩ := List.mem_map.mp hy
    have := hstart x hx
    have := hlt x hx
    omega).1
  rw [List.length_map] at hlen
  omega

def otherModes (m : Nat) (block : List Nat) : List Nat :=
  (List.range m).filter fun u => !block.contains u

theorem append_otherModes_perm (hnd : block.Nodup) (hlt : ∀ x ∈ block, x < m) :
    (block ++ otherModes m block).Perm (List.range m) := by
  have hfilter : ((List.range m).filter fun u => block.contains u).Perm block := by
    rw [List.perm_ext_iff_of_nodup (List.nodup_range.filter _) hnd]
    intro x
    simp only [List.mem_filter, List.mem_range, List.contains_eq_mem, decide_eq_true_eq]
    exact ⟨fun h => h.2, fun h => ⟨hlt x h, h⟩⟩
  exact (hfilter.symm.append_right _).trans (List.filter_append_perm _ _)

theorem length_otherModes (hnd : block.Nodup) (hlt : ∀ x ∈ block, x < m) :
    block.length + (otherModes m block).length = m := by
  have := (append_otherModes_perm hnd hlt).length_eq
  simpa using this

/-- The writes of a forward vector: the block goes to the places from `start` on, and the other
modes fill the places before and after it in order. -/
def forwardWrites (m : Nat) (block : List Nat) (start : Nat) : List (Nat × Nat) :=
  (block.zipIdx.map fun (mode, j) => (mode, start + j)) ++
    (otherModes m block).zipIdx.map fun (mode, r) =>
      (mode, if r < start then r else r + block.length)

/-- The next place after `r` other modes: `r` of them are taken, and from the start of the block on
those of the block as well. -/
def placeAfter (block : List Nat) (start r : Nat) : Nat :=
  if r ≤ start then r else r + block.length

theorem pass_of_mem {start mode : Nat} (s : Filling) (h : mode ∈ block) :
    s.pass block start mode = s := by
  rw [Filling.pass, if_pos (List.contains_iff_mem.mpr h)]

theorem pass_of_notMem {start mode r : Nat} (cells : Array Nat) (h : mode ∉ block) :
    Filling.pass block start ⟨cells, placeAfter block start r⟩ mode =
      ⟨cells.setIfInBounds mode (if r < start then r else r + block.length),
        placeAfter block start (r + 1)⟩ := by
  have hplace : (if placeAfter block start r = start then start + block.length
      else placeAfter block start r) = if r < start then r else r + block.length := by
    unfold placeAfter
    split_ifs <;> omega
  have hnext : (if r < start then r else r + block.length) + 1 =
      placeAfter block start (r + 1) := by
    unfold placeAfter
    split_ifs <;> omega
  rw [Filling.pass, if_neg fun hmem => h (List.contains_iff_mem.mp hmem), ← hnext]
  simp only
  rw [hplace]

/-- The pass over modes writes the others one after the other, `r` of them having been before. -/
theorem foldl_pass (start : Nat) (modes : List Nat) (cells : Array Nat) (r : Nat) :
    (modes.foldl (Filling.pass block start) ⟨cells, placeAfter block start r⟩).cells =
      scatter (((modes.filter fun u => !block.contains u).zipIdx r).map fun (mode, r) =>
        (mode, if r < start then r else r + block.length)) cells := by
  induction modes generalizing cells r with
  | nil => rfl
  | cons mode rest ih =>
    rw [List.foldl_cons]
    by_cases hmem : mode ∈ block
    · rw [pass_of_mem _ hmem, ih, List.filter_cons_of_neg (by simpa using hmem)]
    · rw [pass_of_notMem _ hmem, ih, List.filter_cons_of_pos (by simpa using hmem),
        List.zipIdx_cons, List.map_cons]
      rfl

/-- One pass over all modes amounts to the writes of the forward vector. -/
theorem gather_eq (m : Nat) (block : List Nat) (start : Nat) :
    gather m block start =
      (scatter (forwardWrites m block start) (Array.replicate m 0)).toList := by
  have hzero : placeAfter block start 0 = 0 := if_pos (Nat.zero_le start)
  unfold gather forwardWrites
  simp only
  nth_rewrite 3 [← hzero]
  rw [foldl_pass, scatter, scatter, scatter, List.foldl_append]
  rfl

theorem forwardWrites_cells (m : Nat) (block : List Nat) (start : Nat) :
    (forwardWrites m block start).map (·.1) = block ++ otherModes m block := by
  have hmap : ∀ (l : List Nat) (g : Nat → Nat → Nat),
      (l.zipIdx.map fun w => (w.1, g w.1 w.2)).map (·.1) = l := by
    intro l g
    rw [List.map_map]
    exact List.zipIdx_map_fst 0 l
  unfold forwardWrites
  rw [List.map_append, hmap block fun _ j => start + j,
    hmap _ fun _ r => if r < start then r else r + block.length]

theorem forwardWrites_places {start : Nat} (hnd : block.Nodup) (hlt : ∀ x ∈ block, x < m)
    (hend : start + block.length ≤ m) :
    ((forwardWrites m block start).map (·.2)).Perm (List.range m) := by
  have hmap : ∀ (l : List Nat) (g : Nat → Nat),
      (l.zipIdx.map fun w => (w.1, g w.2)).map (·.2) = (List.range l.length).map g := by
    intro l g
    rw [List.map_map]
    have : ((fun w : Nat × Nat => w.2) ∘ fun w : Nat × Nat => (w.1, g w.2)) = g ∘ Prod.snd := rfl
    rw [this, ← List.map_map, List.zipIdx_map_snd, List.range_eq_range']
  have hlen := length_otherModes hnd hlt
  have hrest : (otherModes m block).length = start + (m - (start + block.length)) := by omega
  have hgap : (List.range (start + (m - (start + block.length)))).map
      (fun r => if r < start then r else r + block.length) =
      List.range start ++ List.range' (start + block.length) (m - (start + block.length)) := by
    rw [List.range_add, List.map_append]
    congr 1
    · conv_rhs => rw [← List.map_id (List.range start)]
      apply List.map_congr_left
      intro r hr
      simp [List.mem_range.mp hr]
    · rw [List.map_map, List.range'_eq_map_range]
      apply List.map_congr_left
      intro r _
      simp only [Function.comp_apply]
      rw [if_neg (by omega)]
      omega
  have hvalues : (forwardWrites m block start).map (·.2) =
      (List.range block.length).map (start + ·) ++ (List.range start ++
        List.range' (start + block.length) (m - (start + block.length))) := by
    unfold forwardWrites
    rw [List.map_append, hmap block fun j => start + j,
      hmap _ fun r => if r < start then r else r + block.length]
    rw [hrest, hgap]
  have hm : m = start + block.length + (m - (start + block.length)) := by omega
  rw [hvalues]
  conv_rhs => rw [hm, Permutation.range_split]
  rw [← List.append_assoc]
  exact List.perm_append_comm.append_right _

/-- Distinct modes below `m` pass all checks on a block. -/
theorem blockStart_eq (hne : block ≠ []) (hnd : block.Nodup) (hlt : ∀ x ∈ block, x < m)
    (hend : block.foldl Nat.min m + block.length ≤ m) :
    blockStart m (block.map Int.ofNat) = .ok (block.foldl Nat.min m) := by
  have hsize : ¬ (((block.map Int.ofNat).isEmpty ||
      decide ((m : Int) < (block.map Int.ofNat).length)) = true) := by
    rw [List.length_map]
    simp only [Bool.or_eq_true, List.isEmpty_iff, List.map_eq_nil_iff, decide_eq_true_eq]
    rintro (h | h)
    · exact hne h
    · omega
  have hbad : badBlockMode? m [] (block.map Int.ofNat) = none :=
    badBlockMode?_of_distinct [] hnd fun x hx => ⟨hlt x hx, List.not_mem_nil⟩
  unfold blockStart
  rw [if_neg hsize, hbad]
  simp only [Permutation.map_toNat_map_ofNat, List.length_map, Int.toNat_natCast]
  rw [if_neg (by omega)]

theorem forwardVector_eq (hne : block ≠ []) (hnd : block.Nodup) (hlt : ∀ x ∈ block, x < m) :
    ∃ start vector, forwardVector m (block.map Int.ofNat) = .ok ⟨vector, start⟩ ∧
      start + block.length ≤ m ∧ start ∈ block ∧ (∀ x ∈ block, start ≤ x) ∧
      vector = (scatter (forwardWrites m block start) (Array.replicate m 0)).toList := by
  obtain ⟨hstart, hleast⟩ := foldl_min_le block m
  have hend := start_add_length_le hnd hlt hleast hstart
  have hmem : block.foldl Nat.min m ∈ block := by
    refine (foldl_min_eq_or_mem block m).resolve_left fun htop => ?_
    obtain ⟨x, hx⟩ := List.exists_mem_of_ne_nil block hne
    exact absurd (htop ▸ hleast x hx) (Nat.not_le.mpr (hlt x hx))
  refine ⟨block.foldl Nat.min m, _, ?_, hend, hmem, hleast, gather_eq ..⟩
  rw [forwardVector, blockStart_eq hne hnd hlt hend, ok_bind, Permutation.map_toNat_map_ofNat]
  rfl

theorem forwardVector_perm {start : Nat} (hnd : block.Nodup) (hlt : ∀ x ∈ block, x < m)
    (hend : start + block.length ≤ m) :
    (scatter (forwardWrites m block start) (Array.replicate m 0)).toList.Perm (List.range m) := by
  refine (scatter_perm ?_).trans (forwardWrites_places hnd hlt hend)
  rw [forwardWrites_cells, Array.size_replicate]
  exact append_otherModes_perm hnd hlt

theorem getElem?_forward (start : Nat) {j x : Nat} (hnd : block.Nodup) (hlt : ∀ x ∈ block, x < m)
    (hj : block[j]? = some x) :
    (scatter (forwardWrites m block start) (Array.replicate m 0))[x]? = some (start + j) := by
  have hx : x < m := hlt x (List.mem_of_getElem? hj)
  have hcells : ((forwardWrites m block start).map (·.1)).Nodup := by
    rw [forwardWrites_cells]
    exact (append_otherModes_perm hnd hlt).nodup_iff.mpr List.nodup_range
  have hmem : (x, start + j) ∈ forwardWrites m block start := by
    unfold forwardWrites
    apply List.mem_append_left
    exact List.mem_map.mpr ⟨(x, j), List.mk_mem_zipIdx_iff_getElem?.mpr hj, rfl⟩
  exact getElem?_scatter_of_mem hcells hmem (by simpa using hx)

end Forward

structure Route.Carries (r : Route) (m : Nat) (block : List Nat) : Prop where
  start_add_le : r.start + block.length ≤ m
  start_le : ∀ x ∈ block, r.start ≤ x
  width_forward : r.forward.width = m
  inverse_eq : r.inverse = r.forward.inverse
  forward_apply : ∀ j x, block[j]? = some x → r.forward.apply x = r.start + j

/-- A forward vector that lists all places is read as a permutation, and the round trip closes. -/
theorem planRoute_of_forwardVector {m start : Nat} {block : List Int} {vector : List Nat}
    (hf : forwardVector m block = .ok ⟨vector, start⟩) (hm : 0 < m)
    (hp : vector.Perm (List.range m)) :
    ∃ p : Permutation, p.images = vector.toArray ∧
      planRoute m block = .ok ⟨block, start, p, p.inverse⟩ := by
  have hlen : vector.length = m := by
    rw [hp.length_eq, List.length_range]
  obtain ⟨p, hread, himages⟩ := Permutation.ofVector_of_perm (by rw [hlen]; exact hm)
    (by rw [hlen]; exact hp)
  refine ⟨p, himages, ?_⟩
  rw [planRoute, hf, ok_bind]
  unfold Forward.route
  simp only [bind, Except.bind, hread, noting_ok,
    Permutation.andThen_eq (Permutation.width_inverse p).symm, p.comp_inverse_isIdentity]
  rfl

theorem planRoute_eq {m : Nat} {block : List Nat} (hne : block ≠ []) (hnd : block.Nodup)
    (hlt : ∀ x ∈ block, x < m) :
    ∃ r, planRoute m (block.map Int.ofNat) = .ok r ∧ r.Carries m block := by
  obtain ⟨start, vector, hf, hend, _, hleast, rfl⟩ := forwardVector_eq hne hnd hlt
  have hpos : 0 < m := by
    cases block with
    | nil => exact absurd rfl hne
    | cons x _ => exact Nat.zero_lt_of_lt (hlt x List.mem_cons_self)
  obtain ⟨p, himages, hplan⟩ :=
    planRoute_of_forwardVector hf hpos (forwardVector_perm hnd hlt hend)
  have hwidth : p.width = m := by
    rw [← p.size_images, himages, List.size_toArray, Array.length_toList, size_scatter,
      Array.size_replicate]
  refine ⟨_, hplan, hend, hleast, hwidth, rfl, ?_⟩
  intro j x hj
  have hg := getElem?_forward start hnd hlt hj
  change p.images.getD x x = start + j
  rw [himages, Array.toArray_toList, Array.getD_eq_getD_getElem?, hg]
  rfl

theorem storedForward_of_le {m : Nat} (hm : m * 8 ≤ Storage.limit) (block : List Int) :
    storedForward m block = forwardVector m block := by
  rw [storedForward, forwardVector, Storage.reserve_of_le hm]
  rfl

theorem storedRoute_of_le {m : Nat} (hm : m * 8 ≤ Storage.limit) (block : List Int) :
    storedRoute m block = planRoute m block := by
  rw [storedRoute, planRoute, storedForward_of_le hm]

/-- A block that has a route overruns without room for the vector. -/
theorem storedRoute_overrun {m : Nat} {block : List Int} {r : Route}
    (hr : planRoute m block = .ok r) (hm : Storage.limit < m * 8) :
    storedRoute m block = .error (.overrun .allocation) := by
  obtain ⟨f, hf, _⟩ := bind_eq_ok hr
  obtain ⟨start, hstart, _⟩ := bind_eq_ok hf
  rw [storedRoute, storedForward, hstart, ok_bind, Storage.reserve_eq_error hm]
  rfl

theorem checkOperandsFrom_eq_ok {n : Int} {earlier qubits : List Int}
    (h : checkOperandsFrom n earlier qubits = .ok ()) :
    (∀ q ∈ qubits, 0 ≤ q ∧ q < n ∧ q ∉ earlier) ∧ qubits.Nodup := by
  induction qubits generalizing earlier with
  | nil => simp
  | cons q rest ih =>
    rw [checkOperandsFrom] at h
    split at h
    · cases h
    · rename_i hrange
      split at h
      · cases h
      · rename_i hnew
        simp only [Bool.or_eq_true, decide_eq_true_eq, not_or, Int.not_lt, Int.not_le] at hrange
        rw [List.contains_eq_mem, decide_eq_true_eq] at hnew
        obtain ⟨hrest, hnd⟩ := ih h
        constructor
        · intro x hx
          rcases List.mem_cons.mp hx with rfl | hx
          · exact ⟨hrange.1, hrange.2, hnew⟩
          · obtain ⟨h₁, h₂, h₃⟩ := hrest x hx
            exact ⟨h₁, h₂, fun hm => h₃ (List.mem_cons_of_mem _ hm)⟩
        · exact List.nodup_cons.mpr ⟨fun hm => (hrest q hm).2.2 List.mem_cons_self, hnd⟩

end DualRail
