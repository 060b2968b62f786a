/-!
Arrays written cell by cell, and the counting fact behind permutation vectors: `n` distinct numbers
below `n` are all of them.
-/

namespace DualRail

variable {β : Type}

def scatter (writes : List (Nat × β)) (cells : Array β) : Array β :=
  writes.foldl (fun a w => a.setIfInBounds w.1 w.2) cells

@[simp] theorem size_scatter (writes : List (Nat × β)) (cells : Array β) :
    (scatter writes cells).size = cells.size := by
  induction writes generalizing cells with
  | nil => rfl
  | cons w rest ih =>
    show (scatter rest (cells.setIfInBounds w.1 w.2)).size = _
    rw [ih, Array.size_setIfInBounds]

theorem getElem?_scatter_of_notMem {writes : List (Nat × β)} {cells : Array β} {i : Nat}
    (h : ∀ w ∈ writes, w.1 ≠ i) : (scatter writes cells)[i]? = cells[i]? := by
  induction writes generalizing cells with
  | nil => rfl
  | cons w rest ih =>
    show (scatter rest (cells.setIfInBounds w.1 w.2))[i]? = _
    rw [ih fun w' hw' => h w' (List.mem_cons_of_mem _ hw')]
    have : w.1 ≠ i := h w List.mem_cons_self
    rw [Array.getElem?_setIfInBounds_ne this]

theorem getElem?_scatter_of_mem {writes : List (Nat × β)} {cells : Array β} {w : Nat × β}
    (distinct : (writes.map (·.1)).Nodup) (mem : w ∈ writes) (bound : w.1 < cells.size) :
    (scatter writes cells)[w.1]? = some w.2 := by
  induction writes generalizing cells with
  | nil => simp at mem
  | cons head rest ih =>
    show (scatter rest (cells.setIfInBounds head.1 head.2))[w.1]? = _
    rw [List.map_cons, List.nodup_cons] at distinct
    rcases List.mem_cons.mp mem with rfl | mem
    · rw [getElem?_scatter_of_notMem]
      · simp [bound]
      · intro w' hw' eq
        exact distinct.1 (eq ▸ List.mem_map_of_mem hw')
    · exact ih distinct.2 mem (by simpa using bound)

theorem getElem?_scatter_map_const (ks : List Nat) (x : β) (cells : Array β) {k : Nat}
    (bound : k < cells.size) :
    (scatter (ks.map fun i => (i, x)) cells)[k]? = if k ∈ ks then some x else cells[k]? := by
  induction ks generalizing cells with
  | nil => simp [scatter]
  | cons i rest ih =>
    show (scatter (rest.map fun i => (i, x)) (cells.setIfInBounds i x))[k]? = _
    rw [ih _ (by simpa using bound)]
    by_cases eq : i = k
    · subst eq
      simp [bound]
    · rw [Array.getElem?_setIfInBounds_ne eq]
      simp [Ne.symm eq]

theorem length_le_of_nodup {n : Nat} {l : List Nat} (distinct : l.Nodup) (bound : ∀ x ∈ l, x < n) :
    l.length ≤ n ∧ (l.length = n → ∀ x, x < n → x ∈ l) := by
  induction n generalizing l with
  | zero =>
    cases l with
    | nil => simp
    | cons x _ => exact absurd (bound x List.mem_cons_self) (Nat.not_lt_zero x)
  | succ n ih =>
    by_cases top : n ∈ l
    · have rest := ih (l := l.erase n) (distinct.erase n) fun x hx => by
        have := (distinct.mem_erase_iff).mp hx
        have := bound x this.2
        omega
      rw [List.length_erase_of_mem top] at rest
      have pos : 0 < l.length := List.length_pos_of_mem top
      refine ⟨by omega, fun full x hx => ?_⟩
      by_cases eq : x = n
      · exact eq ▸ top
      · exact ((distinct.mem_erase_iff).mp (rest.2 (by omega) x (by omega))).2
    · have rest := ih distinct fun x hx => by
        have := bound x hx
        have : x ≠ n := fun eq => top (eq ▸ hx)
        omega
      refine ⟨by omega, fun full => ?_⟩
      omega

/-- Distinct numbers below their own count are a rearrangement of all of them. -/
theorem perm_range_of_nodup {l : List Nat} (distinct : l.Nodup) (bound : ∀ x ∈ l, x < l.length) :
    l.Perm (List.range l.length) := by
  refine (List.perm_ext_iff_of_nodup distinct List.nodup_range).mpr fun x => ?_
  rw [List.mem_range]
  exact ⟨bound x, (length_le_of_nodup distinct bound).2 rfl x⟩

end DualRail
