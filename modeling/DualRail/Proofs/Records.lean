import DualRail.Proofs.Layout

/-!
The ledger of a layout. Its sources are the zero rails of the qubits and the photons on new modes,
its heralds the counts on the new modes of heralded fragments, both in ascending order as they come;
its conditions are one for each qubit that a postselected fragment acts on. All of it passes the
checks of a processor, so only the two last checks can refuse one.
-/

namespace DualRail

variable {α R : Type}

namespace Placement

def ancillas (p : Placement α R) : List (Ancilla × Int) :=
  p.fragment.ancillas.zip (p.newModes.map Int.ofNat)

def sources (p : Placement α R) : List Source := Ledger.ancillaSources p.ancillas

def heralds (p : Placement α R) : List Herald :=
  if p.fragment.heralded then Ledger.ancillaHeralds p.ancillas else []

def conditions (p : Placement α R) : List Condition :=
  if p.fragment.postSelect then p.operands.map Ledger.onePhoton else []

variable {p : Placement α R}

theorem mem_ancillas {anc : Ancilla} {mode : Int} :
    (anc, mode) ∈ p.ancillas ↔
      ∃ j : Nat, p.fragment.ancillas[j]? = some anc ∧ mode = (p.base + j : Nat) := by
  unfold ancillas
  rw [List.mem_iff_getElem?]
  constructor
  · rintro ⟨j, hj⟩
    rw [List.getElem?_zip_eq_some] at hj
    obtain ⟨ha, hm⟩ := hj
    refine ⟨j, ha, ?_⟩
    obtain ⟨hlt, _⟩ := List.getElem?_eq_some_iff.mp ha
    simp only [newModes, List.getElem?_map, List.getElem?_range' hlt, Option.map_some,
      Option.some.injEq] at hm
    rw [← hm, Nat.one_mul]
    rfl
  · rintro ⟨j, ha, rfl⟩
    refine ⟨j, ?_⟩
    rw [List.getElem?_zip_eq_some]
    refine ⟨ha, ?_⟩
    obtain ⟨hlt, _⟩ := List.getElem?_eq_some_iff.mp ha
    simp only [newModes, List.getElem?_map, List.getElem?_range' hlt, Option.map_some,
      Nat.one_mul]
    rfl

theorem modes_ancillas : p.ancillas.map (·.2) = p.newModes.map Int.ofNat := by
  unfold ancillas
  rw [List.map_snd_zip]
  simp [newModes]

theorem mem_sources {src : Source} :
    src ∈ p.sources ↔ ∃ (j : Nat) (anc : Ancilla), p.fragment.ancillas[j]? = some anc ∧
      0 < anc.photons ∧ src = ⟨(p.base + j : Nat), anc.photons⟩ := by
  unfold sources Ledger.ancillaSources
  rw [List.mem_map]
  constructor
  · rintro ⟨⟨anc, mode⟩, hmem, rfl⟩
    obtain ⟨hmem, hpos⟩ := List.mem_filter.mp hmem
    obtain ⟨j, hj, rfl⟩ := mem_ancillas.mp hmem
    exact ⟨j, anc, hj, of_decide_eq_true hpos, rfl⟩
  · rintro ⟨j, anc, hj, hpos, rfl⟩
    exact ⟨(anc, _), List.mem_filter.mpr ⟨mem_ancillas.mpr ⟨j, hj, rfl⟩, decide_eq_true hpos⟩, rfl⟩

theorem mem_heralds {h : Herald} :
    h ∈ p.heralds ↔ p.fragment.heralded = true ∧ ∃ (j : Nat) (anc : Ancilla),
      p.fragment.ancillas[j]? = some anc ∧ h = ⟨(p.base + j : Nat), anc.herald⟩ := by
  unfold heralds Ledger.ancillaHeralds
  cases p.fragment.heralded with
  | false => simp
  | true =>
    simp only [if_true, List.mem_map, true_and]
    constructor
    · rintro ⟨⟨anc, mode⟩, hmem, rfl⟩
      obtain ⟨j, hj, rfl⟩ := mem_ancillas.mp hmem
      exact ⟨j, anc, hj, rfl⟩
    · rintro ⟨j, anc, hj, rfl⟩
      exact ⟨(anc, _), mem_ancillas.mpr ⟨j, hj, rfl⟩, rfl⟩

theorem mem_conditions {c : Condition} :
    c ∈ p.conditions ↔ p.fragment.postSelect = true ∧
      ∃ q ∈ p.qubits, c = Ledger.onePhoton (ModeSupply.qubit q) := by
  unfold conditions operands
  cases p.fragment.postSelect with
  | false => simp
  | true => simp [eq_comm]

theorem sublist_sources : (p.sources.map (·.mode)).Sublist (p.newModes.map Int.ofNat) := by
  rw [← modes_ancillas, sources, Ledger.ancillaSources, List.map_map]
  exact List.Sublist.map _ List.filter_sublist

theorem sublist_heralds : (p.heralds.map (·.mode)).Sublist (p.newModes.map Int.ofNat) := by
  unfold heralds
  split
  · rw [← modes_ancillas, Ledger.ancillaHeralds, List.map_map]
    exact List.Sublist.refl _
  · exact List.nil_sublist _

end Placement

section Modes

variable [Quantity R] {s : Settings α R} {n base : Nat} {gs : List (Gate R)}
  {ps : List (Placement α R)}

/-- The new modes of a layout follow on each other without a gap. -/
theorem LaysOut.flatMap_newModes (h : LaysOut s n base gs ps) :
    ps.flatMap Placement.newModes =
      List.range' base (ps.map fun p => p.fragment.ancillas.length).sum := by
  induction h with
  | nil => rfl
  | @cons base g gs p ps hlay _ ih =>
    rw [List.flatMap_cons, ih, List.map_cons, List.sum_cons, ← List.range'_append_1,
      Placement.newModes, hlay.base, Placement.stop, hlay.base]

theorem LaysOut.stop_le (h : LaysOut s n base gs ps) : ∀ p ∈ ps, p.stop ≤ endOf base ps := by
  induction h with
  | nil =>
    intro p hp
    cases hp
  | @cons base g gs p ps hlay _ ih =>
    intro p' hp'
    rw [← endOf_cons hlay]
    rcases List.mem_cons.mp hp' with rfl | hp'
    · exact Nat.le_add_right _ _
    · exact ih p' hp'

theorem LaysOut.base_eq (h : LaysOut s n base gs ps) {t : Nat} {p : Placement α R}
    (hp : ps[t]? = some p) : p.base = endOf base (ps.take t) := by
  induction h generalizing t with
  | nil => simp at hp
  | @cons base g gs p' ps hlay _ ih =>
    cases t with
    | zero =>
      obtain rfl := Option.some.inj hp
      exact hlay.base
    | succ t =>
      rw [ih hp, endOf_cons hlay, List.take_succ_cons]

theorem LaysOut.lays (h : LaysOut s n base gs ps) {t : Nat} {g : Gate R}
    (hg : gs[t]? = some g) : ∃ p, ps[t]? = some p ∧ Lays s n (endOf base (ps.take t)) g p ∧
      LaysOut s n base (gs.take t) (ps.take t) := by
  induction h generalizing t with
  | nil => simp at hg
  | @cons base g' gs p' ps hlay hrest ih =>
    cases t with
    | zero =>
      obtain rfl := Option.some.inj hg
      exact ⟨p', rfl, hlay, .nil⟩
    | succ t =>
      obtain ⟨p, hp, hl, hout⟩ := ih hg
      refine ⟨p, hp, ?_, .cons hlay hout⟩
      rw [List.take_succ_cons, ← endOf_cons hlay]
      exact hl

end Modes

namespace Ledger

variable [Quantity R]

theorem sources_recordAll (l : Ledger R) (ps : List (Placement α R)) :
    (l.recordAll ps).sources = l.sources ++ ps.flatMap Placement.sources := by
  induction ps generalizing l with
  | nil => simp [recordAll]
  | cons p ps ih =>
    change ((l.record _ _ _).recordAll ps).sources = _
    rw [ih, List.flatMap_cons, ← List.append_assoc]
    rfl

theorem heralds_recordAll (l : Ledger R) (ps : List (Placement α R)) :
    (l.recordAll ps).heralds = l.heralds ++ ps.flatMap Placement.heralds := by
  induction ps generalizing l with
  | nil => simp [recordAll]
  | cons p ps ih =>
    change ((l.record _ _ _).recordAll ps).heralds = _
    rw [ih, List.flatMap_cons, ← List.append_assoc]
    congr 1
    unfold record Placement.heralds
    cases p.fragment.heralded with
    | true => rfl
    | false => simp

theorem success_recordAll (l : Ledger R) (ps : List (Placement α R)) :
    (l.recordAll ps).success = (ps.map (·.fragment.success)).foldl (· * ·) l.success := by
  induction ps generalizing l with
  | nil => rfl
  | cons p ps ih =>
    change ((l.record _ _ _).recordAll ps).success = _
    rw [ih]
    rfl

theorem mem_addCondition {cs : List Condition} {c d : Condition} :
    d ∈ addCondition cs c ↔ d ∈ cs ∨ d = c := by
  unfold addCondition
  split
  · rename_i h
    have hc : c ∈ cs := by simpa using h
    constructor
    · exact .inl
    · rintro (h | rfl)
      · exact h
      · exact hc
  · simp

theorem nodup_addCondition {cs : List Condition} (h : cs.Nodup) (c : Condition) :
    (addCondition cs c).Nodup := by
  unfold addCondition
  split
  · exact h
  · rename_i hc
    have hc : c ∉ cs := by simpa using hc
    rw [List.nodup_append]
    refine ⟨h, List.nodup_singleton c, ?_⟩
    intro x hx y hy
    obtain rfl := List.mem_singleton.mp hy
    intro he
    exact hc (he ▸ hx)

theorem foldl_addCondition (cs new : List Condition) :
    (∀ d, d ∈ new.foldl addCondition cs ↔ d ∈ cs ∨ d ∈ new) ∧
      (cs.Nodup → (new.foldl addCondition cs).Nodup) := by
  induction new generalizing cs with
  | nil => simp
  | cons c rest ih =>
    obtain ⟨hmem, hnd⟩ := ih (addCondition cs c)
    refine ⟨fun d => ?_, fun h => hnd (nodup_addCondition h c)⟩
    rw [List.foldl_cons, hmem, mem_addCondition, List.mem_cons, or_assoc]

/-- The conditions are those of the placements, each once. -/
theorem conditions_recordAll (l : Ledger R) (ps : List (Placement α R)) :
    (∀ c, c ∈ (l.recordAll ps).conditions ↔
      c ∈ l.conditions ∨ ∃ p ∈ ps, c ∈ p.conditions) ∧
      (l.conditions.Nodup → (l.recordAll ps).conditions.Nodup) := by
  induction ps generalizing l with
  | nil => simp [recordAll]
  | cons p ps ih =>
    have hstep : (l.record p.fragment p.operands (p.newModes.map Int.ofNat)).conditions =
        p.conditions.foldl addCondition l.conditions := by
      unfold record Placement.conditions
      cases p.fragment.postSelect <;> rfl
    obtain ⟨hmem, hnd⟩ := ih (l.record p.fragment p.operands (p.newModes.map Int.ofNat))
    obtain ⟨hm, hn⟩ := foldl_addCondition l.conditions p.conditions
    refine ⟨fun c => ?_, fun h => hnd ?_⟩
    · refine (hmem c).trans ?_
      rw [hstep, hm, or_assoc, List.exists_mem_cons_iff]
    · rw [hstep]
      exact hn h

end Ledger

section Order

variable [Quantity R] {s : Settings α R} {n : Nat} {gs : List (Gate R)}
  {ps : List (Placement α R)}

def ledgerOf (n : Nat) (ps : List (Placement α R)) : Ledger R :=
  (Ledger.ofQubits ((List.range n).map ModeSupply.qubit)).recordAll ps

def sourceModes (n : Nat) (ps : List (Placement α R)) : List Nat :=
  (List.range n).map (2 * ·) ++ List.range' (2 * n) (ps.map fun p => p.fragment.ancillas.length).sum

omit [Quantity R] in
theorem ascending_sourceModes (n : Nat) (ps : List (Placement α R)) :
    (sourceModes n ps).Pairwise (· < ·) ∧ ∀ x ∈ sourceModes n ps, x < endOf (2 * n) ps := by
  constructor
  · rw [sourceModes, List.pairwise_append]
    refine ⟨?_, List.pairwise_lt_range', ?_⟩
    · rw [List.pairwise_map]
      exact List.pairwise_lt_range.imp fun h => by omega
    · intro x hx y hy
      obtain ⟨i, hi, rfl⟩ := List.mem_map.mp hx
      have := List.mem_range.mp hi
      have := (List.mem_range'_1.mp hy).1
      omega
  · intro x hx
    unfold endOf
    rcases List.mem_append.mp hx with hx | hx
    · obtain ⟨i, hi, rfl⟩ := List.mem_map.mp hx
      have := List.mem_range.mp hi
      omega
    · exact (List.mem_range'_1.mp hx).2

omit [Quantity R] in
theorem flatMap_sublist {β γ : Type} {f g : β → List γ} (h : ∀ b, (f b).Sublist (g b))
    (l : List β) : (l.flatMap f).Sublist (l.flatMap g) := by
  induction l with
  | nil => exact List.Sublist.refl _
  | cons b l ih => exact (h b).append ih

theorem LaysOut.sources_sublist (h : LaysOut s n (2 * n) gs ps) :
    ((ledgerOf n ps).sources.map (·.mode)).Sublist ((sourceModes n ps).map Int.ofNat) := by
  rw [ledgerOf, Ledger.sources_recordAll, sourceModes, List.map_append, List.map_append,
    ← h.flatMap_newModes]
  refine List.Sublist.append ?_ ?_
  · rw [Ledger.ofQubits, List.map_map, List.map_map, List.map_map]
    exact List.Sublist.refl _
  · rw [List.map_flatMap, List.map_flatMap]
    exact flatMap_sublist (fun p => p.sublist_sources) ps

theorem LaysOut.heralds_sublist (h : LaysOut s n (2 * n) gs ps) :
    ((ledgerOf n ps).heralds.map (·.mode)).Sublist ((sourceModes n ps).map Int.ofNat) := by
  rw [ledgerOf, Ledger.heralds_recordAll, sourceModes, List.map_append, List.map_append,
    ← h.flatMap_newModes]
  refine List.Sublist.append (List.nil_sublist _) ?_
  rw [List.map_flatMap, List.map_flatMap]
  exact flatMap_sublist (fun p => p.sublist_heralds) ps

omit [Quantity R] in
theorem ascending_of_sublist {modes : List Int}
    (h : modes.Sublist ((sourceModes n ps).map Int.ofNat)) :
    modes.Pairwise (· < ·) ∧ ∀ x ∈ modes, 0 ≤ x ∧ x < endOf (2 * n) ps := by
  obtain ⟨hasc, hlt⟩ := ascending_sourceModes n ps
  constructor
  · refine List.Pairwise.sublist h ?_
    rw [List.pairwise_map]
    exact hasc.imp fun h => Int.ofNat_lt.mpr h
  · intro x hx
    obtain ⟨y, hy, rfl⟩ := List.mem_map.mp (h.subset hx)
    have := hlt y hy
    exact ⟨Int.natCast_nonneg y, Int.ofNat_lt.mpr this⟩

theorem LaysOut.sources_sorted (h : LaysOut s n (2 * n) gs ps) :
    (ledgerOf n ps).sorted.sources = (ledgerOf n ps).sources := by
  apply List.mergeSort_of_pairwise
  have := (ascending_of_sublist h.sources_sublist).1
  rw [List.pairwise_map] at this
  exact this.imp fun h => decide_eq_true (Int.le_of_lt h)

theorem LaysOut.heralds_sorted (h : LaysOut s n (2 * n) gs ps) :
    (ledgerOf n ps).sorted.heralds = (ledgerOf n ps).heralds := by
  apply List.mergeSort_of_pairwise
  have := (ascending_of_sublist h.heralds_sublist).1
  rw [List.pairwise_map] at this
  exact this.imp fun h => decide_eq_true (Int.le_of_lt h)

theorem mem_conditions_ledgerOf {c : Condition} :
    c ∈ (ledgerOf n ps).sorted.conditions ↔ ∃ p ∈ ps, c ∈ p.conditions := by
  refine (List.mergeSort_perm _ _).mem_iff.trans ?_
  rw [ledgerOf, (Ledger.conditions_recordAll _ ps).1]
  simp [Ledger.ofQubits]

omit [Quantity R] in
theorem pairwise_mergeSort_key {β : Type} (key : β → Int) (l : List β) :
    (l.mergeSort fun a b => key a ≤ key b).Pairwise fun a b => key a ≤ key b := by
  refine (List.pairwise_mergeSort ?_ ?_ l).imp fun h => of_decide_eq_true h
  · intro a b c h₁ h₂
    exact decide_eq_true (Int.le_trans (of_decide_eq_true h₁) (of_decide_eq_true h₂))
  · intro a b
    rcases Int.le_total (key a) (key b) with h | h
    · rw [decide_eq_true h, Bool.true_or]
    · rw [decide_eq_true h, Bool.or_true]

/-- The conditions ascend strictly by their first mode, so no two are on the same qubit. -/
theorem conditions_ascending :
    (ledgerOf n ps).sorted.conditions.Pairwise fun c d => c.modes.headD 0 < d.modes.headD 0 := by
  have hnd : (ledgerOf n ps).sorted.conditions.Nodup := by
    refine (List.mergeSort_perm _ _).nodup_iff.mpr ?_
    exact (Ledger.conditions_recordAll _ ps).2 List.nodup_nil
  have hle : (ledgerOf n ps).sorted.conditions.Pairwise
      fun c d => c.modes.headD 0 ≤ d.modes.headD 0 :=
    pairwise_mergeSort_key (fun c : Condition => c.modes.headD 0) _
  refine (hle.and hnd).imp_of_mem fun {c d} hc hd h => ?_
  obtain ⟨p, _, hp⟩ := mem_conditions_ledgerOf.mp hc
  obtain ⟨p', _, hp'⟩ := mem_conditions_ledgerOf.mp hd
  obtain ⟨_, q, _, rfl⟩ := Placement.mem_conditions.mp hp
  obtain ⟨_, q', _, rfl⟩ := Placement.mem_conditions.mp hp'
  have hfirst : ((2 * q : Nat) : Int) ≤ (2 * q' : Nat) := h.1
  have hne : q ≠ q' := fun he => h.2 (by rw [he])
  change ((2 * q : Nat) : Int) < (2 * q' : Nat)
  omega

end Order

end DualRail
