import DualRail.Proofs.FragmentValidity
import DualRail.Proofs.Routing

/-!
Valid fragments and their blocks. A valid fragment has as many free positions as ancillas, and its
operand pairs and free positions are all its positions, each once. So the block of a placed
fragment lists the rails of its operands and its new modes, each once, every one at its position.
-/

namespace DualRail

namespace Fragment

variable {α R : Type} [Quantity R]

/-- What `Fragment.validate` has checked of a fragment with circuit `c`. -/
structure Valid (f : Fragment α R) (c : Network α) : Prop where
  circuit : f.circuit = some c
  even : f.ancillas.length % 2 = 0
  width : c.width = 2 * f.qubitOffsets.length + f.ancillas.length
  inside : ∀ off ∈ f.qubitOffsets, 0 ≤ off ∧ off + 2 ≤ c.width
  apart : f.qubitOffsets.Pairwise fun a b => a + 2 ≤ b ∨ b + 2 ≤ a
  counts : ∀ a ∈ f.ancillas, 0 ≤ a.photons ∧ 0 ≤ a.herald
  success : Quantity.le f.success 0 = false ∧ Quantity.lt 1 f.success = false

theorem checkOffsets_eq_ok {name : String} {width i : Nat} {earlier offs : List Int}
    (h : checkOffsets name width i earlier offs = .ok ()) :
    (∀ off ∈ offs, Fits width earlier off) ∧
      offs.Pairwise fun a b => a + 2 ≤ b ∨ b + 2 ≤ a := by
  induction offs generalizing i earlier with
  | nil => simp
  | cons off rest ih =>
    have hfits := fits_of_checkOffsets h
    rw [checkOffsets_of_fits hfits] at h
    obtain ⟨hrest, hpw⟩ := ih h
    refine ⟨List.forall_mem_cons.mpr ⟨hfits, fun x hx => ?_⟩,
      List.pairwise_cons.mpr ⟨fun x hx => (hrest x hx).2.2 off List.mem_cons_self, hpw⟩⟩
    obtain ⟨hlow, hhigh, hbeside⟩ := hrest x hx
    exact ⟨hlow, hhigh, fun e he => hbeside e (List.mem_cons_of_mem _ he)⟩

theorem checkAncillas_eq_ok {name : String} {i : Nat} {ancillas : List Ancilla}
    (h : checkAncillas name i ancillas = .ok ()) :
    ∀ a ∈ ancillas, 0 ≤ a.photons ∧ 0 ≤ a.herald := by
  rcases @checkAncillas_outcome name i ancillas with ⟨hcounts, -⟩ | ⟨-, notes, hrefused⟩
  · exact hcounts
  · rw [hrefused] at h
    cases h

theorem valid_of_validate {f : Fragment α R} {arity : Int} (h : f.validate arity = .ok ()) :
    ∃ c, f.Valid c ∧ (f.qubitOffsets.length : Int) = arity := by
  unfold validate at h
  split at h
  · cases h
  · rename_i c hc
    split at h
    · cases h
    · rename_i harity
      split at h
      · cases h
      · rename_i heven
        simp only at h
        split at h
        · cases h
        · rename_i hwidth
          obtain ⟨_, hoff, h⟩ := bind_eq_ok h
          obtain ⟨_, hanc, h⟩ := bind_eq_ok h
          obtain ⟨hin, hpw⟩ := checkOffsets_eq_ok hoff
          split at h
          · cases h
          · rename_i hsucc
            rw [Bool.or_eq_true, not_or, Bool.not_eq_true, Bool.not_eq_true] at hsucc
            exact ⟨c, ⟨hc, by omega, by omega, fun off ho => ⟨(hin off ho).1, (hin off ho).2.1⟩,
              hpw, checkAncillas_eq_ok hanc, hsucc⟩, by omega⟩

section Positions

variable {f : Fragment α R} {c : Network α}

theorem Valid.width_eq (h : f.Valid c) : f.width = c.width := by
  simp [Fragment.width, h.circuit]

/-- The positions of the operand pairs, in operand order. -/
def operandPositions (f : Fragment α R) : List Nat :=
  f.qubitOffsets.flatMap fun off => [off.toNat, off.toNat + 1]

theorem Valid.operandPositions_lt (h : f.Valid c) : ∀ pos ∈ f.operandPositions, pos < f.width := by
  intro pos hpos
  obtain ⟨off, hoff, hp⟩ := List.mem_flatMap.mp hpos
  have := h.inside off hoff
  rw [h.width_eq]
  simp only [List.mem_cons, List.not_mem_nil, or_false] at hp
  omega

theorem Valid.operandPositions_nodup (h : f.Valid c) : f.operandPositions.Nodup := by
  unfold operandPositions
  rw [List.nodup_flatMap]
  constructor
  · intro off _
    simp
  · apply h.apart.imp_of_mem
    intro a b ha hb hab
    have h₁ := h.inside a ha
    have h₂ := h.inside b hb
    simp only [Function.onFun, List.disjoint_cons_left, List.mem_cons, List.not_mem_nil, or_false,
      List.disjoint_nil_left, and_true]
    omega

theorem Valid.isOperand_iff (h : f.Valid c) {pos : Nat} :
    f.isOperand pos = true ↔ pos ∈ f.operandPositions := by
  unfold isOperand operandPositions
  rw [List.any_eq_true, List.mem_flatMap]
  constructor
  · rintro ⟨off, hoff, hp⟩
    refine ⟨off, hoff, ?_⟩
    simp only [Bool.and_eq_true, Bool.or_eq_true, decide_eq_true_eq, beq_iff_eq] at hp
    simp only [List.mem_cons, List.not_mem_nil, or_false]
    omega
  · rintro ⟨off, hoff, hp⟩
    have := h.inside off hoff
    have hw := h.width_eq
    refine ⟨off, hoff, ?_⟩
    simp only [List.mem_cons, List.not_mem_nil, or_false] at hp
    simp only [Bool.and_eq_true, Bool.or_eq_true, decide_eq_true_eq, beq_iff_eq]
    omega

theorem Valid.freePositions_eq (h : f.Valid c) :
    f.freePositions = otherModes f.width f.operandPositions := by
  unfold freePositions otherModes
  apply List.filter_congr
  intro pos _
  have hi : f.isOperand pos = true ↔ pos ∈ f.operandPositions := h.isOperand_iff
  cases ho : f.isOperand pos with
  | true =>
    have hm := hi.mp ho
    simp [hm]
  | false =>
    have hm : pos ∉ f.operandPositions := fun hm => by
      rw [hi.mpr hm] at ho
      cases ho
    simp [hm]

/-- Operand pairs and free positions are all positions of the fragment, each once. -/
theorem Valid.positions_perm (h : f.Valid c) :
    (f.operandPositions ++ f.freePositions).Perm (List.range f.width) := by
  rw [h.freePositions_eq]
  exact append_otherModes_perm h.operandPositions_nodup h.operandPositions_lt

omit [Quantity R] in
theorem length_operandPositions : f.operandPositions.length = 2 * f.qubitOffsets.length := by
  simp [operandPositions, List.length_flatMap, Nat.mul_comm]

theorem Valid.length_freePositions (h : f.Valid c) :
    f.freePositions.length = f.ancillas.length := by
  have hl := h.positions_perm.length_eq
  rw [List.length_append, length_operandPositions, List.length_range, h.width_eq, h.width] at hl
  omega

theorem Valid.ancillaPositions_eq (h : f.Valid c) (hs : f.width ≤ Storage.limit) :
    f.ancillaPositions = .ok f.freePositions := by
  have hnone : f.qubitOffsets.find? (fun off => 0 ≤ off && Word.wrap (off + 1) < f.width &&
      (f.width : Int) ≤ off + 1) = none := by
    rw [List.find?_eq_none]
    intro off hoff
    have := h.inside off hoff
    have hw := h.width_eq
    simp only [Bool.and_eq_true, decide_eq_true_eq, not_and, Int.not_le]
    intro _
    omega
  unfold ancillaPositions
  rw [Storage.reserve_of_le (by omega)]
  simp only [bind, Except.bind]
  rw [hnone]
  rfl

theorem Valid.offsetOverrun?_eq_none (h : f.Valid c) :
    offsetOverrun? f.width f.qubitOffsets = none := by
  have hw := h.width_eq
  have hin := h.inside
  generalize f.qubitOffsets = offs at hin
  induction offs with
  | nil => rfl
  | cons off rest ih =>
    have := hin off List.mem_cons_self
    rw [offsetOverrun?, if_neg, if_neg (by omega)]
    · exact ih fun x hx => hin x (List.mem_cons_of_mem _ hx)
    · simp only [Bool.or_eq_true, decide_eq_true_eq]
      omega

end Positions

/-- The modes of a fragment placed on `qubits` with new modes from `base` on, by position: the rails
of operand `k` at its offset, the new modes in order at the free positions. -/
structure IsBlock (f : Fragment α R) (qubits : List Nat) (base : Nat) (block : List Nat) :
    Prop where
  length_eq : block.length = f.width
  rails : ∀ (k : Nat) (off : Int) (q : Nat), f.qubitOffsets[k]? = some off → qubits[k]? = some q →
    block[off.toNat]? = some (2 * q) ∧ block[off.toNat + 1]? = some (2 * q + 1)
  ancillas : ∀ i pos : Nat, f.freePositions[i]? = some pos → block[pos]? = some (base + i)

def blockWrites (f : Fragment α R) (qubits : List Nat) (base : Nat) : List (Nat × Nat) :=
  ((f.qubitOffsets.zip qubits).flatMap fun w =>
      [(w.1.toNat, 2 * w.2), (w.1.toNat + 1, 2 * w.2 + 1)]) ++
    f.freePositions.zip (List.range' base f.ancillas.length)

variable {f : Fragment α R} {c : Network α} {qubits : List Nat} {base : Nat}

theorem Valid.blockWrites_cells (h : f.Valid c) (hq : qubits.length = f.qubitOffsets.length) :
    (f.blockWrites qubits base).map (·.1) = f.operandPositions ++ f.freePositions := by
  have hzip : ((f.qubitOffsets.zip qubits).flatMap fun w =>
      [(w.1.toNat, 2 * w.2), (w.1.toNat + 1, 2 * w.2 + 1)]).map (·.1) = f.operandPositions := by
    have hoffsets : (f.qubitOffsets.zip qubits).map Prod.fst = f.qubitOffsets :=
      List.map_fst_zip hq.ge
    rw [List.map_flatMap, operandPositions]
    conv_rhs => rw [← hoffsets, List.flatMap_map]
    rfl
  unfold blockWrites
  rw [List.map_append, hzip, List.map_fst_zip]
  rw [h.length_freePositions, List.length_range']

omit [Quantity R] in
theorem blockWrites_modes (hq : qubits.length = f.qubitOffsets.length)
    (hf : f.freePositions.length = f.ancillas.length) :
    (f.blockWrites qubits base).map (·.2) =
      (qubits.flatMap fun q => [2 * q, 2 * q + 1]) ++ List.range' base f.ancillas.length := by
  have hzip : ((f.qubitOffsets.zip qubits).flatMap fun w =>
      [(w.1.toNat, 2 * w.2), (w.1.toNat + 1, 2 * w.2 + 1)]).map (·.2) =
      qubits.flatMap fun q => [2 * q, 2 * q + 1] := by
    have hqubits : (f.qubitOffsets.zip qubits).map Prod.snd = qubits := List.map_snd_zip hq.le
    rw [List.map_flatMap]
    conv_rhs => rw [← hqubits, List.flatMap_map]
    rfl
  unfold blockWrites
  rw [List.map_append, hzip, List.map_snd_zip]
  rw [hf, List.length_range']

/-- The block a valid fragment gets. -/
def block (f : Fragment α R) (qubits : List Nat) (base : Nat) : List Nat :=
  (scatter (f.blockWrites qubits base) (Array.replicate f.width 0)).toList

theorem Valid.cells_perm (h : f.Valid c) (base : Nat) (hq : qubits.length = f.qubitOffsets.length) :
    ((f.blockWrites qubits base).map (·.1)).Perm
      (List.range (Array.replicate f.width 0).size) := by
  rw [h.blockWrites_cells hq, Array.size_replicate]
  exact h.positions_perm

/-- The block holds the rails of the operands and the new modes, each once. -/
theorem Valid.block_perm (h : f.Valid c) (base : Nat) (hq : qubits.length = f.qubitOffsets.length) :
    (f.block qubits base).Perm
      ((qubits.flatMap fun q => [2 * q, 2 * q + 1]) ++ List.range' base f.ancillas.length) := by
  rw [← blockWrites_modes hq h.length_freePositions]
  exact scatter_perm (h.cells_perm base hq)

theorem Valid.getElem?_block (h : f.Valid c) (hq : qubits.length = f.qubitOffsets.length)
    {pos mode : Nat} (hw : (pos, mode) ∈ f.blockWrites qubits base) :
    (f.block qubits base)[pos]? = some mode := by
  have hnd := (h.cells_perm base hq).nodup_iff.mpr List.nodup_range
  have hlt := List.mem_range.mp ((h.cells_perm base hq).mem_iff.mp
    (List.mem_map_of_mem hw))
  rw [block, Array.getElem?_toList]
  exact getElem?_scatter_of_mem hnd hw hlt

theorem Valid.isBlock (h : f.Valid c) (hq : qubits.length = f.qubitOffsets.length) :
    f.IsBlock qubits base (f.block qubits base) := by
  refine ⟨by simp [block], ?_, ?_⟩
  · intro k off q hoff hqk
    have hz : (off, q) ∈ f.qubitOffsets.zip qubits := by
      apply List.mem_of_getElem? (i := k)
      rw [List.getElem?_zip_eq_some]
      exact ⟨hoff, hqk⟩
    constructor
    · apply h.getElem?_block hq
      exact List.mem_append_left _ (List.mem_flatMap.mpr ⟨_, hz, by simp⟩)
    · apply h.getElem?_block hq
      exact List.mem_append_left _ (List.mem_flatMap.mpr ⟨_, hz, by simp⟩)
  · intro i pos hpos
    apply h.getElem?_block hq
    apply List.mem_append_right
    apply List.mem_of_getElem? (i := i)
    rw [List.getElem?_zip_eq_some]
    obtain ⟨hi, _⟩ := List.getElem?_eq_some_iff.mp hpos
    rw [h.length_freePositions] at hi
    exact ⟨hpos, by simp [hi]⟩

theorem Valid.block_distinct (h : f.Valid c) (hq : qubits.length = f.qubitOffsets.length)
    (hnd : qubits.Nodup) (hlt : ∀ q ∈ qubits, 2 * q + 1 < base) :
    (f.block qubits base).Nodup ∧
      ∀ x ∈ f.block qubits base, x < base + f.ancillas.length := by
  have hp := h.block_perm base hq
  constructor
  · rw [hp.nodup_iff, List.nodup_append]
    refine ⟨?_, List.nodup_range', ?_⟩
    · rw [List.nodup_flatMap]
      refine ⟨fun q _ => by simp, hnd.imp_of_mem fun _ _ hne => ?_⟩
      simp only [Function.onFun, List.disjoint_cons_left, List.mem_cons, List.not_mem_nil,
        or_false, List.disjoint_nil_left, and_true]
      omega
    · intro x hx y hy
      obtain ⟨q, hqm, hxq⟩ := List.mem_flatMap.mp hx
      have := hlt q hqm
      simp only [List.mem_cons, List.not_mem_nil, or_false] at hxq
      have := List.mem_range'_1.mp hy
      omega
  · intro x hx
    rcases List.mem_append.mp (hp.mem_iff.mp hx) with hx | hx
    · obtain ⟨q, hqm, hxq⟩ := List.mem_flatMap.mp hx
      have := hlt q hqm
      simp only [List.mem_cons, List.not_mem_nil, or_false] at hxq
      omega
    · exact (List.mem_range'_1.mp hx).2

theorem railsOf_pairs (base count : Nat) :
    railsOf ((List.range count).map fun i => ModePair.startingAt (base + 2 * i)) =
      (List.range' base (2 * count)).map Int.ofNat := by
  induction count with
  | zero => rfl
  | succ count ih =>
    have hstep : List.range' base (2 * (count + 1)) =
        List.range' base (2 * count) ++ [base + 2 * count, base + 2 * count + 1] := by
      rw [Nat.mul_add, ← List.range'_append_1]
      rfl
    rw [List.range_succ, List.map_append, railsOf, List.flatMap_append, hstep, List.map_append]
    rw [railsOf] at ih
    rw [ih]
    rfl

theorem Valid.railsOf_fresh (h : f.Valid c) (supply : ModeSupply) :
    railsOf (supply.pairsFrom f.ancillaPairs) =
      (List.range' supply.width f.ancillas.length).map Int.ofNat := by
  have hpairs : 2 * f.ancillaPairs = f.ancillas.length := by
    have := h.even
    unfold ancillaPairs
    omega
  unfold ModeSupply.pairsFrom
  rw [railsOf_pairs, hpairs]

theorem Valid.fragmentBlock_eq (h : f.Valid c) (hq : qubits.length = f.qubitOffsets.length)
    (hs : f.width ≤ Storage.limit) (supply : ModeSupply) (hb : supply.width = base) :
    fragmentBlock f (qubits.map ModeSupply.qubit) (supply.pairsFrom f.ancillaPairs) =
      .ok ((f.block qubits base).map Int.ofNat) := by
  have hrails : railsOf (supply.pairsFrom f.ancillaPairs) =
      (List.range' base f.ancillas.length).map Int.ofNat := hb ▸ h.railsOf_fresh supply
  have hcount : ¬ ((decide (f.freePositions.length ≠ (railsOf (supply.pairsFrom
      f.ancillaPairs)).length) || decide (f.qubitOffsets.length ≠
      (qubits.map ModeSupply.qubit).length)) = true) := by
    rw [hrails]
    simp [h.length_freePositions, hq]
  have hpairWrites : (f.qubitOffsets.zip (qubits.map ModeSupply.qubit)).flatMap (fun w =>
        [(w.1.toNat, w.2.zero), (w.1.toNat + 1, w.2.one)]) =
      ((f.qubitOffsets.zip qubits).flatMap fun w =>
        [(w.1.toNat, 2 * w.2), (w.1.toNat + 1, 2 * w.2 + 1)]).map
          fun w => (w.1, Int.ofNat w.2) := by
    rw [List.zip_map_right, List.flatMap_map, List.map_flatMap]
    rfl
  have hfree : f.freePositions.zip ((List.range' base f.ancillas.length).map Int.ofNat) =
      (f.freePositions.zip (List.range' base f.ancillas.length)).map
        fun w => (w.1, Int.ofNat w.2) := by
    rw [List.zip_map_right]
    rfl
  unfold fragmentBlock
  rw [h.ancillaPositions_eq hs]
  simp only [bind, Except.bind]
  rw [if_neg hcount, h.offsetOverrun?_eq_none, hrails]
  simp only
  rw [hpairWrites, hfree, ← List.map_append]
  have hblank : (Array.replicate f.width (0 : Int)) =
      (Array.replicate f.width 0).map Int.ofNat := by simp
  rw [hblank]
  change Except.ok
    (scatter ((f.blockWrites qubits base).map fun w => (w.1, Int.ofNat w.2)) _).toList = _
  rw [scatter_map, Array.toList_map]
  rfl

end Fragment

end DualRail
