import Mathlib
import DualRail.Compiler.Assembly
import DualRail.Proofs.FragmentBlock

/-!
Booked modes and routed modes. A fragment gets fresh pairs of modes for its ancillas; the ledger
books its sources and heralds on them by index, and the route brings them to the free positions of
the fragment. Both agree: the mode booked for an ancilla is the one brought to the position of that
ancilla, and the rails of an operand are brought to its offset.
-/

namespace DualRail

namespace ModeSupply

/-- The supplies of a compilation: the rails of the qubits, then pairs handed out request by
request. -/
inductive Reachable : ModeSupply → Prop where
  | start {n : Int} {s : ModeSupply} : ofQubits n = .ok s → Reachable s
  | allocate {s s' : ModeSupply} {count : Int} {pairs : List ModePair} : Reachable s →
      s.allocate count = .ok (pairs, s') → Reachable s'

theorem ofQubits_eq_ok {n : Int} {s : ModeSupply} (h : ofQubits n = .ok s) :
    s.qubits * 16 ≤ Storage.limit ∧ s.width = 2 * s.qubits := by
  unfold ofQubits at h
  split at h
  · cases h
  · obtain ⟨count, hcount, h⟩ := bind_eq_ok h
    obtain rfl := Except.ok.inj h
    exact ⟨(Storage.reserve_eq_ok hcount).2, rfl⟩

theorem allocate_eq_ok {s s' : ModeSupply} {count : Int} {pairs : List ModePair}
    (h : s.allocate count = .ok (pairs, s')) :
    count.toNat * 16 ≤ Storage.limit ∧ pairs = s.pairsFrom count.toNat ∧
      s' = s.advance count.toNat := by
  unfold allocate at h
  obtain ⟨given, hgiven, h⟩ := bind_eq_ok h
  obtain ⟨hcount, hle⟩ := Storage.reserve_eq_ok hgiven
  obtain rfl : count.toNat = given := Int.ofNat.inj hcount
  obtain ⟨rfl, rfl⟩ := Prod.mk.inj (Except.ok.inj h)
  exact ⟨hle, rfl, rfl⟩

theorem Reachable.bounds {s : ModeSupply} (h : s.Reachable) :
    s.qubits * 16 ≤ Storage.limit ∧ 2 * s.qubits ≤ s.width := by
  induction h with
  | start hn =>
    obtain ⟨hlimit, hwidth⟩ := ofQubits_eq_ok hn
    exact ⟨hlimit, hwidth.ge⟩
  | @allocate s _ count _ _ ha ih =>
    obtain ⟨_, _, rfl⟩ := allocate_eq_ok ha
    exact ⟨ih.1, ih.2.trans (Nat.le_add_right _ _)⟩

theorem exists_qubits {s : ModeSupply} {operands : List ModePair}
    (hin : ∀ pair ∈ operands, pair ∈ s.qubitModes) (hnd : operands.Nodup) :
    ∃ qubits : List Nat, operands = qubits.map qubit ∧ qubits.Nodup ∧
      ∀ q ∈ qubits, q < s.qubits := by
  have hpair : ∀ pair ∈ operands, ∃ q < s.qubits, qubit q = pair := by
    intro pair hp
    obtain ⟨q, hq, he⟩ := List.mem_map.mp (hin pair hp)
    exact ⟨q, List.mem_range.mp hq, he⟩
  have hnumber : ∀ q, (qubit q).zero.toNat / 2 = q := by
    intro q
    change ((2 * q : Nat) : Int).toNat / 2 = q
    omega
  have hback : operands = (operands.map fun pair => pair.zero.toNat / 2).map qubit := by
    rw [List.map_map]
    conv_lhs => rw [← List.map_id operands]
    refine List.map_congr_left fun pair hp => ?_
    obtain ⟨q, _, rfl⟩ := hpair pair hp
    simp only [id, Function.comp_apply, hnumber]
  refine ⟨_, hback, ?_, ?_⟩
  · rw [hback] at hnd
    exact List.Nodup.of_map _ hnd
  · intro q hq
    obtain ⟨pair, hp, rfl⟩ := List.mem_map.mp hq
    obtain ⟨q, hlt, rfl⟩ := hpair pair hp
    rw [hnumber]
    exact hlt

end ModeSupply

namespace Ledger

variable {α R : Type} [Quantity R]

/-- The ledger `l'` books ancilla `i` of the fragment on the mode with number `i`, besides what `l`
has: a source if the ancilla has photons, a herald if the fragment is heralded. -/
structure Books (l l' : Ledger R) (f : Fragment α R) (modes : List Int) : Prop where
  sources : ∀ src, src ∈ l'.sources ↔ src ∈ l.sources ∨
    ∃ (i : Nat) (anc : Ancilla) (mode : Int), f.ancillas[i]? = some anc ∧ modes[i]? = some mode ∧
      0 < anc.photons ∧ src = ⟨mode, anc.photons⟩
  heralds : ∀ h, h ∈ l'.heralds ↔ h ∈ l.heralds ∨ f.heralded = true ∧
    ∃ (i : Nat) (anc : Ancilla) (mode : Int), f.ancillas[i]? = some anc ∧ modes[i]? = some mode ∧
      h = ⟨mode, anc.herald⟩

theorem mem_zip_iff {ancillas : List Ancilla} {modes : List Int} {anc : Ancilla} {mode : Int} :
    (anc, mode) ∈ ancillas.zip modes ↔
      ∃ i : Nat, ancillas[i]? = some anc ∧ modes[i]? = some mode := by
  rw [List.mem_iff_getElem?]
  exact exists_congr fun _ => List.getElem?_zip_eq_some

theorem books_record (l : Ledger R) (f : Fragment α R) (operands : List ModePair)
    (modes : List Int) : l.Books (l.record f operands modes) f modes := by
  constructor
  · intro src
    refine List.mem_append.trans (or_congr_right ?_)
    rw [ancillaSources, List.mem_map]
    constructor
    · rintro ⟨⟨anc, mode⟩, hmem, rfl⟩
      obtain ⟨hmem, hpos⟩ := List.mem_filter.mp hmem
      obtain ⟨i, hanc, hmode⟩ := mem_zip_iff.mp hmem
      exact ⟨i, anc, mode, hanc, hmode, of_decide_eq_true hpos, rfl⟩
    · rintro ⟨i, anc, mode, hanc, hmode, hpos, rfl⟩
      exact ⟨(anc, mode), List.mem_filter.mpr ⟨mem_zip_iff.mpr ⟨i, hanc, hmode⟩,
        decide_eq_true hpos⟩, rfl⟩
  · intro h
    unfold record
    cases f.heralded with
    | false => simp
    | true =>
      simp only [if_true, true_and]
      refine List.mem_append.trans (or_congr_right ?_)
      rw [ancillaHeralds, List.mem_map]
      constructor
      · rintro ⟨⟨anc, mode⟩, hmem, rfl⟩
        obtain ⟨i, hanc, hmode⟩ := mem_zip_iff.mp hmem
        exact ⟨i, anc, mode, hanc, hmode, rfl⟩
      · rintro ⟨i, anc, mode, hanc, hmode, rfl⟩
        exact ⟨(anc, mode), mem_zip_iff.mpr ⟨i, hanc, hmode⟩, rfl⟩

end Ledger

section Routes

theorem Permutation.image_natCast {p : Permutation} {i : Nat} (h : i < p.width) :
    p.image i = p.apply i := by
  unfold Permutation.image
  rw [if_pos (by simpa using h), Int.toNat_natCast]

theorem Route.Carries.image_eq {r : Route} {m : Nat} {block : List Nat} (h : r.Carries m block)
    (hlt : ∀ x ∈ block, x < m) {j x : Nat} (hj : block[j]? = some x) :
    r.forward.image x = (r.start + j : Nat) ∧ r.inverse.image (r.start + j : Nat) = x := by
  have hplace := h.forward_apply j x hj
  have hin : r.start + j < r.forward.width := by
    rw [← hplace]
    exact Permutation.apply_lt (by rw [h.width_forward]; exact hlt x (List.mem_of_getElem? hj))
  constructor
  · rw [Permutation.image_natCast, hplace]
    rw [h.width_forward]
    exact hlt x (List.mem_of_getElem? hj)
  · rw [h.inverse_eq, Permutation.image_natCast (by rw [Permutation.width_inverse]; exact hin),
      ← hplace, Permutation.inverse_apply_apply]

variable {α R : Type}

/-- The route brings the rails of every operand to its offset and the mode of every ancilla to its
position, and its inverse brings them back. -/
structure Route.Delivers (r : Route) (f : Fragment α R) (operands : List ModePair)
    (modes : List Int) (positions : List Nat) : Prop where
  ancillas : ∀ (i : Nat) (mode : Int) (pos : Nat), modes[i]? = some mode →
    positions[i]? = some pos →
    r.forward.image mode = r.start + pos ∧ r.inverse.image (r.start + pos) = mode
  zeroRails : ∀ (k : Nat) (pair : ModePair) (off : Int), operands[k]? = some pair →
    f.qubitOffsets[k]? = some off →
    r.forward.image pair.zero = r.start + off ∧ r.inverse.image (r.start + off) = pair.zero
  oneRails : ∀ (k : Nat) (pair : ModePair) (off : Int), operands[k]? = some pair →
    f.qubitOffsets[k]? = some off →
    r.forward.image pair.one = r.start + off + 1 ∧ r.inverse.image (r.start + off + 1) = pair.one

variable [Quantity R] {f : Fragment α R} {c : Network α} {qubits : List Nat} {base m : Nat}
  {block : List Nat}

/-- A route that carries the block of a fragment delivers its modes. -/
theorem Fragment.IsBlock.delivers {r : Route} (hb : f.IsBlock qubits base block)
    (hr : r.Carries m block) (hv : f.Valid c) (hlt : ∀ x ∈ block, x < m) :
    r.Delivers f (qubits.map ModeSupply.qubit)
      ((List.range' base f.ancillas.length).map Int.ofNat) f.freePositions := by
  have hrails : ∀ (k : Nat) (pair : ModePair) (off : Int),
      (qubits.map ModeSupply.qubit)[k]? = some pair → f.qubitOffsets[k]? = some off →
      ∃ (q pos : Nat), pair = ModeSupply.qubit q ∧ off = pos ∧ block[pos]? = some (2 * q) ∧
        block[pos + 1]? = some (2 * q + 1) := by
    intro k pair off hpair hoff
    rw [List.getElem?_map] at hpair
    obtain ⟨q, hq, rfl⟩ := Option.map_eq_some_iff.mp hpair
    obtain ⟨pos, rfl⟩ := Int.eq_ofNat_of_zero_le (hv.inside off (List.mem_of_getElem? hoff)).1
    obtain ⟨hzero, hone⟩ := hb.rails k pos q hoff hq
    exact ⟨q, pos, rfl, rfl, hzero, hone⟩
  constructor
  · intro i mode pos hmode hpos
    obtain ⟨hi, _⟩ := List.getElem?_eq_some_iff.mp hpos
    rw [hv.length_freePositions] at hi
    rw [List.getElem?_map, List.getElem?_range' hi] at hmode
    obtain rfl : ((base + 1 * i : Nat) : Int) = mode := Option.some.inj hmode
    rw [Nat.one_mul]
    exact hr.image_eq hlt (hb.ancillas i pos hpos)
  · intro k pair off hpair hoff
    obtain ⟨q, pos, rfl, rfl, hzero, _⟩ := hrails k pair off hpair hoff
    exact hr.image_eq hlt hzero
  · intro k pair off hpair hoff
    obtain ⟨q, pos, rfl, rfl, _, hone⟩ := hrails k pair off hpair hoff
    exact hr.image_eq hlt hone

end Routes

section Agreement

variable {α R : Type} {f : Fragment α R} {arity : Int} {s s' : ModeSupply}
  {operands pairs : List ModePair}

theorem Fragment.freePositions_ascending (f : Fragment α R) : f.freePositions.Pairwise (· < ·) :=
  List.Pairwise.filter _ List.pairwise_lt_range

variable [Quantity R]

/-- What is handed out bounds the fragment: its operands are qubits of the supply and its ancillas
fill the fresh pairs. -/
theorem Fragment.Valid.width_le_limit {c : Network α} {qubits : List Nat} (hv : f.Valid c)
    (hs : s.Reachable) (hq : qubits.length = f.qubitOffsets.length) (hnd : qubits.Nodup)
    (hlt : ∀ q ∈ qubits, q < s.qubits) (ha : f.ancillaPairs * 16 ≤ Storage.limit) :
    f.width ≤ Storage.limit := by
  have hcount : qubits.length ≤ s.qubits := by
    have hsub : qubits ⊆ List.range s.qubits := fun q hmem => List.mem_range.mpr (hlt q hmem)
    simpa using (List.subperm_of_subset hnd hsub).length_le
  have hqubits := hs.bounds.1
  have hwidth := hv.width
  have heven := hv.even
  unfold Fragment.ancillaPairs at ha
  rw [hv.width_eq]
  omega

/-- The free positions of a valid fragment and its operand pairs are all its positions, each once;
the block of its modes is made of distinct modes, and every route of that block brings to each
position the mode that is booked for it. -/
theorem booked_modes_are_routed (hf : f.validate arity = .ok ()) (hs : s.Reachable)
    (hin : ∀ pair ∈ operands, pair ∈ s.qubitModes) (hnd : operands.Nodup)
    (hlen : (operands.length : Int) = arity)
    (ha : s.allocate f.ancillaPairs = .ok (pairs, s')) :
    ∃ (positions : List Nat) (block : List Int),
      f.ancillaPositions = .ok positions ∧ positions.Pairwise (· < ·) ∧
      positions.length = f.ancillas.length ∧ (railsOf pairs).length = f.ancillas.length ∧
      (∀ l : Ledger R, l.Books (l.record f operands (railsOf pairs)) f (railsOf pairs)) ∧
      (f.operandPositions ++ positions).Perm (List.range f.width) ∧
      fragmentBlock f operands pairs = .ok block ∧ block.length = f.width ∧ block.Nodup ∧
      (∀ mode ∈ block, 0 ≤ mode ∧ mode < s'.width) ∧
      (0 < f.width → ∃ r, planRoute s'.width block = .ok r) ∧
      ∀ r, planRoute s'.width block = .ok r → r.Delivers f operands (railsOf pairs) positions := by
  obtain ⟨c, hv, harity⟩ := Fragment.valid_of_validate hf
  obtain ⟨qubits, rfl, hqnd, hqlt⟩ := ModeSupply.exists_qubits hin hnd
  obtain ⟨hlimit, rfl, rfl⟩ := ModeSupply.allocate_eq_ok ha
  rw [Int.toNat_natCast] at hlimit ⊢
  have hq : qubits.length = f.qubitOffsets.length := by
    rw [List.length_map] at hlen
    omega
  have hwidth : f.width ≤ Storage.limit := hv.width_le_limit hs hq hqnd hqlt hlimit
  have hend : (s.advance f.ancillaPairs).width = s.width + f.ancillas.length := by
    have := hv.even
    unfold ModeSupply.advance Fragment.ancillaPairs
    simp only
    omega
  have hbelow : ∀ q ∈ qubits, 2 * q + 1 < s.width := by
    intro q hmem
    have := hqlt q hmem
    have := hs.bounds.2
    omega
  obtain ⟨hbnd, hblt⟩ := hv.block_distinct hq hqnd hbelow
  have hb : f.IsBlock qubits s.width (f.block qubits s.width) := hv.isBlock hq
  rw [hend, hv.railsOf_fresh]
  refine ⟨f.freePositions, (f.block qubits s.width).map Int.ofNat, hv.ancillaPositions_eq hwidth,
    f.freePositions_ascending, hv.length_freePositions, by simp,
    fun l => l.books_record f _ _, hv.positions_perm,
    hv.fragmentBlock_eq hq hwidth s rfl, by rw [List.length_map, hb.length_eq],
    hbnd.map fun _ _ => Int.ofNat.inj, ?_, ?_, ?_⟩
  · intro mode hmode
    obtain ⟨x, hx, rfl⟩ := List.mem_map.mp hmode
    exact ⟨Int.natCast_nonneg x, Int.ofNat_lt.mpr (hblt x hx)⟩
  · intro hpos
    have hne : f.block qubits s.width ≠ [] := by
      rw [← List.length_pos_iff, hb.length_eq]
      exact hpos
    obtain ⟨r, hr, _⟩ := planRoute_eq hne hbnd hblt
    exact ⟨r, hr⟩
  · intro r hr
    by_cases hne : f.block qubits s.width = []
    · rw [hne] at hr
      cases hr
    · obtain ⟨r', hr', hcarries⟩ := planRoute_eq hne hbnd hblt
      obtain rfl : r' = r := Except.ok.inj (hr'.symm.trans hr)
      exact hb.delivers hcarries hv hblt

def interleavedFragment : Fragment Unit Float where
  circuit := some ⟨"interleaved", 6, []⟩
  qubitOffsets := [4, 1]
  ancillas := [⟨1, 1⟩, ⟨0, 2⟩]
  heralded := true
  postSelect := false
  success := 0.5

theorem booked_modes_are_routed_interleaved :
    interleavedFragment.ancillaPositions = .ok [0, 3] ∧
      fragmentBlock interleavedFragment [ModeSupply.qubit 0, ModeSupply.qubit 2] [⟨8, 9⟩] =
        .ok [8, 4, 5, 9, 0, 1] ∧
      ∃ r, planRoute 10 [8, 4, 5, 9, 0, 1] = .ok r ∧
        r.Delivers interleavedFragment [ModeSupply.qubit 0, ModeSupply.qubit 2] [8, 9] [0, 3] := by
  have hf : interleavedFragment.validate 2 = .ok () := by decide +kernel
  have hstart : ModeSupply.ofQubits 3 = .ok ⟨3, 6⟩ := rfl
  have hfirst : (⟨3, 6⟩ : ModeSupply).allocate 1 = .ok ([⟨6, 7⟩], ⟨3, 8⟩) := rfl
  have hfresh : (⟨3, 8⟩ : ModeSupply).allocate interleavedFragment.ancillaPairs =
      .ok ([⟨8, 9⟩], ⟨3, 10⟩) := rfl
  have hin : ∀ pair ∈ [ModeSupply.qubit 0, ModeSupply.qubit 2],
      pair ∈ (⟨3, 8⟩ : ModeSupply).qubitModes := by decide
  obtain ⟨positions, block, hpositions, _, _, _, _, _, hblock, _, _, _, hroute, hdelivers⟩ :=
    booked_modes_are_routed hf (.allocate (.start hstart) hfirst) hin (by decide) rfl hfresh
  obtain rfl : positions = [0, 3] := (Except.ok.inj hpositions).symm
  obtain rfl : block = [8, 4, 5, 9, 0, 1] := (Except.ok.inj hblock).symm
  obtain ⟨r, hr⟩ := hroute (by decide)
  exact ⟨hpositions, hblock, r, hr, hdelivers r hr⟩

end Agreement

end DualRail
