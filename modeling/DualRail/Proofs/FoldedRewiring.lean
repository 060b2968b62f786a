import DualRail.Proofs.Construction
import DualRail.Proofs.RoutedModes

/-!
Rewirings folded into their routes. The forward vector brings a block to consecutive modes, the
rewiring acts there, and the inverse brings everything back: what comes out takes the mode at each
position of the block to the mode at the image of that position and leaves all other modes alone. It
is entered as one permutation of the smallest interval with all the modes it moves.
-/

namespace DualRail

section Entries

variable {α : Type}

/-- The entries a folded permutation `p` of `m` modes is entered as. -/
inductive EntersAs (keep : Bool) (m : Nat) (p : Permutation) :
    List (Entry (Component α)) → Prop where
  /-- One permutation of the smallest interval, which lifted to all modes is `p`. -/
  | moving {lo : Nat} {core : Permutation} : p.isIdentity = false → core.lift m lo = .ok p →
      p.SmallestSpan lo core.width → EntersAs keep m p [⟨lo, .perm core⟩]
  | elided : p.isIdentity = true → keep = false → EntersAs keep m p []
  | kept : p.isIdentity = true → keep = true → p.width = m → EntersAs keep m p [⟨0, .perm p⟩]

theorem entersAs_foldedEntries (keep : Bool) {m : Nat} {p : Permutation} (hw : p.width = m)
    (hroom : m * 8 ≤ Storage.limit) :
    EntersAs keep m p (foldedEntries keep p : List (Entry (Component α))) := by
  unfold foldedEntries
  cases ht : p.trim with
  | none =>
    have hid := Permutation.trim_eq_none ht
    unfold permutationEntries
    cases keep with
    | false =>
      rw [hid]
      exact .elided hid rfl
    | true =>
      rw [hid]
      exact .kept hid rfl hw
  | some found =>
    obtain ⟨lo, core⟩ := found
    obtain ⟨hfit, hraise⟩ := Permutation.trim_eq_some ht
    rw [hw] at hfit hraise
    refine .moving ?_ ?_ (Permutation.smallestSpan_of_trim ht)
    · rw [Bool.eq_false_iff]
      intro hid
      cases (Permutation.trim_of_isIdentity hid).symm.trans ht
    · rw [Permutation.lift_of_fits hfit hroom, hraise]

end Entries

namespace Route.Carries

variable {r : Route} {m : Nat} {block : List Nat} {inner : Permutation}

theorem folded_block (hr : r.Carries m block) (hw : inner.width = block.length) {j x : Nat}
    (hj : block[j]? = some x) :
    block[inner.apply j]? =
      some (r.inverse.apply ((inner.raise r.start 0).apply (r.forward.apply x))) := by
  have hlt : j < inner.width := by
    rw [hw]
    exact (List.getElem?_eq_some_iff.mp hj).1
  have himage : inner.apply j < block.length := by
    rw [← hw]
    exact Permutation.apply_lt hlt
  have hy : block[inner.apply j]? = some block[inner.apply j] := List.getElem?_eq_getElem himage
  have hinside : r.start ≤ r.start + j ∧ r.start + j < r.start + inner.width :=
    ⟨Nat.le_add_right _ _, Nat.add_lt_add_left hlt _⟩
  rw [hr.forward_apply j x hj, Permutation.raise_apply, if_pos hinside, Nat.add_sub_cancel_left,
    ← hr.forward_apply _ _ hy, hr.inverse_eq, Permutation.inverse_apply_apply, hy]

/-- The places of the block are taken by its modes alone, so no other mode is touched. -/
theorem folded_outside (hr : r.Carries m block) (hw : inner.width = block.length) {u : Nat}
    (hu : u ∉ block) :
    r.inverse.apply ((inner.raise r.start 0).apply (r.forward.apply u)) = u := by
  have hplace : ¬ (r.start ≤ r.forward.apply u ∧ r.forward.apply u < r.start + inner.width) := by
    rintro ⟨hlow, hhigh⟩
    have hj : r.forward.apply u - r.start < block.length := by omega
    have hx := List.getElem?_eq_getElem hj
    have hforward := hr.forward_apply _ _ hx
    have hsame : block[r.forward.apply u - r.start] = u :=
      r.forward.apply_injective (by rw [hforward]; omega)
    exact hu (hsame ▸ List.getElem_mem hj)
  rw [Permutation.raise_apply, if_neg hplace, hr.inverse_eq, Permutation.inverse_apply_apply]

end Route.Carries

theorem room_of_asPermutation {α : Type} {c : Network α} {inner : Permutation}
    (h : c.asPermutation = .ok (some inner)) : c.width * 8 ≤ Storage.limit := by
  obtain ⟨one, hone, _⟩ := asPermutation_net h
  unfold Permutation.identity at hone
  split at hone
  · cases hone
  · obtain ⟨count, hcount, _⟩ := bind_eq_ok hone
    obtain ⟨hwidth, hroom⟩ := Storage.reserve_eq_ok hcount
    obtain rfl : c.width = count := Int.ofNat.inj hwidth
    exact hroom

section Placing

variable {α R : Type} [Quantity R]

/-- A fragment that only rewires, on distinct qubits below `m`. -/
structure Placement.Rewires (p : Placement α R) (inner : Permutation) : Prop where
  sound : p.Sound (p.base / 2)
  several : 2 ≤ p.qubits.length
  ancillas : p.fragment.ancillas = []
  circuit : p.circuit.asPermutation = .ok (some inner)

theorem Placement.rewires_of_validate {m : Nat} {qubits : List Nat} {f : Fragment α R}
    {c : Network α} {inner : Permutation} (hf : f.validate qubits.length = .ok ())
    (hanc : f.ancillas = []) (hc : f.circuit = some c)
    (hinner : c.asPermutation = .ok (some inner)) (htwo : 2 ≤ qubits.length)
    (hnd : qubits.Nodup) (hlt : ∀ q ∈ qubits, 2 * q + 1 < m) :
    (⟨f, c, qubits, m⟩ : Placement α R).Rewires inner := by
  obtain ⟨c', hvalid, harity⟩ := Fragment.valid_of_validate hf
  obtain rfl : c' = c := Option.some.inj (hvalid.circuit.symm.trans hc)
  refine ⟨⟨hvalid, Int.ofNat.inj harity.symm, ?_, hnd, fun q hq => ?_, Nat.mul_div_le m 2⟩, htwo,
    hanc, hinner⟩
  · exact List.ne_nil_of_length_pos (Nat.lt_of_lt_of_le Nat.zero_lt_two htwo)
  · have := hlt q hq
    simp only
    omega

namespace Placement.Rewires

variable {p : Placement α R} {inner : Permutation}

theorem stop_eq (h : p.Rewires inner) : p.stop = p.base := by
  rw [stop, h.ancillas, List.length_nil, Nat.add_zero]

theorem asPermutation_eq (h : p.Rewires inner) : p.fragment.asPermutation = .ok (some inner) := by
  rw [h.sound.asPermutation_eq, h.ancillas, if_pos List.isEmpty_nil, h.circuit]

theorem isDirect_eq (h : p.Rewires inner) : p.isDirect = false := by
  have := h.several
  rw [isDirect, Bool.and_eq_false_iff]
  exact .inl (beq_eq_false_iff_ne.mpr (by omega))

theorem width_inner (h : p.Rewires inner) : inner.width = p.block.length := by
  rw [width_asPermutation_net h.circuit, h.sound.length_block]

theorem width_le (h : p.Rewires inner) : p.fragment.width ≤ Storage.limit := by
  have := room_of_asPermutation h.circuit
  rw [h.sound.valid.width_eq]
  omega

theorem ancillaPairs_eq (h : p.Rewires inner) : p.fragment.ancillaPairs = 0 := by
  rw [Fragment.ancillaPairs, h.ancillas]
  rfl

theorem ancillaPairs_fit (h : p.Rewires inner) :
    p.fragment.ancillaPairs * 16 ≤ Storage.limit := by
  rw [h.ancillaPairs_eq]
  omega

theorem newPairs_eq (h : p.Rewires inner) : p.newPairs = [] := by
  rw [newPairs, h.ancillaPairs_eq]
  rfl

/-- All that such a placement can lack is room for a vector of all modes. -/
theorem overruns_iff (h : p.Rewires inner) : p.Overruns ↔ Storage.limit < p.base * 8 := by
  constructor
  · rintro (hlimit | ⟨_, hlimit | hlimit | ⟨f, hf⟩⟩)
    · exact absurd hlimit (Nat.not_lt.mpr h.ancillaPairs_fit)
    · exact absurd hlimit (Nat.not_lt.mpr h.width_le)
    · rwa [h.stop_eq] at hlimit
    · cases h.asPermutation_eq.symm.trans hf
  · intro hlimit
    refine .inr ⟨h.isDirect_eq, .inr (.inl ?_)⟩
    rwa [h.stop_eq]

theorem overrun_eq (h : p.Rewires inner) : p.overrun = .overrun .allocation := by
  rw [overrun, h.asPermutation_eq]
  exact ite_self _

theorem block_lt (h : p.Rewires inner) : ∀ x ∈ p.block, x < p.base := by
  rw [← h.stop_eq]
  exact h.sound.block_lt

theorem fragmentBlock_eq (h : p.Rewires inner) :
    fragmentBlock p.fragment p.operands [] = .ok (p.block.map Int.ofNat) := by
  have hblock := h.sound.valid.fragmentBlock_eq h.sound.length_qubits h.width_le ⟨0, p.base⟩ rfl
  rwa [h.ancillaPairs_eq] at hblock

theorem exists_fold (h : p.Rewires inner) {r : Route} (hr : r.Carries p.base p.block)
    (hroom : p.base * 8 ≤ Storage.limit) :
    ∃ whole, r.fold p.base p.fragment = .ok (some whole) ∧ whole.width = p.base ∧
      (∀ j x, (p.block.map Int.ofNat)[j]? = some x →
        (p.block.map Int.ofNat)[inner.apply j]? = some (whole.image x)) ∧
      ∀ u : Int, 0 ≤ u → u < p.base → u ∉ p.block.map Int.ofNat → whole.image u = u := by
  obtain ⟨whole, hfold, hwidth, happly⟩ :=
    Route.fold_of_some hr h.asPermutation_eq h.width_inner hroom
  have himage : ∀ y < p.base, whole.image (y : Int) =
      (r.inverse.apply ((inner.raise r.start 0).apply (r.forward.apply y)) : Nat) := by
    intro y hy
    rw [Permutation.image_natCast (by rwa [hwidth]), happly]
  refine ⟨whole, hfold, hwidth, fun j x hj => ?_, fun u hlow hhigh hu => ?_⟩
  · rw [List.getElem?_map] at hj ⊢
    obtain ⟨y, hy, rfl⟩ := Option.map_eq_some_iff.mp hj
    rw [hr.folded_block h.width_inner hy, Int.ofNat_eq_natCast,
      himage y (h.block_lt y (List.mem_of_getElem? hy))]
    rfl
  · obtain ⟨v, rfl⟩ := Int.eq_ofNat_of_zero_le hlow
    rw [himage v (by omega), hr.folded_outside h.width_inner]
    exact fun hmem => hu (List.mem_map_of_mem hmem)

theorem entries_eq (h : p.Rewires inner) (keep : Bool) {r : Route} {whole : Permutation}
    (hr : planRoute p.base (p.block.map Int.ofNat) = .ok r)
    (hfold : r.fold p.base p.fragment = .ok (some whole)) :
    p.entries keep = foldedEntries keep whole := by
  rw [entries, h.isDirect_eq, if_neg Bool.false_ne_true, h.stop_eq, hr]
  simp only
  rw [entriesAlong, h.stop_eq, hfold]

variable [Element α] {a : Assembly α R}

theorem placeFragment_eq (h : p.Rewires inner) (kind : String) (hs : a.supply.width = p.base)
    (hw : a.network.width ≤ p.base) (hroom : p.base * 8 ≤ Storage.limit) :
    Assembly.placeFragment ⟨kind, p.fragment, p.operands, []⟩ a =
      .ok () (a.after p (p.entries a.keepIdentity)) := by
  have hfits : ¬ p.Overruns := fun ho => absurd (h.overruns_iff.mp ho) (Nat.not_lt.mpr hroom)
  rw [← h.stop_eq] at hs hw
  rw [← Assembly.placeFragment_eq kind h.sound hw hs hfits, resolved, h.newPairs_eq]

theorem placeFragment_overrun (h : p.Rewires inner) (kind : String)
    (hs : a.supply.width = p.base) (hw : a.network.width ≤ p.base)
    (hlimit : Storage.limit < p.base * 8) :
    ∃ b, Assembly.placeFragment ⟨kind, p.fragment, p.operands, []⟩ a =
      .error (.overrun .allocation) b := by
  rw [← h.stop_eq] at hs hw
  obtain ⟨b, hb⟩ := Assembly.placeFragment_overrun kind h.sound hw hs
    (h.overruns_iff.mpr hlimit) h.ancillaPairs_fit
  rw [h.overrun_eq, resolved, h.newPairs_eq] at hb
  exact ⟨b, hb⟩

end Placement.Rewires

variable [Element α]

/-- Folding a rewiring is exact and minimal. A valid fragment without ancillas whose circuit amounts
to the permutation `inner`, on two or more distinct qubits below `m`, has a route, and the route
folds with it into the permutation of `m` modes that takes the mode at each position `j` of the
block to the mode at position `inner.apply j` and leaves every other mode alone. Placing the
fragment appends that permutation to the network as one entry on the smallest interval with all the
modes it moves, or, if it is the identity, no entry or the whole identity as the settings ask. The
only thing that can be wanting, for the fold and so for the placing, is room for a vector of `m`
modes. -/
theorem rewiring_folds_exactly {m : Nat} {qubits : List Nat} {f : Fragment α R} {c : Network α}
    {inner : Permutation} (hf : f.validate qubits.length = .ok ()) (hanc : f.ancillas = [])
    (hc : f.circuit = some c) (hinner : c.asPermutation = .ok (some inner))
    (htwo : 2 ≤ qubits.length) (hnd : qubits.Nodup) (hlt : ∀ q ∈ qubits, 2 * q + 1 < m) :
    ∃ (block : List Int) (r : Route),
      fragmentBlock f (qubits.map ModeSupply.qubit) [] = .ok block ∧
      block.length = f.width ∧ inner.width = f.width ∧ planRoute m block = .ok r ∧
      (m * 8 ≤ Storage.limit → ∃ whole, r.fold m f = .ok (some whole) ∧ whole.width = m ∧
        (∀ j x, block[j]? = some x → block[inner.apply j]? = some (whole.image x)) ∧
        (∀ u : Int, 0 ≤ u → u < m → u ∉ block → whole.image u = u) ∧
        ∀ (kind : String) (a : Assembly α R), a.supply.width = m → a.network.width ≤ m →
          ∃ a' entries, Assembly.placeFragment ⟨kind, f, qubits.map ModeSupply.qubit, []⟩ a =
              .ok () a' ∧
            a'.network = ⟨a.network.name, m, a.network.entries ++ entries⟩ ∧
            EntersAs a.keepIdentity m whole entries) ∧
      (Storage.limit < m * 8 → r.fold m f = .error (.overrun .allocation) ∧
        ∀ (kind : String) (a : Assembly α R), a.supply.width = m → a.network.width ≤ m →
          ∃ b, Assembly.placeFragment ⟨kind, f, qubits.map ModeSupply.qubit, []⟩ a =
            .error (.overrun .allocation) b) := by
  have hp := Placement.rewires_of_validate hf hanc hc hinner htwo hnd hlt
  obtain ⟨r, hr, hcarries⟩ := planRoute_eq hp.sound.block_ne_nil hp.sound.block_nodup hp.block_lt
  have hlength := hp.sound.isBlock.length_eq
  refine ⟨_, r, hp.fragmentBlock_eq, by rw [List.length_map, hlength],
    hp.width_inner.trans hlength, hr, fun hroom => ?_, fun hlimit => ⟨?_, fun kind a hs hw => ?_⟩⟩
  · obtain ⟨whole, hfold, hwidth, hinside, houtside⟩ := hp.exists_fold hcarries hroom
    refine ⟨whole, hfold, hwidth, hinside, houtside, fun kind a hs hw => ?_⟩
    refine ⟨_, _, hp.placeFragment_eq kind hs hw hroom, by rw [Assembly.after, hp.stop_eq], ?_⟩
    rw [hp.entries_eq a.keepIdentity hr hfold]
    exact entersAs_foldedEntries a.keepIdentity hwidth hroom
  · exact Route.fold_overrun hcarries hp.asPermutation_eq hp.width_inner hlimit
  · exact hp.placeFragment_overrun kind hs hw hlimit

end Placing

def Permutation.circle : Permutation := ⟨#[2, 3, 4, 5, 0, 1], by decide, by decide⟩

def circleFragment : Fragment (Device Float) Float where
  circuit := some ⟨"circle", 6, [⟨0, .perm .circle⟩]⟩
  qubitOffsets := [0, 2, 4]
  ancillas := []
  heralded := false
  postSelect := false
  success := 1

/-- The circle on the qubits 2, 1 and 3 of five, which is not its own inverse: the rails of qubit 2
go to those of qubit 1, and so on; modes beside them stay. -/
theorem rewiring_folds_exactly_circle :
    ∃ (whole : Permutation) (r : Route) (entries : List (Entry (Component (Device Float)))),
      planRoute 10 [4, 5, 2, 3, 6, 7] = .ok r ∧ r.fold 10 circleFragment = .ok (some whole) ∧
      whole.image 4 = 2 ∧ whole.image 3 = 7 ∧ whole.image 6 = 4 ∧ whole.image 8 = 8 ∧
      (∃ a', Assembly.placeFragment
          ⟨"circle", circleFragment, [2, 1, 3].map ModeSupply.qubit, []⟩
          ⟨⟨5, 10⟩, ⟨"net", 10, []⟩, .ofQubits [], false⟩ = .ok () a' ∧
        a'.network = ⟨"net", 10, entries⟩) ∧ EntersAs false 10 whole entries := by
  have hvalid : circleFragment.validate ([2, 1, 3] : List Nat).length = .ok () := by decide +kernel
  have hcircle : (⟨"circle", 6, [⟨0, .perm .circle⟩]⟩ : Network (Device Float)).asPermutation =
      .ok (some .circle) := by decide +kernel
  obtain ⟨block, r, hblock, _, _, hr, hroom, _⟩ := rewiring_folds_exactly (m := 10) hvalid rfl rfl
    hcircle (by decide) (by decide) (by decide)
  obtain rfl : block = [4, 5, 2, 3, 6, 7] := (Except.ok.inj hblock).symm
  obtain ⟨whole, hfold, _, hinside, houtside, hplace⟩ := hroom (by decide)
  have hstep : ∀ j x y, ([4, 5, 2, 3, 6, 7] : List Int)[j]? = some x →
      ([4, 5, 2, 3, 6, 7] : List Int)[Permutation.circle.apply j]? = some y →
      whole.image x = y := fun j x y hx hy => Option.some.inj ((hinside j x hx).symm.trans hy)
  obtain ⟨a', entries, hplaced, hnetwork, henters⟩ :=
    hplace "circle" ⟨⟨5, 10⟩, ⟨"net", 10, []⟩, .ofQubits [], false⟩ rfl (le_refl 10)
  exact ⟨whole, r, entries, hr, hfold, hstep 0 4 2 rfl rfl, hstep 3 3 7 rfl rfl,
    hstep 4 6 4 rfl rfl, houtside 8 (by decide) (by decide) (by decide), ⟨a', hplaced, hnetwork⟩,
    henters⟩

end DualRail
