import DualRail.Proofs.FlatProduct
import DualRail.Proofs.PermutationMatrices

/-!
Blocks copied onto the diagonal of a stored identity. Over exact scalars copying is placing, and so
a homomorphism: products, identities and adjoints of blocks become those of the whole, a block
within a block lies where the offsets add up, and blocks on disjoint modes commute. Every law is one
of stored matrices, whose two sides overrun together if the whole has no place in storage.
-/

namespace DualRail

namespace Dense

variable {K : Type} {k n offset : Nat}

section Apart

variable [ExactScalar K] {w w' offset' : Nat}

theorem placing_sub_one_mul (h : offset + w ≤ n) (h' : offset' + w' ≤ n)
    (hapart : offset + w ≤ offset' ∨ offset' + w' ≤ offset) (A : Matrix (Fin w) (Fin w) K)
    (B : Matrix (Fin w') (Fin w') K) : (placing h A - 1) * (placing h' B - 1) = 0 := by
  funext i j
  rw [Matrix.mul_apply]
  refine Finset.sum_eq_zero fun x _ => ?_
  by_cases hx : x ∈ Set.range (blockMode h)
  · have hx' : x ∉ Set.range (blockMode h') := by
      rw [mem_range_blockMode] at hx ⊢
      omega
    rw [Matrix.sub_apply (placing h' B), placing_apply h', embedded_of_row h' B hx', sub_self,
      mul_zero]
  · rw [Matrix.sub_apply, placing_apply, embedded_of_col h A i hx, sub_self, zero_mul]

theorem placing_commute (h : offset + w ≤ n) (h' : offset' + w' ≤ n)
    (hapart : offset + w ≤ offset' ∨ offset' + w' ≤ offset) (A : Matrix (Fin w) (Fin w) K)
    (B : Matrix (Fin w') (Fin w') K) :
    placing h A * placing h' B = placing h' B * placing h A :=
  calc placing h A * placing h' B
      = (placing h A - 1) * (placing h' B - 1) + placing h A + placing h' B - 1 := by noncomm_ring
    _ = (placing h' B - 1) * (placing h A - 1) + placing h A + placing h' B - 1 := by
        rw [placing_sub_one_mul h h' hapart, placing_sub_one_mul h' h hapart.symm]
    _ = placing h' B * placing h A := by noncomm_ring

end Apart

namespace Flat

section Copies

variable [ExactScalar K]

theorem exists_square {a : Dense K} (h : a.Stored) (hsq : a.rows = a.cols) :
    ∃ (k : Nat) (A : Matrix (Fin k) (Fin k) K), Storable k ∧ a = ofMatrix A := by
  obtain ⟨m, n, A, hA, rfl⟩ := h.exists_ofMatrix
  obtain rfl : m = n := hsq
  exact ⟨m, A, room_self_iff.mp hA, rfl⟩

theorem embed_ofMatrix (hn : Storable n) (hk : 0 < k) (hfit : offset + k ≤ n)
    (A : Matrix (Fin k) (Fin k) K) :
    embed (n : Int) offset (ofMatrix A) = .ok (ofMatrix (placing hfit A)) := by
  have hroom := room_self_iff.mpr hn
  have hle : n ≤ n * n := Nat.le_mul_of_pos_left n hn.1
  have hblock := stored_ofMatrix (room_self_iff.mpr (hn.mono hk (by omega))) A
  rw [embed_eq (hroom.inRange hle).2 (hroom.inRange (k := offset) (by omega)).2 hblock,
    embed_of_storable hn rfl hfit, placing_apply]

theorem entries_embed {a : Dense K} (ha : a.Stored) (hsq : a.rows = a.cols) (hn : Storable n)
    (hfit : offset + a.rows ≤ n) :
    ∃ U, embed (n : Int) offset a = .ok U ∧ U.Stored ∧ U.rows = n ∧ U.cols = n ∧
      ∀ i j, i < n → j < n → U.get i j =
        if (offset ≤ i ∧ i < offset + a.rows) ∧ offset ≤ j ∧ j < offset + a.rows then
          a.get (i - offset) (j - offset)
        else if i = j then 1 else 0 := by
  have hroom := room_self_iff.mpr hn
  have hle : n ≤ n * n := Nat.le_mul_of_pos_left n hn.1
  refine ⟨ofMatrix (embedded n offset a), ?_, stored_ofMatrix hroom _, rfl, rfl, ?_⟩
  · rw [embed_eq (hroom.inRange hle).2 (hroom.inRange (k := offset) (by omega)).2 ha,
      embed_of_storable hn hsq hfit]
  · intro i j hi hj
    rw [get_ofMatrix (embedded n offset a) ⟨i, hi⟩ ⟨j, hj⟩, embedded, embedEntry_eq]

theorem embed_overruns {a : Dense K} (ha : a.Stored) (hsq : a.rows = a.cols)
    (hn : (n : Int) ≤ Word.max) (hs : ¬ Storable n) (hfit : offset + a.rows ≤ n) :
    EndsInOverrun (embed (n : Int) offset a) := by
  have hpos := ha.room.1
  rw [embed_eq hn (by omega) ha, embed_of_not_storable hs hpos hsq hfit a]
  exact (endsInOverrun_identity (by omega) hs).map _

theorem identity_overruns (hpos : 0 < n) (hn : (n : Int) ≤ Word.max) (hs : ¬ Storable n) :
    EndsInOverrun (identity n : Except Failure (Dense K)) := by
  rw [identity_eq hn]
  exact endsInOverrun_identity hpos hs

theorem sameMatrix_mul {a b : Dense K} (ha : a.Stored) (hb : b.Stored) (hsqa : a.rows = a.cols)
    (hsqb : b.rows = b.cols) (hrows : b.rows = a.rows) (hn : (n : Int) ≤ Word.max)
    (hfit : offset + a.rows ≤ n) :
    SameMatrix n
      (embed (n : Int) offset a >>= fun A => embed (n : Int) offset b >>= fun B => mul A B)
      (mul a b >>= embed (n : Int) offset) := by
  obtain ⟨k, A, hk, rfl⟩ := exists_square ha hsqa
  obtain ⟨k', B, _, rfl⟩ := exists_square hb hsqb
  obtain rfl : k' = k := hrows
  have hroom := room_self_iff.mpr hk
  rw [mul_ofMatrix hroom hroom hroom, ok_bind]
  constructor
  · intro hs
    have hwhole := room_self_iff.mpr hs
    refine ⟨_, ?_, embed_ofMatrix hs hk.1 hfit (A * B)⟩
    rw [embed_ofMatrix hs hk.1 hfit, ok_bind, embed_ofMatrix hs hk.1 hfit, ok_bind,
      mul_ofMatrix hwhole hwhole hwhole, map_mul]
  · intro hs
    exact ⟨(embed_overruns ha hsqa hn hs hfit).bind _,
      embed_overruns (stored_ofMatrix hroom (A * B)) rfl hn hs hfit⟩

theorem sameMatrix_identity (hk : 0 < k) (hn : (n : Int) ≤ Word.max) (hfit : offset + k ≤ n) :
    SameMatrix n (identity k >>= embed (n : Int) offset)
      (identity n : Except Failure (Dense K)) := by
  constructor
  · intro hs
    rw [identity_eq_ofMatrix (hs.mono hk (by omega)), ok_bind, embed_ofMatrix hs hk hfit, map_one,
      identity_eq_ofMatrix hs]
    exact ⟨_, rfl, rfl⟩
  · intro hs
    refine ⟨?_, identity_overruns (by omega) hn hs⟩
    by_cases hblock : Storable k
    · rw [identity_eq_ofMatrix hblock, ok_bind]
      exact embed_overruns (stored_ofMatrix (room_self_iff.mpr hblock) 1) rfl hn hs hfit
    · exact (identity_overruns hk (by omega) hblock).bind _

theorem sameMatrix_nested {a : Dense K} (ha : a.Stored) (hsq : a.rows = a.cols) {m outer : Nat}
    (hm : (m : Int) ≤ Word.max) (hfit : offset + a.rows ≤ n) (hwhole : outer + n ≤ m) :
    SameMatrix m (embed (n : Int) offset a >>= embed (m : Int) outer)
      (embed (m : Int) (outer + offset : Nat) a) := by
  obtain ⟨k, A, hk, rfl⟩ := exists_square ha hsq
  rw [rows_ofMatrix] at hfit
  have hpos := hk.1
  constructor
  · intro hs
    have hn := hs.mono (n := n) (by omega) (by omega)
    refine ⟨_, ?_, embed_ofMatrix hs hpos (by omega) A⟩
    rw [embed_ofMatrix hn hpos hfit, ok_bind, embed_ofMatrix hs hn.1 hwhole]
    exact congrArg (fun M => Except.ok (ofMatrix M)) (placing_embedded hwhole hfit)
  · intro hs
    refine ⟨?_, embed_overruns ha hsq hm hs (by rw [rows_ofMatrix]; omega)⟩
    by_cases hn : Storable n
    · rw [embed_ofMatrix hn hpos hfit, ok_bind]
      exact embed_overruns (stored_ofMatrix (room_self_iff.mpr hn) _) rfl hm hs hwhole
    · exact (embed_overruns ha hsq (by omega) hn hfit).bind _

theorem sameMatrix_commute {a b : Dense K} (ha : a.Stored) (hb : b.Stored)
    (hsqa : a.rows = a.cols) (hsqb : b.rows = b.cols) (hn : (n : Int) ≤ Word.max) {offset' : Nat}
    (hfit : offset + a.rows ≤ n) (hfit' : offset' + b.rows ≤ n)
    (hapart : offset + a.rows ≤ offset' ∨ offset' + b.rows ≤ offset) :
    SameMatrix n
      (embed (n : Int) offset a >>= fun A => embed (n : Int) offset' b >>= fun B => mul A B)
      (embed (n : Int) offset' b >>= fun B => embed (n : Int) offset a >>= fun A => mul B A) := by
  constructor
  · intro hs
    have hwhole := room_self_iff.mpr hs
    obtain ⟨k, A, hk, rfl⟩ := exists_square ha hsqa
    obtain ⟨k', B, hk', rfl⟩ := exists_square hb hsqb
    simp only [rows_ofMatrix] at hfit hfit' hapart
    rw [embed_ofMatrix hs hk.1 hfit, embed_ofMatrix hs hk'.1 hfit', ok_bind, ok_bind, ok_bind,
      ok_bind, mul_ofMatrix hwhole hwhole hwhole, mul_ofMatrix hwhole hwhole hwhole,
      placing_commute hfit hfit' hapart]
    exact ⟨_, rfl, rfl⟩
  · intro hs
    exact ⟨(embed_overruns ha hsqa hn hs hfit).bind _, (embed_overruns hb hsqb hn hs hfit').bind _⟩

end Copies

theorem sameMatrix_adjoint [ConjugateScalar K] {a : Dense K} (ha : a.Stored)
    (hsq : a.rows = a.cols) (hn : (n : Int) ≤ Word.max) (hfit : offset + a.rows ≤ n) :
    SameMatrix n (embed (n : Int) offset a >>= adjoint) (adjoint a >>= embed (n : Int) offset) := by
  obtain ⟨k, A, hk, rfl⟩ := exists_square ha hsq
  have hroom := room_self_iff.mpr hk
  rw [adjoint_ofMatrix hroom, ok_bind]
  constructor
  · intro hs
    refine ⟨_, ?_, embed_ofMatrix hs hk.1 hfit A.conjTranspose⟩
    rw [embed_ofMatrix hs hk.1 hfit, ok_bind, adjoint_ofMatrix (room_self_iff.mpr hs)]
    exact congrArg (fun M => Except.ok (ofMatrix M)) (star_placing hfit A)
  · intro hs
    exact ⟨(embed_overruns ha hsq hn hs hfit).bind _,
      embed_overruns (stored_ofMatrix hroom A.conjTranspose) rfl hn hs hfit⟩

/-- Embedding puts a block on its modes of an identity. It is compatible with products, identities
and adjoints, blocks within blocks lie where the offsets add up, and blocks on disjoint modes
commute. -/
theorem embedding_is_homomorphic [ConjugateScalar K] {a b : Dense K} (ha : a.Stored)
    (hb : b.Stored) (hsqa : a.rows = a.cols) (hsqb : b.rows = b.cols) {n offset : Int}
    (hn : n ≤ Word.max) (hoffset : 0 ≤ offset) (hfit : offset + a.rows ≤ n) :
    (Storable n.toNat → ∃ U, embed n offset a = .ok U ∧ U.Stored ∧ U.rows = n ∧ U.cols = n ∧
      ∀ i j : Nat, i < n → j < n → U.get i j =
        if (offset ≤ i ∧ i < offset + a.rows) ∧ offset ≤ j ∧ j < offset + a.rows then
          a.get (i - offset.toNat) (j - offset.toNat)
        else if i = j then 1 else 0) ∧
    (b.rows = a.rows → SameMatrix n.toNat
      (embed n offset a >>= fun A => embed n offset b >>= fun B => mul A B)
      (mul a b >>= embed n offset)) ∧
    (∀ k : Int, 0 < k → offset + k ≤ n → SameMatrix n.toNat
      (identity k >>= embed n offset) (identity n : Except Failure (Dense K))) ∧
    SameMatrix n.toNat (embed n offset a >>= adjoint) (adjoint a >>= embed n offset) ∧
    (∀ m outer : Int, m ≤ Word.max → 0 ≤ outer → outer + n ≤ m → SameMatrix m.toNat
      (embed n offset a >>= embed m outer) (embed m (outer + offset) a)) ∧
    (∀ offset' : Int, 0 ≤ offset' → offset' + b.rows ≤ n →
      (offset + a.rows ≤ offset' ∨ offset' + b.rows ≤ offset) → SameMatrix n.toNat
        (embed n offset a >>= fun A => embed n offset' b >>= fun B => mul A B)
        (embed n offset' b >>= fun B => embed n offset a >>= fun A => mul B A)) := by
  obtain ⟨offset, rfl⟩ := Int.eq_ofNat_of_zero_le hoffset
  obtain ⟨n, rfl⟩ := Int.eq_ofNat_of_zero_le (a := n) (by omega)
  rw [Int.toNat_natCast, Int.toNat_natCast]
  refine ⟨fun hs => ?_, fun hrows => ?_, ?_, ?_, ?_, ?_⟩
  · obtain ⟨U, hU, hstored, hrows, hcols, hget⟩ :=
      entries_embed ha hsqa hs (by omega : offset + a.rows ≤ n)
    refine ⟨U, hU, hstored, congrArg _ hrows, congrArg _ hcols, fun i j hi hj => ?_⟩
    rw [hget i j (by omega) (by omega)]
    exact if_congr (by omega) rfl rfl
  · exact sameMatrix_mul ha hb hsqa hsqb hrows hn (by omega)
  · intro k hk hk'
    obtain ⟨k, rfl⟩ := Int.eq_ofNat_of_zero_le hk.le
    exact sameMatrix_identity (by omega) hn (by omega)
  · exact sameMatrix_adjoint ha hsqa hn (by omega)
  · intro m outer hm houter hwhole
    obtain ⟨outer, rfl⟩ := Int.eq_ofNat_of_zero_le houter
    obtain ⟨m, rfl⟩ := Int.eq_ofNat_of_zero_le (a := m) (by omega)
    rw [Int.toNat_natCast, ← Int.natCast_add]
    exact sameMatrix_nested ha hsqa hm (by omega) (by omega)
  · intro offset' hoffset' hfit' hapart
    obtain ⟨offset', rfl⟩ := Int.eq_ofNat_of_zero_le hoffset'
    exact sameMatrix_commute ha hb hsqa hsqb hn (by omega) (by omega) (by omega)

theorem embedding_is_homomorphic_pauli :
    ∃ (_ : ConjugateScalar GaussianInt) (x y : Dense GaussianInt),
      x.Stored ∧ y.Stored ∧ x.rows = x.cols ∧ y.rows = y.cols ∧ mul x y ≠ mul y x ∧
      (5 : Int) ≤ Word.max ∧ (0 : Int) ≤ 1 ∧ (1 : Int) + x.rows ≤ 5 ∧
      (∃ U, embed 5 1 y = .ok U ∧ U.get 1 2 = ⟨0, -1⟩ ∧ U.get 4 4 = 1) ∧
      (∃ U, (embed 5 1 x >>= fun X => embed 5 1 y >>= fun Y => mul X Y) = .ok U ∧
        (mul x y >>= embed 5 1) = .ok U) ∧
      (∃ U : Dense GaussianInt, (identity 3 >>= embed 5 1) = .ok U ∧ identity 5 = .ok U) ∧
      (∃ U, (embed 5 1 y >>= embed 9 3) = .ok U ∧ embed 9 4 y = .ok U) ∧
      ∃ U, (embed 5 1 x >>= fun X => embed 5 3 y >>= fun Y => mul X Y) = .ok U ∧
        (embed 5 3 y >>= fun Y => embed 5 1 x >>= fun X => mul Y X) = .ok U := by
  let _ := ConjugateScalar.ofStarRing GaussianInt
  let i : GaussianInt := ⟨0, 1⟩
  let x : Dense GaussianInt := ⟨2, 2, #[0, 1, 1, 0]⟩
  let y : Dense GaussianInt := ⟨2, 2, #[0, -i, i, 0]⟩
  have hx : x.Stored := ⟨by decide, rfl⟩
  have hy : y.Stored := ⟨by decide, rfl⟩
  have hword : (5 : Int) ≤ Word.max := by decide
  have hfit : (1 : Int) + x.rows ≤ 5 := by decide
  obtain ⟨_, hmul, hone, _, _, hapart⟩ := embedding_is_homomorphic hx hy rfl rfl hword
    (by decide : (0 : Int) ≤ 1) hfit
  obtain ⟨hentries, _, _, _, hnested, _⟩ := embedding_is_homomorphic hy hx rfl rfl hword
    (by decide : (0 : Int) ≤ 1) hfit
  have hcommutator : mul x y ≠ mul y x := by
    rw [mul_of_stored hx hy rfl (by decide), mul_of_stored hy hx rfl (by decide)]
    intro hsame
    have hcorner := congrArg (fun m : Dense GaussianInt => m.get 0 0) (Except.ok.inj hsame)
    rw [get_build (by decide) (by decide), get_build (by decide) (by decide)] at hcorner
    exact absurd hcorner (by decide)
  obtain ⟨U, hU, _, _, _, hget⟩ := hentries (by decide)
  exact ⟨ConjugateScalar.ofStarRing GaussianInt, x, y, hx, hy, rfl, rfl, hcommutator, hword,
    by decide, hfit, ⟨U, hU, hget 1 2 (by decide) (by decide), hget 4 4 (by decide) (by decide)⟩,
    (hmul rfl).stored (by decide), (hone 3 (by decide) (by decide)).stored (by decide),
    (hnested 9 3 (by decide) (by decide) (by decide)).stored (by decide),
    (hapart 3 (by decide) (by decide) (by decide)).stored (by decide)⟩

end Flat

end Dense

end DualRail
