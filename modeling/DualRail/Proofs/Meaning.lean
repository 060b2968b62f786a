import DualRail.Proofs.Compilation

/-!
The matrices of placements. Every placed fragment acts on the modes of its block as its own circuit
does and leaves all other modes alone, whichever entries it was emitted as; the entries of a layout
have the product of these matrices, the last gate on the left.
-/

namespace DualRail

section Block

variable {K : Type} [ExactScalar K]

/-- The matrix on `m` modes that acts on the modes of a block as `V` does on their positions and
leaves all other modes alone. -/
def blockMatrix (m : Nat) (block : List Nat) (V : Dense K) : Matrix (Fin m) (Fin m) K := fun i j =>
  if i.val ∈ block ∧ j.val ∈ block then V.get (block.idxOf i.val) (block.idxOf j.val)
  else if i = j then 1
  else 0

variable {m start : Nat} {block : List Nat} {V : Dense K} {f g : Nat → Nat}

theorem mem_block_iff (hinv : ∀ i, g (f i) = i)
    (hblock : ∀ a x, block[a]? = some x → f x = start + a) (i : Nat) :
    i ∈ block ↔ start ≤ f i ∧ f i < start + block.length := by
  constructor
  · intro hi
    obtain ⟨a, ha⟩ := List.mem_iff_getElem?.mp hi
    have := hblock a i ha
    have := (List.getElem?_eq_some_iff.mp ha).1
    omega
  · rintro ⟨hlow, hhigh⟩
    have hlt : f i - start < block.length := by omega
    have hx := hblock (f i - start) _ (List.getElem?_eq_getElem hlt)
    have he : f block[f i - start] = f i := by omega
    have hi : block[f i - start] = i := (hinv _).symm.trans ((congrArg g he).trans (hinv i))
    rw [← hi]
    exact List.getElem_mem hlt

theorem embedEntry_eq_blockMatrix (hinv : ∀ i, g (f i) = i)
    (hblock : ∀ a x, block[a]? = some x → f x = start + a) (hV : V.rows = block.length)
    (i j : Fin m) :
    Dense.embedEntry start V (f i) (f j) = blockMatrix m block V i j := by
  have hidx : ∀ x ∈ block, f x = start + block.idxOf x := fun x hx =>
    hblock _ x (by rw [List.getElem?_idxOf hx])
  have hrange : (i.val ∈ block ∧ j.val ∈ block) ↔
      (start ≤ f i ∧ f i < start + block.length) ∧ start ≤ f j ∧ f j < start + block.length :=
    and_congr (mem_block_iff hinv hblock i) (mem_block_iff hinv hblock j)
  have hδ : f i = f j ↔ i = j := by
    refine ⟨fun h => Fin.ext ?_, fun h => by rw [h]⟩
    exact (hinv i).symm.trans ((congrArg g h).trans (hinv j))
  rw [Dense.embedEntry_eq, hV, blockMatrix]
  by_cases hmem : i.val ∈ block ∧ j.val ∈ block
  · rw [if_pos hmem, if_pos (hrange.mp hmem), hidx i hmem.1, hidx j hmem.2,
      Nat.add_sub_cancel_left, Nat.add_sub_cancel_left]
  · rw [if_neg hmem, if_neg fun h => hmem (hrange.mpr h)]
    by_cases hij : i = j
    · rw [if_pos hij, if_pos (hδ.mpr hij)]
    · rw [if_neg hij, if_neg fun h => hij (hδ.mp h)]

/-- Bringing a block to consecutive modes, acting on these and bringing it back is acting on the
block. -/
theorem conjugate_eq_blockMatrix (hinv : ∀ i, g (f i) = i) (hinj : Function.Injective g)
    (hf : ∀ j, j < m → f j < m) (hblock : ∀ a x, block[a]? = some x → f x = start + a)
    (hV : V.rows = block.length) :
    modeMatrix m g * (Dense.embedded m start V * modeMatrix m f) = blockMatrix m block V := by
  funext i j
  rw [modeMatrix_mul _ hinj ⟨f i, hf i i.isLt⟩ (hinv i), mul_modeMatrix _ hf]
  exact embedEntry_eq_blockMatrix hinv hblock hV i j

end Block

section Entries

variable {α K : Type} [Element α] [ExactScalar K] [Transfer α K] {M : Nat}

/-- The entries have matrices on `M` modes, with the given product. -/
def HaveProduct (M : Nat) (entries : List (Entry (Component α))) (P : Matrix (Fin M) (Fin M) K) :
    Prop :=
  ∃ Ms, List.Forall₂ (Entry.HasMatrix M) entries Ms ∧ Ms.reverse.prod = P

theorem haveProduct_nil : HaveProduct M ([] : List (Entry (Component α)))
    (1 : Matrix (Fin M) (Fin M) K) := ⟨[], .nil, rfl⟩

theorem haveProduct_singleton {e : Entry (Component α)} {P : Matrix (Fin M) (Fin M) K}
    (h : e.HasMatrix M P) : HaveProduct M [e] P :=
  ⟨[P], .cons h .nil, by simp⟩

theorem HaveProduct.append {es fs : List (Entry (Component α))} {P Q : Matrix (Fin M) (Fin M) K}
    (hP : HaveProduct M es P) (hQ : HaveProduct M fs Q) : HaveProduct M (es ++ fs) (Q * P) := by
  obtain ⟨Ps, hPs, rfl⟩ := hP
  obtain ⟨Qs, hQs, rfl⟩ := hQ
  refine ⟨Ps ++ Qs, List.rel_append hPs hQs, ?_⟩
  rw [List.reverse_append, List.prod_append]

theorem haveProduct_permutationEntries (hm : Dense.Storable M) (keep : Bool) {p : Permutation}
    (h : p.width ≤ M) :
    HaveProduct M (permutationEntries keep p : List (Entry (Component α)))
      (modeMatrix M p.apply : Matrix (Fin M) (Fin M) K) := by
  unfold permutationEntries
  split
  · rename_i hid
    have hone := Permutation.isIdentity_iff.mp (Bool.and_eq_true_iff.mp hid).1
    rw [modeMatrix_congr fun j _ => hone j, modeMatrix_id]
    exact haveProduct_nil
  · have hraise : ∀ j, (p.raise 0 0).apply j = p.apply j := by
      intro j
      rw [Permutation.raise_apply]
      split
      · simp
      · rename_i hj
        exact (Permutation.apply_of_le (by omega)).symm
    rw [← modeMatrix_congr fun j _ => hraise j]
    exact haveProduct_singleton (hasMatrix_perm hm p (by omega))

theorem haveProduct_foldedEntries (hm : Dense.Storable M) (keep : Bool) {p : Permutation}
    (h : p.width ≤ M) :
    HaveProduct M (foldedEntries keep p : List (Entry (Component α)))
      (modeMatrix M p.apply : Matrix (Fin M) (Fin M) K) := by
  unfold foldedEntries
  cases ht : p.trim with
  | none => exact haveProduct_permutationEntries hm keep h
  | some core =>
    obtain ⟨lo, core⟩ := core
    obtain ⟨hfit, hraise⟩ := Permutation.trim_eq_some ht
    have happly : ∀ j, (core.raise lo 0).apply j = p.apply j := by
      intro j
      rw [← hraise, Permutation.raise_apply, Permutation.raise_apply]
    rw [← modeMatrix_congr fun j _ => happly j]
    exact haveProduct_singleton (hasMatrix_perm hm core (hfit.trans h))

end Entries

section Placed

variable {α R K : Type} [Element α] [Quantity R] [ExactScalar K] [Transfer α K] {M n : Nat}
  {p : Placement α R} {V : Dense K}

theorem square_of_matrix {c : Network α} (h : c.matrix = .ok V) :
    V.rows = c.width ∧ V.cols = c.width := by
  obtain ⟨_, Ms, _, rfl⟩ := hasMatrix_of_matrix_net h
  exact ⟨rfl, rfl⟩

theorem hasMatrix_circuit {c : Network α} {offset : Nat} (h : c.matrix = .ok V)
    (hfit : offset + c.width ≤ M) :
    Entry.HasMatrix M (⟨offset, c.toComponent⟩ : Entry (Component α))
      (Dense.embedded M offset V) := by
  obtain ⟨hrows, hcols⟩ := square_of_matrix h
  exact ⟨V, h, by rw [hrows, hcols], by rw [hrows]; exact hfit, rfl⟩

theorem Route.Carries.forward_lt {r : Route} {m : Nat} {block : List Nat} (h : r.Carries m block)
    (hM : m ≤ M) : ∀ j, j < M → r.forward.apply j < M := by
  intro j hj
  by_cases hm : j < m
  · have := Permutation.apply_lt (p := r.forward) (i := j) (by rw [h.width_forward]; exact hm)
    rw [h.width_forward] at this
    omega
  · rw [Permutation.apply_of_le (by rw [h.width_forward]; omega)]
    exact hj

theorem Route.Carries.conjugate_eq {r : Route} (hr : r.Carries p.stop p.block) (hp : p.Sound n)
    (hV : p.circuit.matrix = .ok V) (hM : p.stop ≤ M) :
    modeMatrix M r.inverse.apply * (Dense.embedded M r.start V * modeMatrix M r.forward.apply) =
      blockMatrix M p.block V := by
  have hrows := (square_of_matrix hV).1
  rw [← hp.length_block] at hrows
  refine conjugate_eq_blockMatrix ?_ (Permutation.apply_injective _) (hr.forward_lt hM)
    hr.forward_apply hrows
  intro i
  rw [hr.inverse_eq, Permutation.inverse_apply_apply]

omit [Element α] in
theorem Placement.Sound.getElem?_direct (hp : p.Sound n) {q : Nat} (hq : p.qubits = [q])
    (hd : p.isDirect = true) {a x : Nat} (ha : p.block[a]? = some x) : x = 2 * q + a := by
  obtain ⟨_, _, _, hoff, hw⟩ := hp.direct hd
  obtain ⟨h₀, h₁⟩ := hp.isBlock.rails 0 0 q (by rw [hoff]; rfl) (by rw [hq]; rfl)
  have hlen := hp.length_block
  have hlt := (List.getElem?_eq_some_iff.mp ha).1
  rcases (by omega : a = 0 ∨ a = 1) with rfl | rfl
  · exact Option.some.inj (ha.symm.trans h₀)
  · exact Option.some.inj (ha.symm.trans h₁)

theorem Placement.Sound.haveProduct_direct (hp : p.Sound n) {q : Nat} (hq : p.qubits = [q])
    (hd : p.isDirect = true) (hV : p.circuit.matrix = .ok V) (hM : p.stop ≤ M) :
    HaveProduct M [⟨2 * q, p.circuit.toComponent⟩] (blockMatrix M p.block V) := by
  have hrows := (square_of_matrix hV).1
  have hlen := hp.length_block
  obtain ⟨_, _, _, _, hw⟩ := hp.direct hd
  have hfit : 2 * q + p.circuit.width ≤ M := by
    have hlast : p.block[1]? = some p.block[1] := List.getElem?_eq_getElem (by omega)
    have := hp.getElem?_direct hq hd hlast
    have := hp.block_lt _ (List.mem_of_getElem? hlast)
    omega
  have hconj := conjugate_eq_blockMatrix (m := M) (f := fun i => i) (g := fun i => i)
    (fun _ => rfl) Function.injective_id (fun _ hj => hj)
    (fun _ _ ha => hp.getElem?_direct hq hd ha) (hrows.trans hlen.symm)
  rw [modeMatrix_id, Matrix.one_mul, Matrix.mul_one] at hconj
  rw [← hconj]
  exact haveProduct_singleton (hasMatrix_circuit hV hfit)

theorem Route.Carries.folded_eq {r : Route} (hr : r.Carries p.stop p.block) (hp : p.Sound n)
    (hV : p.circuit.matrix = .ok V) (hM : p.stop ≤ M) {inner : Permutation}
    (hinner : p.circuit.asPermutation = .ok (some inner)) {f : Nat → Nat}
    (hf : ∀ j, r.inverse.apply ((inner.raise r.start 0).apply (r.forward.apply j)) = f j) :
    (modeMatrix M f : Matrix (Fin M) (Fin M) K) = blockMatrix M p.block V := by
  have hinside : ∀ j, j < M → (inner.raise r.start 0).apply (r.forward.apply j) < M := by
    intro j hj
    have hlt := hr.forward_lt hM j hj
    have hin := (width_asPermutation_net hinner).trans hp.length_block.symm
    have hend := hr.start_add_le
    rw [Permutation.raise_apply]
    split
    · have := Permutation.apply_lt (p := inner) (i := r.forward.apply j - r.start) (by omega)
      omega
    · exact hlt
  rw [← hr.conjugate_eq hp hV hM, matrix_of_asPermutation hinner hV, embedded_matrix,
    modeMatrix_mul_modeMatrix (hr.forward_lt hM), modeMatrix_mul_modeMatrix hinside]
  exact modeMatrix_congr fun j _ => (hf j).symm

/-- Whichever entries a placement was emitted as, they act on its block as its circuit does. -/
theorem Placement.Emits.haveProduct {keep : Bool} {entries : List (Entry (Component α))}
    (hm : Dense.Storable M) (hp : p.Sound n) (hV : p.circuit.matrix = .ok V) (hM : p.stop ≤ M)
    (h : p.Emits keep entries) : HaveProduct M entries (blockMatrix M p.block V) := by
  cases h with
  | @direct q hq hanc =>
    exact hp.haveProduct_direct hq (by simp [Placement.isDirect, hq, hanc]) hV hM
  | @folded r inner whole hr hinner hwidth happly =>
    rw [← hr.folded_eq hp hV hM hinner fun j => (happly j).symm]
    exact haveProduct_foldedEntries hm keep (by omega)
  | @routed r hr =>
    have hforward : r.forward.width ≤ M := by rw [hr.width_forward]; exact hM
    have hinverse : r.inverse.width ≤ M := by
      rw [hr.inverse_eq, Permutation.width_inverse]
      exact hforward
    have hfit : r.start + p.circuit.width ≤ M := by
      have := hr.start_add_le
      have := hp.length_block
      omega
    rw [← hr.conjugate_eq hp hV hM]
    exact ((haveProduct_permutationEntries hm keep hforward).append
      (haveProduct_singleton (hasMatrix_circuit hV hfit))).append
        (haveProduct_permutationEntries hm keep hinverse)

/-- The matrices of the gates of a layout, in the order of the gates. -/
def gateMatrices (M : Nat) (ps : List (Placement α R)) (Vs : List (Dense K)) :
    List (Matrix (Fin M) (Fin M) K) :=
  List.zipWith (fun p V => blockMatrix M p.block V) ps Vs

theorem haveProduct_flatten {keep : Bool} {ps : List (Placement α R)} {Vs : List (Dense K)}
    {ess : List (List (Entry (Component α)))} (hm : Dense.Storable M) (hs : ∀ p ∈ ps, p.Sound n)
    (hM : ∀ p ∈ ps, p.stop ≤ M) (he : List.Forall₂ (Placement.Emits keep) ps ess)
    (hV : List.Forall₂ (fun p V => p.circuit.matrix = .ok V) ps Vs) :
    HaveProduct M ess.flatten (gateMatrices M ps Vs).reverse.prod := by
  induction he generalizing Vs with
  | nil =>
    cases hV
    exact haveProduct_nil
  | cons hemit _ ih =>
    cases hV with
    | cons hfirst hV =>
      obtain ⟨hsp, hs⟩ := List.forall_mem_cons.mp hs
      obtain ⟨hMp, hM⟩ := List.forall_mem_cons.mp hM
      rw [List.flatten_cons, gateMatrices, List.zipWith_cons_cons, List.reverse_cons,
        List.prod_append, List.prod_singleton]
      exact (hemit.haveProduct hm hsp hfirst hMp).append (ih hs hM hV)

/-- A network whose entries have a product has that matrix, provided it can be stored at all. -/
theorem Network.matrix_of_haveProduct {net : Network α}
    {P : Matrix (Fin net.width) (Fin net.width) K}
    (h : Dense.Storable net.width → HaveProduct net.width net.entries P) :
    net.matrix = (Dense.identity net.width).map fun _ : Dense K => Dense.ofMatrix P := by
  cases hid : Dense.identity (K := K) (net.width : Int) with
  | ok one =>
    have hm := Dense.storable_of_identity hid
    obtain ⟨Ms, hMs, rfl⟩ := h hm
    exact matrix_net_of_hasMatrix hm hMs
  | error f =>
    change (Component.net net.name net.width net.entries).matrix = _
    rw [Component.matrix, hid]
    rfl

end Placed

end DualRail
