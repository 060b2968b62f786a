import DualRail.Proofs.RailAction
import DualRail.Proofs.StandardCompilation

/-!
The rails of a laid out circuit. No photon enters a new mode, so what a network does to photons that
come in on rails and go out on rails is the product of what its gates do on the rails.
-/

namespace DualRail

open Standard

variable {n M : Nat}

section Rails

def railMode (r : Rail n) : Nat := 2 * r.1 + r.2

theorem railMode_lt (r : Rail n) : railMode r < 2 * n := by
  have := r.1.isLt
  have := r.2.isLt
  unfold railMode
  omega

theorem railMode_injective : Function.Injective (railMode (n := n)) := by
  rintro ⟨q, a⟩ ⟨p, b⟩ h
  have := a.isLt
  have := b.isLt
  simp only [railMode] at h
  have hqubit : q.val = p.val := by omega
  have hbit : a.val = b.val := by omega
  exact Prod.ext (Fin.ext hqubit) (Fin.ext hbit)

theorem exists_railMode {k : Nat} (h : k < 2 * n) : ∃ r : Rail n, railMode r = k :=
  ⟨(⟨k / 2, by omega⟩, ⟨k % 2, Nat.mod_lt k two_pos⟩), Nat.div_add_mod k 2⟩

def railIndex (hM : 2 * n ≤ M) (r : Rail n) : Fin M := ⟨railMode r, (railMode_lt r).trans_le hM⟩

/-- A matrix on modes, seen from the rails only. -/
def onRails (hM : 2 * n ≤ M) (P : Matrix (Fin M) (Fin M) ℂ) : Matrix (Rail n) (Rail n) ℂ :=
  P.submatrix (railIndex hM) (railIndex hM)

theorem onRails_apply (hM : 2 * n ≤ M) (P : Matrix (Fin M) (Fin M) ℂ) (r s : Rail n) :
    onRails hM P r s = P (railIndex hM r) (railIndex hM s) := rfl

theorem railIndex_injective (hM : 2 * n ≤ M) : Function.Injective (railIndex (n := n) hM) :=
  fun _ _ h => railMode_injective (congrArg Fin.val h)

theorem onRails_one (hM : 2 * n ≤ M) : onRails (n := n) hM 1 = 1 :=
  Matrix.submatrix_one _ (railIndex_injective hM)

/-- Matrices multiply on the rails if nothing goes through the other modes. -/
theorem onRails_mul (hM : 2 * n ≤ M) {G H : Matrix (Fin M) (Fin M) ℂ}
    (h : ∀ (r s : Rail n) (k : Fin M), 2 * n ≤ k.val →
      G (railIndex hM r) k * H k (railIndex hM s) = 0) :
    onRails hM (G * H) = onRails hM G * onRails hM H := by
  funext r s
  rw [onRails_apply, Matrix.mul_apply, Matrix.mul_apply]
  symm
  refine Finset.sum_of_injOn (railIndex hM) ?_ ?_ ?_ ?_
  · exact fun a _ b _ hab => railIndex_injective hM hab
  · exact fun a _ => Finset.mem_coe.mpr (Finset.mem_univ _)
  · intro k _ hk
    apply h
    by_contra hlt
    obtain ⟨u, hu⟩ := exists_railMode (Nat.not_le.mp hlt)
    exact hk ⟨u, Finset.mem_coe.mpr (Finset.mem_univ _), Fin.ext hu⟩
  · exact fun a _ => rfl

end Rails

section Blocks

variable {p : Placement (Device ℝ) ℝ} {V : Dense (Amplitude ℝ)}

noncomputable def complexBlock (M : Nat) (block : List Nat) (V : Dense (Amplitude ℝ)) :
    Matrix (Fin M) (Fin M) ℂ :=
  Amplitude.complexHom.mapMatrix (blockMatrix M block V)

theorem complexBlock_apply (block : List Nat) (V : Dense (Amplitude ℝ)) (i j : Fin M) :
    complexBlock M block V i j =
      if i.val ∈ block ∧ j.val ∈ block then
        (V.get (block.idxOf i.val) (block.idxOf j.val)).toComplex
      else if i = j then 1 else 0 := by
  change Amplitude.complexHom (blockMatrix M block V i j) = _
  unfold blockMatrix
  split
  · rfl
  · split
    · exact map_one _
    · exact map_zero _

theorem complexBlock_outside {block : List Nat} (V : Dense (Amplitude ℝ)) {i j : Fin M}
    (h : i.val ∉ block ∨ j.val ∉ block) :
    complexBlock M block V i j = if i = j then 1 else 0 := by
  rw [complexBlock_apply, if_neg fun hmem => h.elim (· hmem.1) (· hmem.2)]

theorem Placement.Sound.mem_block (h : p.Sound n) {x : Nat} (hx : x ∈ p.block) :
    (∃ q ∈ p.qubits, x = 2 * q ∨ x = 2 * q + 1) ∨ p.base ≤ x := by
  rcases List.mem_append.mp ((h.valid.block_perm p.base h.length_qubits).mem_iff.mp hx) with
    hx | hx
  · obtain ⟨q, hq, hxq⟩ := List.mem_flatMap.mp hx
    exact .inl ⟨q, hq, by simpa using hxq⟩
  · exact .inr (List.mem_range'_1.mp hx).1

theorem Placement.Sound.not_mem_block (h : p.Sound n) {x : Nat} (hlow : 2 * n ≤ x)
    (hhigh : x < p.base) : x ∉ p.block := by
  intro hx
  rcases h.mem_block hx with ⟨q, hq, he⟩ | he
  · have := h.lt q hq
    omega
  · omega

theorem Placement.Sound.rail_not_mem (h : p.Sound n) {r : Rail n} (hr : r.1.val ∉ p.qubits) :
    railMode r ∉ p.block := by
  intro hmem
  have hlt := railMode_lt r
  have hbit := r.2.isLt
  have hbase := h.le_base
  rcases h.mem_block hmem with ⟨q, hq, he⟩ | he
  · have hqr : q = r.1.val := by
      unfold railMode at he
      omega
    exact hr (hqr ▸ hq)
  · omega

theorem Placement.Sound.idxOf_rail (h : p.Sound n) {k : Nat} {off : Int} {q : Fin n}
    (hoff : p.fragment.qubitOffsets[k]? = some off) (hq : p.qubits[k]? = some q.val) (b : Fin 2) :
    railMode (q, b) ∈ p.block ∧ p.block.idxOf (railMode (q, b)) = off.toNat + b := by
  obtain ⟨hzero, hone⟩ := h.isBlock.rails k off q hoff hq
  have hat : p.block[off.toNat + b]? = some (railMode (q, b)) := by
    rcases (by omega : b = 0 ∨ b = 1) with rfl | rfl
    · exact hzero
    · exact hone
  obtain ⟨hlt, hget⟩ := List.getElem?_eq_some_iff.mp hat
  refine ⟨List.mem_of_getElem? hat, ?_⟩
  rw [← hget]
  exact h.block_nodup.idxOf_getElem _ hlt

structure Places {w : Nat} (pos : Rail n → Option (Fin w)) (block : List Nat) : Prop where
  inside : ∀ r i, pos r = some i → railMode r ∈ block ∧ block.idxOf (railMode r) = i.val
  outside : ∀ r, pos r = none → railMode r ∉ block

theorem Places.onRails_complexBlock {w : Nat} {pos : Rail n → Option (Fin w)} {block : List Nat}
    (h : Places pos block) (hM : 2 * n ≤ M) {W : Matrix (Fin w) (Fin w) ℂ}
    (hV : ∀ i j : Fin w, (V.get i j).toComplex = W i j) :
    onRails hM (complexBlock M block V) = spread pos W := by
  have houtside : ∀ r s : Rail n, railMode r ∉ block ∨ railMode s ∉ block →
      onRails hM (complexBlock M block V) r s = if r = s then 1 else 0 := by
    intro r s hmem
    rw [onRails_apply, complexBlock_outside V hmem]
    simp only [(railIndex_injective hM).eq_iff]
  funext r s
  cases hr : pos r with
  | none => rw [spread_outside_row W hr, houtside r s (.inl (h.outside r hr))]
  | some i =>
    cases hs : pos s with
    | none => rw [spread_outside_column W r hs, houtside r s (.inr (h.outside s hs))]
    | some j =>
      obtain ⟨hrm, hri⟩ := h.inside r i hr
      obtain ⟨hsm, hsj⟩ := h.inside s j hs
      rw [spread_inside W hr hs, onRails_apply, complexBlock_apply, if_pos ⟨hrm, hsm⟩]
      change (V.get (block.idxOf (railMode r)) (block.idxOf (railMode s))).toComplex = W i j
      rw [hri, hsj, hV]

theorem Placement.Sound.places_pair {w : Nat} (h : p.Sound n) {c t : Fin n} {first second : Int}
    (hq : p.qubits = [c.val, t.val]) (hoff : p.fragment.qubitOffsets = [first, second])
    {atFirst atSecond : Fin 2 → Fin w} (hfirst : ∀ b, (atFirst b).val = first.toNat + b)
    (hsecond : ∀ b, (atSecond b).val = second.toNat + b) :
    Places (fun r : Rail n => if r.1 = c then some (atFirst r.2)
      else if r.1 = t then some (atSecond r.2) else none) p.block := by
  constructor
  · rintro ⟨q, b⟩ i hi
    simp only at hi
    by_cases hc : q = c
    · subst hc
      rw [if_pos rfl] at hi
      obtain rfl := Option.some.inj hi
      rw [hfirst]
      exact h.idxOf_rail (k := 0) (by rw [hoff]; rfl) (by rw [hq]; rfl) b
    · rw [if_neg hc] at hi
      by_cases ht : q = t
      · subst ht
        rw [if_pos rfl] at hi
        obtain rfl := Option.some.inj hi
        rw [hsecond]
        exact h.idxOf_rail (k := 1) (by rw [hoff]; rfl) (by rw [hq]; rfl) b
      · rw [if_neg ht] at hi
        cases hi
  · intro r hr
    apply h.rail_not_mem
    rw [hq]
    intro hmem
    simp only [List.mem_cons, List.not_mem_nil, or_false] at hmem
    rcases hmem with hc | ht
    · rw [if_pos (Fin.ext hc)] at hr
      cases hr
    · by_cases hc : r.1 = c
      · rw [if_pos hc] at hr
        cases hr
      · rw [if_neg hc, if_pos (Fin.ext ht)] at hr
        cases hr

theorem Placement.Sound.places_single (h : p.Sound n) {q : Fin n} (hq : p.qubits = [q.val])
    (hoff : p.fragment.qubitOffsets = [0]) :
    Places (fun r : Rail n => if r.1 = q then some r.2 else none) p.block := by
  constructor
  · rintro ⟨i, b⟩ j hj
    simp only at hj
    by_cases hi : i = q
    · subst hi
      rw [if_pos rfl] at hj
      obtain rfl := Option.some.inj hj
      have hat := h.idxOf_rail (k := 0) (by rw [hoff]; rfl) (by rw [hq]; rfl) b
      rw [Int.toNat_zero, Nat.zero_add] at hat
      exact hat
    · rw [if_neg hi] at hj
      cases hj
  · intro r hr
    apply h.rail_not_mem
    rw [hq, List.mem_singleton]
    intro he
    rw [if_pos (Fin.ext he)] at hr
    cases hr

def firstPair (b : Fin 2) : Fin 4 := ⟨b, by omega⟩

def secondPair (b : Fin 2) : Fin 4 := ⟨2 + b, by omega⟩

def swapPosition (a b : Fin n) (r : Rail n) : Option (Fin 4) :=
  if r.1 = a then some (firstPair r.2) else if r.1 = b then some (secondPair r.2) else none

theorem swapMatrix_pairs (x y : Fin 2) :
    swapMatrix (firstPair x) (firstPair y) = 0 ∧ swapMatrix (secondPair x) (secondPair y) = 0 ∧
      swapMatrix (firstPair x) (secondPair y) = (if x = y then 1 else 0) ∧
      swapMatrix (secondPair x) (firstPair y) = if x = y then 1 else 0 := by
  fin_cases x <;> fin_cases y <;> simp [swapMatrix, firstPair, secondPair]

theorem spread_swap {a b : Fin n} (hab : a ≠ b) :
    spread (swapPosition a b) swapMatrix = (LogicalGate.swap a b).railMatrix := by
  funext r s
  obtain ⟨i, x⟩ := r
  obtain ⟨j, y⟩ := s
  obtain ⟨hff, hss, hfs, hsf⟩ := swapMatrix_pairs x y
  simp only [swap_railMatrix_apply, spread, swapPosition, Prod.mk.injEq]
  by_cases hja : j = a
  · subst hja
    rw [Equiv.swap_apply_left]
    by_cases hij : i = j
    · simp [hij, hff, hab]
    · by_cases hib : i = b <;> simp [hij, hib, hsf, hab.symm]
  · by_cases hjb : j = b
    · subst hjb
      rw [Equiv.swap_apply_right]
      by_cases hia : i = a
      · simp [hia, hja, hfs]
      · by_cases hij : i = j <;> simp [hia, hij, hja, hss]
    · rw [Equiv.swap_apply_of_ne_of_ne hja hjb]
      simp [hja, hjb]

theorem spread_single (q : Fin n) (A : Matrix (Fin 2) (Fin 2) ℂ) :
    spread (fun r : Rail n => if r.1 = q then some r.2 else none) A =
      (LogicalGate.single q A).railMatrix := by
  funext r s
  rw [single_railMatrix_apply, spread]
  by_cases hr : r.1 = q
  · by_cases hs : s.1 = q <;> simp [hr, hs]
  · simp [hr]

/-- On the rails a placed gate acts as its gate does. -/
theorem onRails_of_implements {l : LogicalGate n} (himp : Implements l p.qubits p.fragment)
    (hp : p.Sound n) (hV : p.circuit.matrix = .ok V) (hM : 2 * n ≤ M) :
    onRails hM (complexBlock M p.block V) = l.railMatrix := by
  obtain ⟨_, hV', _, hentry⟩ := himp.exists_matrix hp.valid.circuit
  obtain rfl := Except.ok.inj (hV.symm.trans hV')
  obtain ⟨f, circuit, qubits, base⟩ := p
  cases himp with
  | @single q A kind parts hA =>
    rw [← spread_single]
    exact (hp.places_single rfl rfl).onRails_complexBlock hM hentry
  | @cx c t hct =>
    have hplaces : Places (railPosition c t) _ :=
      hp.places_pair rfl rfl (fun _ => rfl) fun _ => rfl
    exact hplaces.onRails_complexBlock hM hentry
  | @cz c t hct =>
    have hplaces : Places (railPosition c t) _ :=
      hp.places_pair rfl rfl (fun _ => rfl) fun _ => rfl
    exact hplaces.onRails_complexBlock hM hentry
  | @swap a b perm hab hperm =>
    have hplaces : Places (swapPosition a b) _ :=
      hp.places_pair rfl rfl (fun x => (Nat.zero_add x.val).symm) fun _ => rfl
    rw [← spread_swap hab]
    exact hplaces.onRails_complexBlock hM hentry

end Blocks

section Layouts

variable {s : Settings (Device ℝ) ℝ} {p : Placement (Device ℝ) ℝ} {V : Dense (Amplitude ℝ)}
  {H : Matrix (Fin M) (Fin M) ℂ}

/-- Photons from the rails do not reach the modes from `base` on. -/
def Fresh (hM : 2 * n ≤ M) (base : Nat) (H : Matrix (Fin M) (Fin M) ℂ) : Prop :=
  ∀ (i : Fin M) (s : Rail n), base ≤ i.val → H i (railIndex hM s) = 0

theorem fresh_one (hM : 2 * n ≤ M) : Fresh (n := n) hM (2 * n) 1 := by
  intro i s hi
  apply Matrix.one_apply_ne
  rintro rfl
  exact absurd (railMode_lt s) (Nat.not_lt.mpr hi)

/-- A gate reaches no modes but those of its block, and meets only fresh ones of these besides the
rails. -/
theorem Fresh.onRails_mul (hp : p.Sound n) {hM : 2 * n ≤ M} (hH : Fresh (n := n) hM p.base H) :
    onRails hM (complexBlock M p.block V * H) =
      onRails hM (complexBlock M p.block V) * onRails (n := n) hM H := by
  refine DualRail.onRails_mul hM fun r s k hk => ?_
  by_cases hbase : p.base ≤ k.val
  · rw [hH k s hbase, mul_zero]
  · have hout : k.val ∉ p.block := hp.not_mem_block hk (Nat.not_le.mp hbase)
    have hne : railIndex hM r ≠ k := by
      rintro rfl
      exact absurd (railMode_lt r) (Nat.not_lt.mpr hk)
    rw [complexBlock_outside V (.inr hout), if_neg hne, zero_mul]

theorem Fresh.step (hp : p.Sound n) {hM : 2 * n ≤ M} (hH : Fresh (n := n) hM p.base H) :
    Fresh (n := n) hM p.stop (complexBlock M p.block V * H) := by
  intro i s hi
  have hout : i.val ∉ p.block := fun hmem => absurd (hp.block_lt _ hmem) (Nat.not_lt.mpr hi)
  rw [Matrix.mul_apply, Fintype.sum_eq_single i]
  · rw [hH i s ((Nat.le_add_right _ _).trans hi), mul_zero]
  · intro k hk
    rw [complexBlock_outside V (.inl hout), if_neg fun he => hk he.symm, zero_mul]

/-- On the rails the gates of a layout act one after the other. -/
theorem onRails_layout (hr : s.registry.Built) {base : Nat} {gs : List (Gate ℝ)}
    {ps : List (Placement (Device ℝ) ℝ)} (h : LaysOut s n base gs ps) (hb : 2 * n ≤ base)
    {hM : 2 * n ≤ M} {ls : List (LogicalGate n)} {Vs : List (Dense (Amplitude ℝ))}
    (himp : List.Forall₂ (fun l p => Implements l p.qubits p.fragment) ls ps)
    (hV : List.Forall₂ (fun p V => p.circuit.matrix = .ok V) ps Vs)
    (hH : Fresh (n := n) hM base H) :
    onRails hM (Amplitude.complexHom.mapMatrix (gateMatrices M ps Vs).reverse.prod * H) =
      (ls.map LogicalGate.railMatrix).reverse.prod * onRails hM H := by
  induction h generalizing ls Vs H with
  | nil =>
    cases himp
    cases hV
    simp [gateMatrices]
  | @cons base g gs p ps hlay _ ih =>
    cases himp with
    | cons hl himp =>
      cases hV with
      | @cons _ V _ Vs hVp hV =>
        have hp := hlay.sound hr hb
        have hH : Fresh (n := n) hM p.base H := by
          rw [hlay.base]
          exact hH
        have hrest := ih (hb.trans hlay.le_stop) himp hV (hH.step (V := V) hp)
        rw [hH.onRails_mul hp, onRails_of_implements hl hp hVp hM] at hrest
        simp only [gateMatrices, List.zipWith_cons_cons, List.map_cons, List.reverse_cons,
          List.prod_append, List.prod_singleton, map_mul, Matrix.mul_assoc]
        exact hrest

end Layouts

end DualRail
