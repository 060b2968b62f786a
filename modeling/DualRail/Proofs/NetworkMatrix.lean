import Mathlib
import DualRail.Proofs.Checked
import DualRail.Proofs.PermutationAction

/-!
The matrix of a network over exact scalars. Every entry contributes one matrix on all modes of the
network, and the network has a matrix exactly if its width can be stored and every entry has one;
it is their product, the last entry on the left. A component that only rewires has the matrix of
the permutation it amounts to.
-/

namespace DualRail

/-- The matrix that sends mode `j` to mode `f j`. -/
def modeMatrix {K : Type} [Scalar K] (m : Nat) (f : Nat → Nat) : Matrix (Fin m) (Fin m) K :=
  fun i j => if f j = i then 1 else 0

section Product

variable {K : Type} [ExactScalar K] {m : Nat}

theorem mul_modeMatrix (M : Matrix (Fin m) (Fin m) K) {f : Nat → Nat}
    (hf : ∀ j, j < m → f j < m) (i j : Fin m) :
    (M * modeMatrix m f : Matrix (Fin m) (Fin m) K) i j = M i ⟨f j, hf j j.isLt⟩ := by
  rw [Matrix.mul_apply, Finset.sum_eq_single ⟨f j, hf j j.isLt⟩]
  · simp [modeMatrix]
  · intro k _ hk
    have hne : ¬ f j = k.val := fun e => hk (Fin.ext e.symm)
    simp [modeMatrix, hne]
  · intro h
    exact absurd (Finset.mem_univ _) h

theorem modeMatrix_mul {f : Nat → Nat} (M : Matrix (Fin m) (Fin m) K)
    (hf : Function.Injective f) {i j : Fin m} (k : Fin m) (hk : f k = i) :
    (modeMatrix m f * M : Matrix (Fin m) (Fin m) K) i j = M k j := by
  rw [Matrix.mul_apply, Finset.sum_eq_single k]
  · simp [modeMatrix, hk]
  · intro l _ hl
    have hne : ¬ f l = i.val := fun e => hl (Fin.ext (hf (e.trans hk.symm)))
    simp [modeMatrix, hne]
  · intro h
    exact absurd (Finset.mem_univ _) h

theorem modeMatrix_mul_modeMatrix {f g : Nat → Nat} (hg : ∀ j, j < m → g j < m) :
    (modeMatrix m f * modeMatrix m g : Matrix (Fin m) (Fin m) K) =
      modeMatrix m fun j => f (g j) := by
  funext i j
  rw [mul_modeMatrix _ hg]
  rfl

theorem modeMatrix_id : (modeMatrix m fun j => j : Matrix (Fin m) (Fin m) K) = 1 := by
  funext i j
  simp [modeMatrix, Matrix.one_apply, Fin.ext_iff, eq_comm]

theorem modeMatrix_congr {f g : Nat → Nat} (h : ∀ j, j < m → f j = g j) :
    (modeMatrix m f : Matrix (Fin m) (Fin m) K) = modeMatrix m g := by
  funext i j
  simp [modeMatrix, h j j.isLt]

theorem embedded_matrix (p : Permutation) {offset : Nat} :
    Dense.embedded m offset (p.matrix : Dense K) =
      modeMatrix m (p.raise offset 0).apply := by
  funext i j
  exact p.embedEntry_matrix offset 0 i j

theorem matrix_eq_ofMatrix (p : Permutation) :
    (p.matrix : Dense K) = Dense.ofMatrix (modeMatrix p.width p.apply) :=
  Dense.build_eq_ofMatrix fun _ _ => rfl

end Product

theorem Network.add_of_fits {α : Type} [Element α] {n : Network α} {offset : Nat} {c : Component α}
    (h : offset + c.width ≤ n.width) : n.add offset (some c) = .ok (n.append offset c) := by
  have hend := Word.wrap_le (x := (offset : Int) + c.width) (by omega)
  have hfits : ¬ ((decide ((offset : Int) < 0) ||
      decide ((n.width : Int) < Word.wrap ((offset : Int) + c.width))) = true) := by
    simp only [Bool.or_eq_true, decide_eq_true_eq, not_or]
    omega
  rw [add, if_neg hfits]
  rfl

theorem exists_forall₂ {β γ : Type} {P : β → γ → Prop} {l : List β} (h : ∀ x ∈ l, ∃ y, P x y) :
    ∃ ys, List.Forall₂ P l ys := by
  induction l with
  | nil => exact ⟨[], .nil⟩
  | cons x l ih =>
    obtain ⟨⟨y, hy⟩, hl⟩ := List.forall_mem_cons.mp h
    obtain ⟨ys, hys⟩ := ih hl
    exact ⟨y :: ys, .cons hy hys⟩

theorem exists_of_forall₂ {β γ : Type} {P : β → γ → Prop} {l : List β} {ys : List γ}
    (h : List.Forall₂ P l ys) {x : β} (hx : x ∈ l) : ∃ y, P x y := by
  obtain ⟨i, rfl⟩ := List.mem_iff_get.mp hx
  exact ⟨_, h.get i.isLt (h.length_eq ▸ i.isLt)⟩

section Entries

variable {α K : Type} [Element α] [ExactScalar K] [Transfer α K]

/-- The matrix an entry contributes to a network of width `m`. -/
def Entry.HasMatrix (m : Nat) (e : Entry (Component α)) (M : Matrix (Fin m) (Fin m) K) : Prop :=
  ∃ V : Dense K, e.item.matrix = .ok V ∧ V.rows = V.cols ∧ e.offset + V.rows ≤ m ∧
    M = Dense.embedded m e.offset V

theorem entriesMatrix_of_hasMatrix {name : String} {m : Nat} (hm : Dense.Storable m) {index : Nat}
    {entries : List (Entry (Component α))} {Ms : List (Matrix (Fin m) (Fin m) K)}
    (h : List.Forall₂ (Entry.HasMatrix m) entries Ms) (U : Matrix (Fin m) (Fin m) K) :
    entriesMatrix name m index entries (Dense.ofMatrix U) =
      .ok (Dense.ofMatrix (Ms.reverse.prod * U)) := by
  induction h generalizing index U with
  | nil => simp [entriesMatrix]
  | @cons e M rest Ms he _ ih =>
    obtain ⟨V, hV, hsq, hfit, rfl⟩ := he
    rw [entriesMatrix, hV]
    simp only [noting, Except.mapError, bind, Except.bind, Dense.embed_of_storable hm hsq hfit,
      Dense.mul_ofMatrix hm]
    rw [ih, List.reverse_cons, List.prod_append, List.prod_singleton, Matrix.mul_assoc]

theorem hasMatrix_of_entriesMatrix {name : String} {m : Nat} (hm : Dense.Storable m) {index : Nat}
    {entries : List (Entry (Component α))} {U : Matrix (Fin m) (Fin m) K} {d : Dense K}
    (h : entriesMatrix name m index entries (Dense.ofMatrix U) = .ok d) :
    ∃ Ms : List (Matrix (Fin m) (Fin m) K), List.Forall₂ (Entry.HasMatrix m) entries Ms := by
  induction entries generalizing index U with
  | nil => exact ⟨[], .nil⟩
  | cons e rest ih =>
    rw [entriesMatrix] at h
    cases hV : e.item.matrix (K := K) with
    | error f =>
      rw [hV] at h
      cases h
    | ok V =>
      rw [hV] at h
      cases hE : Dense.embed (m : Int) e.offset V with
      | error f =>
        simp only [noting, Except.mapError, bind, Except.bind, hE] at h
        cases h
      | ok E =>
        obtain ⟨hsq, hfit, _⟩ := Dense.embed_eq_ok hE
        rw [Dense.embed_of_storable hm hsq hfit] at hE
        obtain rfl := Except.ok.inj hE
        simp only [noting, Except.mapError, bind, Except.bind, Dense.embed_of_storable hm hsq hfit,
          Dense.mul_ofMatrix hm] at h
        obtain ⟨Ms, hMs⟩ := ih h
        exact ⟨_ :: Ms, .cons ⟨V, hV, hsq, hfit, rfl⟩ hMs⟩

theorem matrix_net_of_hasMatrix {name : String} {m : Nat} (hm : Dense.Storable m)
    {entries : List (Entry (Component α))} {Ms : List (Matrix (Fin m) (Fin m) K)}
    (h : List.Forall₂ (Entry.HasMatrix m) entries Ms) :
    (Component.net name m entries).matrix = .ok (Dense.ofMatrix Ms.reverse.prod) := by
  rw [Component.matrix, Dense.identity_of_storable hm]
  simp only [bind, Except.bind]
  rw [entriesMatrix_of_hasMatrix hm h, Matrix.mul_one]

theorem hasMatrix_of_matrix_net {name : String} {m : Nat} {entries : List (Entry (Component α))}
    {V : Dense K} (h : (Component.net name m entries).matrix = .ok V) :
    Dense.Storable m ∧ ∃ Ms : List (Matrix (Fin m) (Fin m) K),
      List.Forall₂ (Entry.HasMatrix m) entries Ms ∧ V = Dense.ofMatrix Ms.reverse.prod := by
  have hn := h
  rw [Component.matrix] at h
  cases hid : Dense.identity (K := K) (m : Int) with
  | error f =>
    rw [hid] at h
    cases h
  | ok one =>
    have hm := Dense.storable_of_identity hid
    rw [hid] at h
    rw [Dense.identity_of_storable hm] at hid
    obtain rfl := Except.ok.inj hid
    simp only [bind, Except.bind] at h
    obtain ⟨Ms, hMs⟩ := hasMatrix_of_entriesMatrix hm h
    rw [matrix_net_of_hasMatrix hm hMs] at hn
    exact ⟨hm, Ms, hMs, (Except.ok.inj hn).symm⟩

theorem hasMatrix_perm {m offset : Nat} (hm : Dense.Storable m) (p : Permutation)
    (h : offset + p.width ≤ m) :
    Entry.HasMatrix m (⟨offset, .perm p⟩ : Entry (Component α))
      (modeMatrix m (p.raise offset 0).apply : Matrix (Fin m) (Fin m) K) := by
  have hp : Dense.Storable p.width := hm.mono p.width_pos (by omega)
  refine ⟨p.matrix, ?_, rfl, h, (embedded_matrix p).symm⟩
  rw [Component.matrix]
  exact Permutation.storedMatrix_of_storable hp

end Entries

section Rewiring

variable {α : Type}

theorem entriesPermutation_cons {width offset : Nat} {c : Component α}
    {rest : List (Entry (Component α))} {acc p : Permutation}
    (h : entriesPermutation width (⟨offset, c⟩ :: rest) acc = .ok (some p)) :
    ∃ q lifted next, c.asPermutation = .ok (some q) ∧ q.lift width offset = .ok lifted ∧
      acc.andThen lifted = .ok next ∧ entriesPermutation width rest next = .ok (some p) := by
  rw [entriesPermutation] at h
  obtain ⟨q, hq, h⟩ := bind_eq_ok h
  cases q with
  | none => cases h
  | some q =>
    obtain ⟨lifted, hl, h⟩ := bind_eq_ok h
    cases lifted with
    | none => cases h
    | some lifted =>
      obtain ⟨next, ha, h⟩ := bind_eq_ok h
      cases next with
      | none => cases h
      | some next => exact ⟨q, lifted, next, hq, settled_eq_some hl, settled_eq_some ha, h⟩

theorem asPermutation_net {name : String} {width : Nat} {entries : List (Entry (Component α))}
    {p : Permutation} (h : (Component.net name width entries).asPermutation = .ok (some p)) :
    ∃ one, Permutation.identity width = .ok one ∧
      entriesPermutation width entries one = .ok (some p) := by
  rw [Component.asPermutation] at h
  obtain ⟨one, hs, h⟩ := bind_eq_ok h
  cases one with
  | none => cases h
  | some one => exact ⟨one, settled_eq_some hs, h⟩

theorem identity_eq_ok {width : Nat} {one : Permutation}
    (h : Permutation.identity width = .ok one) : one.width = width ∧ ∀ i, one.apply i = i := by
  unfold Permutation.identity at h
  split at h
  · cases h
  · rename_i hw
    cases hr : Storage.reserve (width : Int) 8 with
    | error f =>
      rw [hr] at h
      cases h
    | ok count =>
      rw [hr] at h
      obtain rfl := Except.ok.inj h
      have hc := (Storage.reserve_eq_ok hr).1
      refine ⟨?_, Permutation.one_apply _⟩
      rw [Permutation.width_one]
      omega

theorem width_entriesPermutation {width : Nat} {entries : List (Entry (Component α))}
    {acc p : Permutation} (hw : acc.width = width)
    (h : entriesPermutation width entries acc = .ok (some p)) : p.width = width := by
  induction entries generalizing acc with
  | nil =>
    rw [entriesPermutation] at h
    rw [← Option.some.inj (Except.ok.inj h), hw]
  | cons e rest ih =>
    obtain ⟨q, lifted, next, _, _, ha, hrest⟩ := entriesPermutation_cons h
    obtain ⟨_, rfl⟩ := Permutation.andThen_eq_ok ha
    exact ih (by rw [Permutation.width_comp, hw]) hrest

theorem width_asPermutation_net {name : String} {width : Nat}
    {entries : List (Entry (Component α))} {p : Permutation}
    (h : (Component.net name width entries).asPermutation = .ok (some p)) : p.width = width := by
  obtain ⟨one, hone, hent⟩ := asPermutation_net h
  exact width_entriesPermutation (identity_eq_ok hone).1 hent

theorem entriesPermutation_eq_error {width : Nat} {entries : List (Entry (Component α))}
    (hitem : ∀ e ∈ entries, ∀ {f : Failure}, e.item.asPermutation = .error f → f.IsOverrun)
    {acc : Permutation} {f : Failure} (h : entriesPermutation width entries acc = .error f) :
    f.IsOverrun := by
  induction entries generalizing acc with
  | nil =>
    rw [entriesPermutation] at h
    cases h
  | cons e rest ih =>
    rw [entriesPermutation] at h
    rcases bind_eq_error h with h | ⟨p, _, h⟩
    · exact hitem e List.mem_cons_self h
    cases p with
    | none => cases h
    | some p =>
      rcases bind_eq_error h with h | ⟨lifted, _, h⟩
      · exact settled_eq_error h
      cases lifted with
      | none => cases h
      | some lifted =>
        rcases bind_eq_error h with h | ⟨next, _, h⟩
        · exact settled_eq_error h
        cases next with
        | none => cases h
        | some next => exact ih (List.forall_mem_of_forall_mem_cons hitem) h

/-- The search for a permutation is only ever cut short by an overrun. -/
theorem asPermutation_eq_error {c : Component α} {f : Failure}
    (h : c.asPermutation = .error f) : f.IsOverrun := by
  induction c using Component.induction generalizing f with
  | device d =>
    rw [Component.asPermutation] at h
    cases h
  | perm p =>
    rw [Component.asPermutation] at h
    cases h
  | net name width entries ih =>
    rw [Component.asPermutation] at h
    rcases bind_eq_error h with h | ⟨one, _, h⟩
    · exact settled_eq_error h
    cases one with
    | none => cases h
    | some one => exact entriesPermutation_eq_error ih h

end Rewiring

section Agreement

variable {α K : Type} [Element α] [ExactScalar K] [Transfer α K]

theorem prod_of_entriesPermutation {width : Nat} {entries : List (Entry (Component α))}
    (hitem : ∀ e ∈ entries, ∀ {p : Permutation} {V : Dense K},
      e.item.asPermutation = .ok (some p) → e.item.matrix = .ok V → V = p.matrix)
    {acc p : Permutation} {Ms : List (Matrix (Fin width) (Fin width) K)} (hw : acc.width = width)
    (hp : entriesPermutation width entries acc = .ok (some p))
    (hMs : List.Forall₂ (Entry.HasMatrix width) entries Ms) :
    modeMatrix width p.apply = Ms.reverse.prod * modeMatrix width acc.apply := by
  induction hMs generalizing acc with
  | nil =>
    rw [entriesPermutation] at hp
    rw [Option.some.inj (Except.ok.inj hp)]
    simp
  | @cons e M rest Ms he _ ih =>
    obtain ⟨q, lifted, next, hq, hl, ha, hrest⟩ := entriesPermutation_cons hp
    obtain ⟨V, hV, _, _, rfl⟩ := he
    obtain ⟨hlw, rfl⟩ := Permutation.andThen_eq_ok ha
    obtain ⟨hfit, rfl⟩ := Permutation.lift_eq_ok hl
    have hrest := ih (List.forall_mem_of_forall_mem_cons hitem)
      (by rw [Permutation.width_comp, hw]) hrest
    subst hw
    have hstep : (modeMatrix acc.width (q.raise e.offset 0).apply * modeMatrix acc.width acc.apply :
        Matrix (Fin acc.width) (Fin acc.width) K) =
        modeMatrix acc.width (acc.comp _ hlw).apply := by
      rw [modeMatrix_mul_modeMatrix fun j hj => Permutation.apply_lt hj]
      apply modeMatrix_congr
      intro j _
      simp only [Permutation.comp_apply, Permutation.raise_apply]
    rw [hrest, ← hstep, hitem e List.mem_cons_self hq hV, embedded_matrix, List.reverse_cons,
      List.prod_append, List.prod_singleton, Matrix.mul_assoc]

/-- A component that amounts to a permutation has the matrix of that permutation. -/
theorem matrix_of_asPermutation {c : Component α} {p : Permutation} {V : Dense K}
    (hp : c.asPermutation = .ok (some p)) (hV : c.matrix = .ok V) : V = p.matrix := by
  induction c using Component.induction generalizing p V with
  | device d =>
    rw [Component.asPermutation] at hp
    cases hp
  | perm q =>
    rw [Component.asPermutation] at hp
    rw [Component.matrix] at hV
    rw [(Permutation.storedMatrix_eq_ok hV).2, Option.some.inj (Except.ok.inj hp)]
  | net name width entries ih =>
    obtain ⟨one, hone, hent⟩ := asPermutation_net hp
    obtain ⟨hwidth, hid⟩ := identity_eq_ok hone
    obtain ⟨hm, Ms, hMs, rfl⟩ := hasMatrix_of_matrix_net hV
    have hprod := prod_of_entriesPermutation ih hwidth hent hMs
    have hw := width_entriesPermutation hwidth hent
    have hone' : (modeMatrix width one.apply : Matrix (Fin width) (Fin width) K) = 1 := by
      rw [modeMatrix_congr fun j _ => hid j, modeMatrix_id]
    rw [hone', Matrix.mul_one] at hprod
    subst hw
    rw [matrix_eq_ofMatrix, hprod]

end Agreement

end DualRail
