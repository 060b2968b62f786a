import DualRail.Proofs.IdentityElision

/-!
Networks that only rewire, symbolically and by matrices. Where all entries lie within their
networks, at every depth, the search for a permutation finds one exactly if no device can be
reached, and the matrix of the permutation it finds is the matrix of the network. Both computations
fail for want of storage only.
-/

namespace DualRail

variable {α : Type}

/-- The second component is the first one or an entry of it, at any depth. -/
inductive Component.Reaches : Component α → Component α → Prop where
  | here (c : Component α) : Reaches c c
  | inside {name : String} {width : Nat} {entries : List (Entry (Component α))}
      {e : Entry (Component α)} {x : Component α} :
      e ∈ entries → e.item.Reaches x → Reaches (.net name width entries) x

/-- Every component within that is not a network is a permutation. -/
def Component.OnlyRewires (c : Component α) : Prop :=
  ∀ x, c.Reaches x → (∃ p, x = .perm p) ∨ ∃ n : Network α, x = n.toComponent

/-- Every network within has modes, as a network made by calls has. -/
def Component.HasModes (c : Component α) : Prop :=
  ∀ n : Network α, c.Reaches n.toComponent → 0 < n.width

section Reach

variable {name : String} {width : Nat} {entries : List (Entry (Component α))}

theorem reaches_net {x : Component α} :
    (Component.net name width entries).Reaches x ↔
      x = .net name width entries ∨ ∃ e ∈ entries, e.item.Reaches x := by
  constructor
  · rintro (_ | ⟨he, hx⟩)
    · exact .inl rfl
    · exact .inr ⟨_, he, hx⟩
  · rintro (rfl | ⟨e, he, hx⟩)
    · exact .here _
    · exact .inside he hx

theorem not_onlyRewires_device (d : α) : ¬ (Component.device d).OnlyRewires := by
  intro h
  obtain ⟨p, hp⟩ | ⟨n, hn⟩ := h _ (.here _)
  · cases hp
  · cases hn

theorem onlyRewires_perm (p : Permutation) : (Component.perm p : Component α).OnlyRewires := by
  rintro _ ⟨⟩
  exact .inl ⟨p, rfl⟩

theorem onlyRewires_net :
    (Component.net name width entries).OnlyRewires ↔ ∀ e ∈ entries, e.item.OnlyRewires := by
  constructor
  · intro h e he x hx
    exact h x (.inside he hx)
  · intro h x hx
    obtain rfl | ⟨e, he, hx⟩ := reaches_net.mp hx
    · exact .inr ⟨⟨name, width, entries⟩, rfl⟩
    · exact h e he x hx

theorem hasModes_net :
    (Component.net name width entries).HasModes ↔
      0 < width ∧ ∀ e ∈ entries, e.item.HasModes := by
  constructor
  · intro h
    exact ⟨h ⟨name, width, entries⟩ (.here _), fun e he n hn => h n (.inside he hn)⟩
  · rintro ⟨hpos, hitems⟩ n hn
    obtain hself | ⟨e, he, hn⟩ := reaches_net.mp hn
    · obtain ⟨_, rfl, _⟩ := Component.net.inj hself
      exact hpos
    · exact hitems e he n hn

variable [Element α]

theorem Component.Built.hasModes {ok : Int → Component α → Prop} {c : Component α}
    (h : c.Built ok) : c.HasModes := by
  induction h with
  | device _ =>
    rintro n hn
    cases hn
  | perm _ =>
    rintro n hn
    cases hn
  | @net m name start calls hm hempty _ _ _ ih =>
    have hstart : 0 < start.width := by
      unfold Network.empty at hempty
      split at hempty
      · cases hempty
      · obtain rfl := Except.ok.inj hempty
        simp only
        omega
    refine hasModes_net.mpr ⟨?_, fun e he => ?_⟩
    · refine Network.run_induction (P := fun n => 0 < n.width) hstart fun c _ n hn => ?_
      obtain he | ⟨_, _, _, _, _, he⟩ | ⟨m, _, hm, he⟩ := n.after_cases c
      · rwa [he]
      · rwa [he]
      · rw [he]
        simp only
        omega
    · obtain hold | ⟨offset, item, hc, _, rfl⟩ := Network.mem_entries_run he
      · rw [(Network.width_empty hm hempty).2] at hold
        cases hold
      · exact ih offset item hc

end Reach

section Rewiring

variable [Element α]

theorem entriesRewire_iff {width : Nat} {entries : List (Entry (Component α))} :
    entriesRewire width entries = true ↔
      ∀ e ∈ entries, e.item.rewires = true ∧ e.Fits width := by
  induction entries with
  | nil => simp [entriesRewire]
  | cons e rest ih =>
    rw [entriesRewire, Bool.and_eq_true, Bool.and_eq_true, decide_eq_true_eq, ih,
      List.forall_mem_cons]
    rfl

/-- Whether a component rewires does not depend on where its entries lie, if they lie within. -/
theorem Component.Within.rewires_iff {c : Component α} (h : c.Within) (hmodes : c.HasModes) :
    c.rewires = true ↔ c.OnlyRewires := by
  induction h with
  | device d =>
    rw [Component.rewires]
    exact iff_of_false Bool.false_ne_true (not_onlyRewires_device d)
  | perm p =>
    rw [Component.rewires]
    exact iff_of_true rfl (onlyRewires_perm p)
  | @net name width entries hfits _ ih =>
    obtain ⟨hpos, hitems⟩ := hasModes_net.mp hmodes
    rw [Component.rewires, decide_eq_true hpos, Bool.true_and, entriesRewire_iff, onlyRewires_net]
    constructor
    · intro h e he
      exact (ih e he (hitems e he)).mp (h e he).1
    · intro h e he
      exact ⟨(ih e he (hitems e he)).mpr (h e he), hfits e he⟩

theorem Component.width_pos_of_rewires {c : Component α} (h : c.rewires = true) : 0 < c.width := by
  cases c with
  | device d =>
    rw [Component.rewires] at h
    cases h
  | perm p => exact p.width_pos
  | net name width entries =>
    rw [Component.rewires, Bool.and_eq_true, decide_eq_true_eq] at h
    exact h.1

/-- With room for its modes, the search of a component ends with an answer. -/
theorem Component.Within.asPermutation_eq {c : Component α} (h : c.Within) (hmodes : c.HasModes)
    (hroom : c.width * 8 ≤ Storage.limit) :
    ∃ answer, c.asPermutation = .ok answer ∧ (answer.isSome ↔ c.OnlyRewires) := by
  cases hc : c.asPermutation with
  | error f => exact absurd hroom (Nat.not_le.mpr (h.asPermutation_eq_error f hc).2)
  | ok answer =>
    refine ⟨answer, rfl, ?_⟩
    rw [← h.rewires_iff hmodes]
    cases answer with
    | none =>
      refine iff_of_false Bool.false_ne_true fun hr => ?_
      exact asPermutation_ne_none hr hc
    | some p => exact iff_of_true rfl (rewires_of_asPermutation hc)

end Rewiring

section Matrices

variable {K : Type} [Element α] [ExactScalar K] [Transfer α K]

theorem Dense.Storable.room {m : Nat} (h : Storable m) : m * 8 ≤ Storage.limit := by
  have := h.2
  have := Nat.le_mul_of_pos_left m h.1
  omega

theorem Component.Within.exists_matrix {c : Component α} (h : c.Within) (hr : c.rewires = true)
    (hs : Dense.Storable c.width) : ∃ V : Dense K, c.matrix = .ok V ∧ V.IsSquare c.width := by
  induction h with
  | device d =>
    rw [Component.rewires] at hr
    cases hr
  | perm p =>
    rw [Component.matrix]
    exact ⟨p.matrix, Permutation.storedMatrix_of_storable hs, rfl, rfl⟩
  | @net name width entries hfits _ ih =>
    rw [Component.rewires, Bool.and_eq_true, entriesRewire_iff] at hr
    have hentry : ∀ e ∈ entries, ∃ M : Matrix (Fin width) (Fin width) K, e.HasMatrix width M := by
      intro e he
      have hfit : e.offset + e.item.width ≤ width := hfits e he
      have hpos : 0 < e.item.width := Component.width_pos_of_rewires (hr.2 e he).1
      obtain ⟨V, hV, hrows, hcols⟩ :=
        ih e he (hr.2 e he).1 (hs.mono hpos (le_of_add_le_right hfit))
      exact ⟨_, V, hV, hrows.trans hcols.symm, hrows ▸ hfit, rfl⟩
    obtain ⟨Ms, hMs⟩ := exists_forall₂ hentry
    exact ⟨_, matrix_net_of_hasMatrix hs hMs, rfl, rfl⟩

/-- Without storage for a matrix of its width, a network fails as the identity does. -/
theorem Network.matrix_of_not_storable {n : Network α} (hs : ¬ Dense.Storable n.width)
    (V : Dense K) :
    n.matrix = (Dense.identity n.width : Except Failure (Dense K)).map fun _ => V := by
  rw [Network.matrix, Network.toComponent, Component.matrix]
  cases hone : (Dense.identity n.width : Except Failure (Dense K)) with
  | ok one => exact absurd (Dense.storable_of_identity hone) hs
  | error f => rfl

/-- The permutation has the width and the matrix of the network, as far as the matrix can be
stored. -/
structure Network.AmountsTo (K : Type) [ExactScalar K] [Transfer α K] (n : Network α)
    (p : Permutation) : Prop where
  width : p.width = n.width
  bijective : p.vector.Perm (List.range n.width)
  matrix : (n.matrix : Except Failure (Dense K)) =
    (Dense.identity n.width : Except Failure (Dense K)).map fun _ => p.matrix

theorem Network.amountsTo_of_matrix {n : Network α} {p : Permutation} (hw : p.width = n.width)
    (hm : Dense.Storable n.width → (n.matrix : Except Failure (Dense K)) = .ok p.matrix) :
    n.AmountsTo K p := by
  refine ⟨hw, hw ▸ p.bijective, ?_⟩
  by_cases hs : Dense.Storable n.width
  · rw [hm hs, Dense.identity_of_storable hs]
    rfl
  · exact n.matrix_of_not_storable hs p.matrix

/-- The permutation that was found is the meaning of the network. -/
theorem Network.amountsTo_of_asPermutation {n : Network α} (hin : n.toComponent.Within)
    {p : Permutation} (h : n.asPermutation = .ok (some p)) : n.AmountsTo K p := by
  refine amountsTo_of_matrix (width_asPermutation_net h) fun hs => ?_
  have hr := rewires_of_asPermutation h
  obtain ⟨V, hV, _⟩ := hin.exists_matrix (K := K) hr hs
  rw [← matrix_of_asPermutation h hV]
  exact hV

omit [Element α] in
theorem Network.asPermutation_of_no_room {n : Network α} (hpos : 0 < n.width)
    (hroom : ¬ n.width * 8 ≤ Storage.limit) (answer : Option Permutation) :
    ¬ Dense.Storable n.width ∧
      n.asPermutation = (Permutation.identity n.width).map fun _ => answer := by
  refine ⟨fun hs => hroom hs.room, ?_⟩
  have hone : Permutation.identity n.width = .error (.overrun .allocation) := by
    unfold Permutation.identity
    rw [if_neg (by omega), Storage.reserve_eq_error (Nat.not_le.mp hroom)]
    rfl
  rw [Network.asPermutation, Network.toComponent, Component.asPermutation, hone]
  rfl

/-- On a network whose entries lie within it, at every depth, the search for a permutation answers
whether only rewirings can be reached, and the permutation it gives is a bijection of the modes with
the matrix of the network. Search and matrices fail only where the identity on the modes cannot be
stored. -/
theorem asPermutation_agrees_with_matrix (n : Network α) (hin : n.toComponent.Within)
    (hmodes : n.toComponent.HasModes) :
    ∃ answer : Option Permutation,
      n.asPermutation = (Permutation.identity n.width).map (fun _ => answer) ∧
      (answer.isSome ↔ n.toComponent.OnlyRewires) ∧ (∀ p ∈ answer, n.AmountsTo K p) ∧
      (Dense.Storable n.width → n.asPermutation = .ok answer ∧
        ∀ p ∈ answer, (n.matrix : Except Failure (Dense K)) = .ok p.matrix ∧
          (p.storedMatrix : Except Failure (Dense K)) = .ok p.matrix) := by
  have hpos : 0 < n.width := hmodes n (.here _)
  by_cases hroom : n.width * 8 ≤ Storage.limit
  · obtain ⟨answer, hanswer, hiff⟩ := hin.asPermutation_eq hmodes hroom
    have hamounts : ∀ p ∈ answer, n.AmountsTo K p := by
      rintro p rfl
      exact Network.amountsTo_of_asPermutation hin hanswer
    refine ⟨answer, ?_, hiff, hamounts, fun hs => ⟨hanswer, fun p hp => ?_⟩⟩
    · rw [Permutation.identity_of_le hpos hroom]
      exact hanswer
    · have hp := hamounts p hp
      refine ⟨?_, Permutation.storedMatrix_of_storable (by rwa [hp.width])⟩
      rw [hp.matrix, Dense.identity_of_storable hs]
      rfl
  · by_cases hr : n.toComponent.OnlyRewires
    · obtain ⟨hs, hsearch⟩ :=
        Network.asPermutation_of_no_room hpos hroom (some (.one (n.width - 1)))
      refine ⟨_, hsearch, iff_of_true rfl hr, ?_, fun h => absurd h hs⟩
      rintro p ⟨⟩
      refine Network.amountsTo_of_matrix ?_ fun h => absurd h hs
      simp only [Permutation.width, Permutation.one, Array.size_range]
      omega
    · obtain ⟨hs, hsearch⟩ := Network.asPermutation_of_no_room hpos hroom none
      refine ⟨_, hsearch, iff_of_false Bool.false_ne_true hr, ?_, fun h => absurd h hs⟩
      intro p hp
      cases hp

end Matrices

noncomputable def nestedCrossings : Network (Device ℝ) :=
  (Network.mk "outer" 3 []).run [.add 0 (some (.perm .crossing)),
    .add 1 (some ((Network.mk "inner" 2 []).run [.add 0 (some (.perm .crossing))]).toComponent)]

theorem nestedCrossings_built : nestedCrossings.toComponent.Built EndsAtWord := by
  have hcrossing : (.perm .crossing : Component (Device ℝ)).Built EndsAtWord := .perm (by decide)
  refine .net (m := 3) (by decide) rfl ?_ ?_ ?_
  · exact List.forall_mem_cons.mpr ⟨⟨by decide, by decide⟩,
      List.forall_mem_singleton.mpr ⟨by decide, by decide⟩⟩
  · intro offset item hc
    simp only [List.mem_cons, Network.Call.add.injEq, Option.some.injEq, List.not_mem_nil,
      or_false] at hc
    rcases hc with ⟨rfl, rfl⟩ | ⟨rfl, rfl⟩ <;> unfold EndsAtWord <;> decide
  · intro offset item hc
    simp only [List.mem_cons, Network.Call.add.injEq, Option.some.injEq, List.not_mem_nil,
      or_false] at hc
    rcases hc with ⟨rfl, rfl⟩ | ⟨rfl, rfl⟩
    · exact hcrossing
    · refine .net (m := 2) (by decide) rfl ?_ ?_ ?_
      · exact List.forall_mem_singleton.mpr ⟨by decide, by decide⟩
      · intro offset item hc
        obtain ⟨rfl, rfl⟩ : offset = 0 ∧ item = .perm .crossing := by simpa using hc
        unfold EndsAtWord
        decide
      · intro offset item hc
        obtain ⟨rfl, rfl⟩ : offset = 0 ∧ item = .perm .crossing := by simpa using hc
        exact hcrossing

/-- Composed the other way round, the crossings would give `[1, 2, 0]`. -/
theorem asPermutation_agrees_with_matrix_nested :
    ∃ p, nestedCrossings.asPermutation = .ok (some p) ∧ p.vector = [2, 0, 1] ∧
      (nestedCrossings.matrix : Except Failure (Dense (Amplitude ℝ))) = .ok p.matrix ∧
      (p.storedMatrix : Except Failure (Dense (Amplitude ℝ))) = .ok p.matrix := by
  obtain ⟨answer, _, _, _, hboth⟩ := asPermutation_agrees_with_matrix (K := Amplitude ℝ)
    nestedCrossings nestedCrossings_built.within nestedCrossings_built.hasModes
  obtain ⟨hanswer, hmatrix⟩ := hboth (by decide)
  have hvector : nestedCrossings.asPermutation.map (Option.map Permutation.vector) =
      .ok (some [2, 0, 1]) := by decide +kernel
  rw [hanswer] at hvector
  obtain ⟨p, rfl, hp⟩ := Option.map_eq_some_iff.mp (Except.ok.inj hvector)
  exact ⟨p, hanswer, hp, hmatrix p rfl⟩

end DualRail
