import DualRail.Proofs.NetworkMatrix

/-!
The range of a network. A network is made by calls that add a component or widen it; a refused call
leaves it as it was. The end of a component is a word, so a component is accepted if it lies within
the network, and also if its end lies beyond the greatest word. Those two are all: without an end
beyond the greatest word every entry lies within its network, at every depth, and neither its modes
nor its permutation nor its matrix reach outside.
-/

namespace DualRail

namespace Network

variable {α : Type} [Element α]

inductive Call (α : Type) where
  | add (offset : Int) (c : Option (Component α))
  | grow (m : Int)

/-- The number a call is made with is a word. -/
def Call.IsWord : Call α → Prop
  | .add offset _ => Word.InRange offset
  | .grow m => Word.InRange m

def call (n : Network α) : Call α → Except Failure (Network α)
  | .add offset c => n.add offset c
  | .grow m => n.grow m

def after (n : Network α) (c : Call α) : Network α :=
  match n.call c with
  | .ok next => next
  | .error _ => n

def run (n : Network α) (calls : List (Call α)) : Network α := calls.foldl after n

theorem after_cases (n : Network α) (c : Call α) :
    n.after c = n ∨
      (∃ offset item, c = .add offset (some item) ∧ 0 ≤ offset ∧
        Word.wrap (offset + item.width) ≤ n.width ∧ n.after c = n.append offset.toNat item) ∨
      ∃ m : Int, c = .grow m ∧ n.width ≤ m ∧ n.after c = { n with width := m.toNat } := by
  unfold after
  cases c with
  | add offset item =>
    cases item with
    | none => exact .inl rfl
    | some item =>
      by_cases hbad : (decide (offset < 0) ||
          decide ((n.width : Int) < Word.wrap (offset + item.width))) = true
      · left
        rw [call, add, if_pos hbad]
      · right
        left
        rw [call, add, if_neg hbad]
        rw [Bool.or_eq_true, decide_eq_true_eq, decide_eq_true_eq, not_or] at hbad
        exact ⟨offset, item, rfl, Int.not_lt.mp hbad.1, Int.not_lt.mp hbad.2, rfl⟩
  | grow m =>
    by_cases hm : m < n.width
    · left
      rw [call, grow, if_pos hm]
      rfl
    · right
      right
      rw [call, grow, if_neg hm]
      exact ⟨m, rfl, Int.not_lt.mp hm, rfl⟩

theorem run_induction {P : Network α → Prop} {calls : List (Call α)} {n : Network α} (h : P n)
    (hstep : ∀ c ∈ calls, ∀ n, P n → P (n.after c)) : P (n.run calls) := by
  induction calls generalizing n with
  | nil => exact h
  | cons c rest ih =>
    exact ih (hstep c List.mem_cons_self n h) fun d hd => hstep d (List.mem_cons_of_mem _ hd)

end Network

/-- Components that are there to be added: devices and rewirings whose width is a word, and networks
made by calls in turn, with all the entries they get. Every call that adds a component satisfies
`ok`. -/
inductive Component.Built {α : Type} [Element α] (ok : Int → Component α → Prop) :
    Component α → Prop where
  | device {d : α} : (Element.width d : Int) ≤ Word.max → Built ok (.device d)
  | perm {p : Permutation} : (p.width : Int) ≤ Word.max → Built ok (.perm p)
  | net {m : Int} {name : String} {start : Network α} {calls : List (Network.Call α)} :
      Word.InRange m → Network.empty m name = .ok start → (∀ c ∈ calls, c.IsWord) →
      (∀ offset item, .add offset (some item) ∈ calls → ok offset item) →
      (∀ offset item, .add offset (some item) ∈ calls → Built ok item) →
      Built ok (start.run calls).toComponent

/-- The component ends at a word. -/
def EndsAtWord {α : Type} [Element α] (offset : Int) (c : Component α) : Prop :=
  offset + c.width ≤ Word.max

section Range

variable {α : Type} [Element α]

/-- The entry lies within `width` modes. -/
def Entry.Fits (e : Entry (Component α)) (width : Nat) : Prop := e.offset + e.item.width ≤ width

namespace Network

omit [Element α] in
theorem width_empty {m : Int} {name : String} {n : Network α} (hm : Word.InRange m)
    (h : empty m name = .ok n) : (n.width : Int) ≤ Word.max ∧ n.entries = [] := by
  unfold empty at h
  split at h
  · cases h
  · rename_i hpos
    obtain rfl := Except.ok.inj h
    have := hm.2
    exact ⟨by simp only; omega, rfl⟩

theorem width_run {calls : List (Call α)} {n : Network α} (hn : (n.width : Int) ≤ Word.max)
    (hcalls : ∀ c ∈ calls, c.IsWord) : ((n.run calls).width : Int) ≤ Word.max := by
  refine run_induction (P := fun n => (n.width : Int) ≤ Word.max) hn fun c hc n hn => ?_
  obtain he | ⟨offset, item, rfl, _, _, he⟩ | ⟨m, rfl, _, he⟩ := n.after_cases c
  · rw [he]
    exact hn
  · rw [he]
    exact hn
  · rw [he]
    have hm : m ≤ Word.max := (hcalls _ hc).2
    simp only
    omega

/-- An end beyond the greatest word wraps around to a negative word, so the check of a component
sees only ends up to the greatest word. -/
theorem wrap_le_iff {offset : Int} {width m : Nat} (h₀ : 0 ≤ offset) (h₁ : offset ≤ Word.max)
    (hw : (width : Int) ≤ Word.max) :
    Word.wrap (offset + width) ≤ m ↔ offset + width ≤ m ∨ Word.max < offset + width := by
  by_cases hend : offset + width ≤ Word.max
  · rw [Word.wrap_of_inRange ⟨by unfold Word.min; omega, hend⟩]
    omega
  · have hneg : Word.wrap (offset + width) < 0 := Word.wrap_neg (by omega) (by omega)
    omega

theorem mem_entries_run {calls : List (Call α)} {n : Network α} {e : Entry (Component α)}
    (h : e ∈ (n.run calls).entries) :
    e ∈ n.entries ∨ ∃ offset item, .add offset (some item) ∈ calls ∧ 0 ≤ offset ∧
      e = ⟨offset.toNat, item⟩ := by
  revert e
  refine run_induction (P := fun n' => ∀ {e}, e ∈ n'.entries → e ∈ n.entries ∨ ∃ offset item,
    Call.add offset (some item) ∈ calls ∧ 0 ≤ offset ∧ e = ⟨offset.toNat, item⟩) .inl ?_
  intro c hc n' ih e h
  obtain he | ⟨offset, item, rfl, hpos, _, he⟩ | ⟨m, rfl, _, he⟩ := n'.after_cases c
  · rw [he] at h
    exact ih h
  · rw [he] at h
    rcases List.mem_append.mp h with h | h
    · exact ih h
    · exact .inr ⟨offset, item, hc, hpos, List.mem_singleton.mp h⟩
  · rw [he] at h
    exact ih h

theorem mem_entries_after {n : Network α} {e : Entry (Component α)} (c : Call α)
    (h : e ∈ n.entries) : e ∈ (n.after c).entries := by
  obtain he | ⟨offset, item, rfl, _, _, he⟩ | ⟨m, rfl, _, he⟩ := n.after_cases c
  · rw [he]
    exact h
  · rw [he]
    exact List.mem_append_left _ h
  · rw [he]
    exact h

/-- A component that ends beyond the greatest word is accepted. -/
theorem mem_entries_of_beyond {calls : List (Call α)} {n : Network α} {offset : Int}
    {item : Component α} (hc : .add offset (some item) ∈ calls) (h₀ : 0 ≤ offset)
    (h₁ : offset ≤ Word.max) (hw : (item.width : Int) ≤ Word.max)
    (hend : Word.max < offset + item.width) : ⟨offset.toNat, item⟩ ∈ (n.run calls).entries := by
  induction calls generalizing n with
  | nil => cases hc
  | cons c rest ih =>
    rcases List.mem_cons.mp hc with rfl | hc
    · have hadded : n.after (.add offset (some item)) = n.append offset.toNat item := by
        have hwrap : ¬ (n.width : Int) < Word.wrap (offset + item.width) :=
          Int.not_lt.mpr ((wrap_le_iff h₀ h₁ hw).mpr (.inr hend))
        unfold after
        rw [call, add, if_neg]
        rw [Bool.or_eq_true, decide_eq_true_eq, decide_eq_true_eq, not_or]
        exact ⟨Int.not_lt.mpr h₀, hwrap⟩
      have hmem : ⟨offset.toNat, item⟩ ∈ (n.append offset.toNat item).entries :=
        List.mem_append_right _ (List.mem_singleton.mpr rfl)
      rw [← hadded] at hmem
      exact run_induction (P := fun n => ⟨offset.toNat, item⟩ ∈ n.entries) hmem
        fun d _ n hn => mem_entries_after d hn
    · exact ih hc

/-- Every entry of a run fits, or ends beyond the greatest word. -/
theorem fits_or_beyond {calls : List (Call α)} {n : Network α} (hn : n.entries = [])
    (hwords : ∀ c ∈ calls, c.IsWord)
    (hitems : ∀ offset item, .add offset (some item) ∈ calls → (item.width : Int) ≤ Word.max) :
    ∀ e ∈ (n.run calls).entries,
      e.Fits (n.run calls).width ∨ Word.max < (e.offset + e.item.width : Nat) := by
  refine run_induction (P := fun n => ∀ e ∈ n.entries,
    e.Fits n.width ∨ Word.max < (e.offset + e.item.width : Nat)) (by simp [hn]) ?_
  intro c hc n ih e h
  obtain he | ⟨offset, item, rfl, hpos, hwrap, he⟩ | ⟨m, rfl, hm, he⟩ := n.after_cases c
  · rw [he] at h ⊢
    exact ih e h
  · rw [he] at h ⊢
    rcases List.mem_append.mp h with h | h
    · exact ih e h
    · obtain rfl := List.mem_singleton.mp h
      have hend := (wrap_le_iff hpos (hwords _ hc).2 (hitems _ _ hc)).mp hwrap
      unfold Entry.Fits append
      simp only
      omega
  · rw [he] at h ⊢
    refine (ih e h).imp_left fun hfit => ?_
    unfold Entry.Fits at hfit ⊢
    simp only
    omega

end Network

theorem Component.Built.width_le {ok : Int → Component α → Prop} {c : Component α}
    (h : c.Built ok) : (c.width : Int) ≤ Word.max := by
  cases h with
  | device hd => exact hd
  | perm hp => exact hp
  | net hm hempty hwords _ _ =>
    exact Network.width_run (Network.width_empty hm hempty).1 hwords

/-- The entries of a network lie within it, at every depth. -/
inductive Component.Within : Component α → Prop where
  | device (d : α) : Within (.device d)
  | perm (p : Permutation) : Within (.perm p)
  | net {name : String} {width : Nat} {entries : List (Entry (Component α))} :
      (∀ e ∈ entries, e.Fits width) → (∀ e ∈ entries, e.item.Within) →
      Within (.net name width entries)

theorem Component.Built.within {c : Component α} (h : c.Built EndsAtWord) : c.Within := by
  induction h with
  | device _ => exact .device _
  | perm _ => exact .perm _
  | @net m name start calls hm hempty hwords hends hitems ih =>
    have hentries := (Network.width_empty hm hempty).2
    have hcall : ∀ e ∈ (start.run calls).entries, ∃ offset item,
        .add offset (some item) ∈ calls ∧ 0 ≤ offset ∧ e = ⟨offset.toNat, item⟩ := by
      intro e he
      exact (Network.mem_entries_run he).resolve_left (by simp [hentries])
    refine .net ?_ ?_
    · intro e he
      obtain ⟨offset, item, hc, hpos, rfl⟩ := hcall e he
      refine (Network.fits_or_beyond hentries hwords (fun o i h => (hitems o i h).width_le) _
        he).resolve_right ?_
      have hend := hends offset item hc
      unfold EndsAtWord at hend
      simp only
      omega
    · intro e he
      obtain ⟨offset, item, hc, _, rfl⟩ := hcall e he
      exact ih offset item hc

end Range

section Reading

variable {α : Type} [Element α]

theorem Entry.modes_of_fits {e : Entry (Component α)} {m : Nat} (h : e.Fits m)
    (hm : (m : Int) ≤ Word.max) :
    e.modes = (List.range' e.offset e.item.width).map Int.ofNat ∧
      ∀ mode ∈ e.modes, 0 ≤ mode ∧ mode < m := by
  unfold Entry.Fits at h
  have hmodes : e.modes = (List.range' e.offset e.item.width).map Int.ofNat := by
    rw [List.range'_eq_map_range, List.map_map]
    refine List.map_congr_left fun i hi => ?_
    have := List.mem_range.mp hi
    exact Word.wrap_of_inRange ⟨by unfold Word.min; omega, by omega⟩
  refine ⟨hmodes, fun mode hmode => ?_⟩
  rw [hmodes] at hmode
  obtain ⟨x, hx, rfl⟩ := List.mem_map.mp hmode
  have := List.mem_range'_1.mp hx
  exact ⟨Int.natCast_nonneg x, Int.ofNat_lt.mpr (by omega)⟩

theorem Component.width_of_asPermutation {c : Component α} {p : Permutation}
    (h : c.asPermutation = .ok (some p)) : p.width = c.width := by
  cases c with
  | device d =>
    rw [Component.asPermutation] at h
    cases h
  | perm q =>
    rw [Component.asPermutation] at h
    obtain rfl := Option.some.inj (Except.ok.inj h)
    rfl
  | net name width entries => exact width_asPermutation_net h

/-- The failure is that `width` cells are more than storage has. -/
def Failure.IsShortage (f : Failure) (width : Nat) : Prop :=
  f = .overrun .allocation ∧ Storage.limit < width * 8

theorem Failure.IsShortage.mono {f : Failure} {v w : Nat} (h : f.IsShortage v) (hvw : v ≤ w) :
    f.IsShortage w :=
  ⟨h.1, h.2.trans_le (Nat.mul_le_mul_right 8 hvw)⟩

theorem settled_lift_eq_error {p : Permutation} {m offset : Nat} {f : Failure}
    (hfit : offset + p.width ≤ m) (h : settled (p.lift m offset) = .error f) : f.IsShortage m := by
  by_cases hm : m * 8 ≤ Storage.limit
  · rw [Permutation.lift_of_fits hfit hm] at h
    cases h
  · have hm := Nat.not_le.mp hm
    rw [Permutation.lift_overrun hfit hm] at h
    exact ⟨(Except.error.inj h).symm, hm⟩

theorem settled_identity_eq_error {m : Nat} {f : Failure}
    (h : settled (Permutation.identity m) = .error f) : f.IsShortage m := by
  unfold Permutation.identity at h
  split at h
  · cases h
  · by_cases hm : m * 8 ≤ Storage.limit
    · rw [Storage.reserve_of_le hm] at h
      cases h
    · have hm := Nat.not_le.mp hm
      rw [Storage.reserve_eq_error hm] at h
      exact ⟨(Except.error.inj h).symm, hm⟩

theorem settled_andThen_ne_error {p q : Permutation} {f : Failure} :
    settled (p.andThen q) ≠ .error f := by
  unfold Permutation.andThen
  split
  · rintro ⟨⟩
  · rintro ⟨⟩

theorem entriesPermutation_eq_shortage {width : Nat} {entries : List (Entry (Component α))}
    (hfits : ∀ e ∈ entries, e.Fits width)
    (hitems : ∀ e ∈ entries, ∀ f, e.item.asPermutation = .error f → f.IsShortage e.item.width)
    {acc : Permutation} {f : Failure} (h : entriesPermutation width entries acc = .error f) :
    f.IsShortage width := by
  induction entries generalizing acc with
  | nil =>
    rw [entriesPermutation] at h
    cases h
  | cons e rest ih =>
    have hfit : e.offset + e.item.width ≤ width := hfits e List.mem_cons_self
    rw [entriesPermutation] at h
    rcases bind_eq_error h with h | ⟨p, hp, h⟩
    · exact (hitems e List.mem_cons_self f h).mono (by omega)
    cases p with
    | none => cases h
    | some p =>
      rw [← Component.width_of_asPermutation hp] at hfit
      rcases bind_eq_error h with h | ⟨lifted, _, h⟩
      · exact settled_lift_eq_error hfit h
      cases lifted with
      | none => cases h
      | some lifted =>
        rcases bind_eq_error h with h | ⟨next, _, h⟩
        · exact absurd h settled_andThen_ne_error
        cases next with
        | none => cases h
        | some next =>
          exact ih (fun d hd => hfits d (List.mem_cons_of_mem _ hd))
            (fun d hd => hitems d (List.mem_cons_of_mem _ hd)) h

/-- The permutation of a network whose entries lie within it fails only for want of storage. -/
theorem Component.Within.asPermutation_eq_error {c : Component α} (h : c.Within) :
    ∀ f, c.asPermutation = .error f → f.IsShortage c.width := by
  induction h with
  | device d =>
    intro f hf
    rw [Component.asPermutation] at hf
    cases hf
  | perm p =>
    intro f hf
    rw [Component.asPermutation] at hf
    cases hf
  | @net name width entries hfits _ ih =>
    intro f hf
    rw [Component.asPermutation] at hf
    rcases bind_eq_error hf with hf | ⟨one, _, hf⟩
    · exact settled_identity_eq_error hf
    cases one with
    | none => cases hf
    | some one => exact entriesPermutation_eq_shortage hfits ih hf

end Reading

section Matrices

variable {K : Type} [Scalar K]

/-- A square matrix of the given size. -/
def Dense.IsSquare (d : Dense K) (m : Nat) : Prop := d.rows = m ∧ d.cols = m

theorem Dense.Storable.identity_square {m : Nat} (h : Storable m) :
    ∃ d : Dense K, identity m = .ok d ∧ d.IsSquare m := by
  have hm : ¬ ((m : Int) ≤ 0) := by have := h.1; omega
  refine ⟨build m m fun i j => if i = j then 1 else 0, ?_, rfl, rfl⟩
  simp only [identity, hm, if_false, h.reserve]
  change (if m * m = (m : Int).toNat * (m : Int).toNat then _ else _) = _
  simp only [Int.toNat_natCast, if_true]
  rfl

theorem Dense.Storable.mul_square {m : Nat} {a b : Dense K} (h : Storable m) (ha : a.IsSquare m)
    (hb : b.IsSquare m) : ∃ d, a.mul b = .ok d ∧ d.IsSquare m := by
  refine ⟨build a.rows b.cols (productEntry a b), ?_, ha.1, hb.2⟩
  unfold mul
  rw [if_neg (by rw [ha.2, hb.1]; exact not_not.mpr rfl), ha.1, hb.2, h.reserve]
  rfl

theorem Dense.Storable.embed_square {m offset : Nat} {block : Dense K} (h : Storable m)
    (hfit : offset + block.rows ≤ m) :
    (∃ d : Dense K, embed m offset block = .ok d ∧ d.IsSquare m) ∨
      ∃ f, embed m offset block = .error f ∧ ¬ f.IsOverrun := by
  obtain ⟨d, hd, hsquare⟩ := h.identity_square (K := K)
  unfold embed
  split
  · exact .inr ⟨_, rfl, nofun⟩
  · split
    · exact .inr ⟨_, rfl, nofun⟩
    · left
      rw [hd, noting_ok, ok_bind, if_pos (by omega)]
      exact ⟨_, rfl, hsquare⟩

theorem Failure.isOverrun_of_noted {f : Failure} {note : Note} (h : (f.noted note).IsOverrun) :
    f.IsOverrun := by
  obtain ⟨notes, root⟩ := f
  cases root with
  | overrun o => exact ⟨o, rfl⟩
  | _ =>
    obtain ⟨o, ho⟩ := h
    cases ho

end Matrices

section Devices

variable {R : Type} [Quantity R]

/-- A matrix with `width` rows, or a failure that is no overrun or comes from the store of a square
matrix with at most `width` rows. -/
def StaysWithin (width : Nat) (x : Except Failure (Dense (Amplitude R))) : Prop :=
  match x with
  | .ok V => V.rows = width
  | .error f => f.IsOverrun → ∃ w ≤ width, Dense.identity (K := Amplitude R) w = .error f

theorem staysWithin_ofRows (rows : List (List (Amplitude R))) :
    StaysWithin rows.length (Dense.ofRows rows) := by
  unfold Dense.ofRows
  split
  · exact nofun
  · split
    · exact nofun
    · split
      · exact nofun
      · rfl

theorem Device.staysWithin_matrix (d : Device R) : StaysWithin d.width d.matrix := by
  cases d with
  | beamSplitter convention theta p =>
    cases convention with
    | rx => exact staysWithin_ofRows (R := R) [[_, _], [_, _]]
    | ry => exact staysWithin_ofRows (R := R) [[_, _], [_, _]]
    | h => exact staysWithin_ofRows (R := R) [[_, _], [_, _]]
    | unknown n => exact nofun
  | phaseShifter phi => exact staysWithin_ofRows [[Amplitude.cis phi]]
  | unitary name m => rfl

theorem staysWithin_entriesMatrix {name : String} {width index : Nat}
    {entries : List (Entry (Component (Device R)))} (hw : Dense.Storable width)
    (hfits : ∀ e ∈ entries, e.Fits width)
    (hitems : ∀ e ∈ entries, StaysWithin (R := R) e.item.width e.item.matrix)
    {u : Dense (Amplitude R)} (hu : u.IsSquare width) :
    StaysWithin width (entriesMatrix name width index entries u) := by
  induction entries generalizing index u with
  | nil =>
    rw [entriesMatrix]
    exact hu.1
  | cons e rest ih =>
    have hfit : e.offset + e.item.width ≤ width := hfits e List.mem_cons_self
    have hitem := hitems e List.mem_cons_self
    rw [entriesMatrix]
    cases hblock : e.item.matrix (K := Amplitude R) with
    | error f =>
      rw [noting_error, error_bind]
      rw [hblock] at hitem
      intro hover
      have hf := Failure.isOverrun_of_noted hover
      rw [hf.noted_eq]
      obtain ⟨w, hle, hid⟩ := hitem hf
      exact ⟨w, by omega, hid⟩
    | ok block =>
      rw [hblock] at hitem
      have hrows : block.rows = e.item.width := hitem
      rw [noting_ok, ok_bind]
      have hin : e.offset + block.rows ≤ width := by omega
      obtain ⟨lifted, hlifted, hsquare⟩ | ⟨f, hf, hno⟩ := hw.embed_square hin
      · obtain ⟨next, hnext, hnextSquare⟩ := hw.mul_square hsquare hu
        rw [hlifted, noting_ok, ok_bind, hnext, ok_bind]
        exact ih (fun d hd => hfits d (List.mem_cons_of_mem _ hd))
          (fun d hd => hitems d (List.mem_cons_of_mem _ hd)) hnextSquare
      · rw [hf, noting_error, error_bind]
        exact fun hover => absurd (Failure.isOverrun_of_noted hover) hno

/-- The matrix of a network whose entries lie within it fails at most in the store of a square
matrix that is too large. A permutation that stands alone needs a place for its own matrix; inside
a network it has one. -/
theorem Component.Within.staysWithin_matrix {c : Component (Device R)} (h : c.Within)
    (hperm : ∀ p, c = .perm p → Dense.Storable p.width) :
    StaysWithin (R := R) c.width c.matrix := by
  induction h with
  | device d =>
    rw [Component.matrix]
    exact d.staysWithin_matrix
  | perm p =>
    rw [Component.matrix, Permutation.storedMatrix_of_storable (hperm p rfl)]
    rfl
  | @net name width entries hfits _ ih =>
    rw [Component.matrix]
    cases hid : Dense.identity (K := Amplitude R) width with
    | error f => exact fun _ => ⟨width, Nat.le_refl _, hid⟩
    | ok one =>
      have hw : Dense.Storable width := Dense.storable_of_identity hid
      obtain ⟨d, hd, hsquare⟩ := hw.identity_square (K := Amplitude R)
      obtain rfl := Except.ok.inj (hd.symm.trans hid)
      refine staysWithin_entriesMatrix hw hfits (fun e he => ih e he fun p hp => ?_) hsquare
      have hfit : e.offset + e.item.width ≤ width := hfits e he
      rw [hp] at hfit
      exact hw.mono p.width_pos (le_of_add_le_right hfit)

theorem StaysWithin.not_storable {width : Nat} {x : Except Failure (Dense (Amplitude R))}
    (h : StaysWithin width x) {f : Failure} (hx : x = .error f) (hf : f.IsOverrun) :
    ¬ Dense.Storable width := by
  rw [hx] at h
  obtain ⟨w, hw, hid⟩ := h hf
  intro hs
  rcases Nat.eq_zero_or_pos w with rfl | hpos
  · obtain rfl := Except.error.inj hid
    obtain ⟨o, ho⟩ := hf
    cases ho
  · obtain ⟨d, hd, _⟩ := (hs.mono hpos hw).identity_square (K := Amplitude R)
    rw [hid] at hd
    cases hd

/-- Networks made by calls with words as offsets and widths. An entry that does not fit ends beyond
the greatest word, and there is one exactly if a call asked for that. Where no call does, at no
depth, the modes of an entry are modes of the network, the permutation fails only if it has no
place in storage, and the matrix overruns only in the store of a square matrix that has none. -/
theorem network_range {m : Int} {name : String} {start : Network (Device R)}
    {calls : List (Network.Call (Device R))} (hm : Word.InRange m)
    (hstart : Network.empty m name = .ok start) (hwords : ∀ c ∈ calls, c.IsWord)
    (hitems : ∀ offset item, .add offset (some item) ∈ calls → item.Built fun _ _ => True) :
    (∀ e ∈ (start.run calls).entries, e.Fits (start.run calls).width ∨
      Word.max < (e.offset + e.item.width : Nat)) ∧
    ((∀ e ∈ (start.run calls).entries, e.Fits (start.run calls).width) ↔
      ∀ offset item, .add offset (some item) ∈ calls → 0 ≤ offset → EndsAtWord offset item) ∧
    ((∀ offset item, .add offset (some item) ∈ calls →
        EndsAtWord offset item ∧ item.Built EndsAtWord) →
      (∀ e ∈ (start.run calls).entries,
        e.modes = (List.range' e.offset e.item.width).map Int.ofNat ∧
        ∀ mode ∈ e.modes, 0 ≤ mode ∧ mode < (start.run calls).width) ∧
      (∀ f, (start.run calls).asPermutation = .error f → f.IsShortage (start.run calls).width) ∧
      StaysWithin (R := R) (start.run calls).width (start.run calls).matrix ∧
      ∀ f, (start.run calls).matrix (K := Amplitude R) = .error f → f.IsOverrun →
        ¬ Dense.Storable (start.run calls).width) := by
  obtain ⟨hwidth, hempty⟩ := Network.width_empty hm hstart
  have hmax : ((start.run calls).width : Int) ≤ Word.max := Network.width_run hwidth hwords
  have hor := Network.fits_or_beyond hempty hwords fun o i h => (hitems o i h).width_le
  refine ⟨hor, ⟨fun hfits offset item hc hpos => ?_, fun hends e he => ?_⟩, fun hends => ?_⟩
  · by_contra hbeyond
    have hmem := Network.mem_entries_of_beyond (n := start) hc hpos (hwords _ hc).2
      (hitems _ _ hc).width_le (Int.not_le.mp hbeyond)
    have hfit : offset.toNat + item.width ≤ _ := hfits _ hmem
    unfold EndsAtWord at hbeyond
    omega
  · refine (hor e he).resolve_right ?_
    obtain ⟨offset, item, hc, hpos, rfl⟩ :=
      (Network.mem_entries_run he).resolve_left (by simp [hempty])
    have hend : offset + item.width ≤ Word.max := hends offset item hc hpos
    simp only
    omega
  · have hwithin : (start.run calls).toComponent.Within :=
      (Component.Built.net hm hstart hwords (fun o i h => (hends o i h).1)
        fun o i h => (hends o i h).2).within
    have hstays := hwithin.staysWithin_matrix fun _ h => by cases h
    refine ⟨fun e he => ?_, hwithin.asPermutation_eq_error, hstays,
      fun f hf hover => hstays.not_storable hf hover⟩
    cases hwithin with
    | net hfits _ => exact Entry.modes_of_fits (hfits e he) hmax

def mixedCalls : List (Network.Call (Device Float)) :=
  [.add 0 (some (.perm .crossing)), .add 1 (some (.perm .crossing)), .grow 4, .grow 3,
    .add 1 (some ((Network.mk "inner" 3 []).run [.add 1 (some (.perm .crossing))]).toComponent)]

theorem mixedCalls_end {offset : Int} {item : Component (Device Float)}
    (hc : .add offset (some item) ∈ mixedCalls) :
    EndsAtWord offset item ∧ ∀ ok, (∀ o i, EndsAtWord o i → ok o i) → item.Built ok := by
  have hcrossing : ∀ ok, (.perm .crossing : Component (Device Float)).Built ok :=
    fun ok => .perm (by decide)
  simp only [mixedCalls, List.mem_cons, Network.Call.add.injEq, Option.some.injEq,
    reduceCtorEq, List.not_mem_nil, or_false, false_or] at hc
  rcases hc with ⟨rfl, rfl⟩ | ⟨rfl, rfl⟩ | ⟨rfl, rfl⟩
  · exact ⟨by unfold EndsAtWord; decide, fun ok _ => hcrossing ok⟩
  · exact ⟨by unfold EndsAtWord; decide, fun ok _ => hcrossing ok⟩
  · refine ⟨by unfold EndsAtWord; decide, fun ok hok => ?_⟩
    refine .net (m := 3) (by decide) rfl ?_ ?_ ?_
    · intro c hc
      obtain rfl := List.mem_singleton.mp hc
      exact ⟨by decide, by decide⟩
    · intro offset item hc
      obtain ⟨rfl, rfl⟩ : offset = 1 ∧ item = .perm .crossing := by simpa using hc
      exact hok _ _ (by unfold EndsAtWord; decide)
    · intro offset item hc
      obtain ⟨rfl, rfl⟩ : offset = 1 ∧ item = .perm .crossing := by simpa using hc
      exact hcrossing ok

theorem network_range_mixed :
    ∃ start : Network (Device Float), Network.empty 2 "mixed" = .ok start ∧
      (start.run mixedCalls).length = 2 ∧ (start.run mixedCalls).width = 4 ∧
      (∀ e ∈ (start.run mixedCalls).entries, e.Fits 4 ∧ ∀ mode ∈ e.modes, 0 ≤ mode ∧ mode < 4) ∧
      ∀ f, (start.run mixedCalls).asPermutation ≠ .error f := by
  have hwords : ∀ c ∈ mixedCalls, c.IsWord := by
    intro c hc
    simp only [mixedCalls, List.mem_cons, List.not_mem_nil, or_false] at hc
    rcases hc with rfl | rfl | rfl | rfl | rfl <;> exact ⟨by decide, by decide⟩
  obtain ⟨_, hfits, hread⟩ := network_range (m := 2) (R := Float) (by decide) rfl hwords
    fun o i h => (mixedCalls_end h).2 _ fun _ _ _ => trivial
  obtain ⟨hmodes, hperm, _, _⟩ := hread fun o i h =>
    ⟨(mixedCalls_end h).1, (mixedCalls_end h).2 _ fun _ _ h => h⟩
  refine ⟨⟨"mixed", 2, []⟩, rfl, rfl, rfl, fun e he => ⟨?_, (hmodes e he).2⟩, fun f hf => ?_⟩
  · exact hfits.mpr (fun o i h _ => (mixedCalls_end h).1) e he
  · exact absurd (hperm f hf).2 (by decide)

/-- A network of two modes accepts a component at the greatest word, and looking for the permutation
of the network then reaches outside. -/
theorem far_component_accepted :
    ∃ (start : Network (Device Float)) (calls : List (Network.Call (Device Float))),
      Network.empty 2 "net" = .ok start ∧ (∀ c ∈ calls, c.IsWord) ∧
      (∀ offset item, .add offset (some item) ∈ calls → item.Built fun _ _ => True) ∧
      ¬ (∀ e ∈ (start.run calls).entries, e.Fits (start.run calls).width) ∧
      (start.run calls).asPermutation = .error (.overrun (.index 9223372036854775807 2)) := by
  refine ⟨⟨"net", 2, []⟩, [.add 9223372036854775807 (some (.perm .crossing))], rfl, ?_, ?_, ?_, ?_⟩
  · intro c hc
    obtain rfl := List.mem_singleton.mp hc
    exact ⟨by decide, by decide⟩
  · intro offset item hc
    obtain ⟨rfl, rfl⟩ : offset = 9223372036854775807 ∧ item = .perm .crossing := by simpa using hc
    exact .perm (by decide)
  · intro hfits
    have hfit := hfits ⟨9223372036854775807, .perm .crossing⟩ (List.mem_singleton.mpr rfl)
    exact absurd hfit (by decide : ¬ 9223372036854775807 + 2 ≤ 2)
  · decide +kernel

end Devices

end DualRail
