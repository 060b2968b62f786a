import DualRail.Proofs.Embedding
import DualRail.Proofs.GateSpelling
import DualRail.Proofs.SymbolicRewiring

/-!
Networks within networks. A network that stands as an entry of another one can give way to its own
entries, moved up by its offset, and a network can be widened: the matrix is the same, or the old
one on the first modes. What the entries of a network contribute is a product of placed matrices;
placing is a homomorphism, so the product of an inner network can be taken in the outer one as well.
-/

namespace DualRail

variable {α : Type}

def Entry.shift {β : Type} (offset : Nat) (e : Entry β) : Entry β := ⟨offset + e.offset, e.item⟩

/-- An entry that is a network, at some depth, gives way to its own entries. -/
inductive Component.Unnests : Component α → Component α → Prop where
  | here {name inner : String} {width w offset : Nat}
      {before entries after : List (Entry (Component α))} :
      Unnests (.net name width (before ++ ⟨offset, .net inner w entries⟩ :: after))
        (.net name width (before ++ (entries.map (Entry.shift offset) ++ after)))
  | inside {name : String} {width offset : Nat} {before after : List (Entry (Component α))}
      {c c' : Component α} : c.Unnests c' →
      Unnests (.net name width (before ++ ⟨offset, c⟩ :: after))
        (.net name width (before ++ ⟨offset, c'⟩ :: after))

mutual

/-- The devices and permutations of a component as entries, the component being at `offset`. -/
def Component.leaves (offset : Nat) : Component α → List (Entry (Component α))
  | .device d => [⟨offset, .device d⟩]
  | .perm p => [⟨offset, .perm p⟩]
  | .net _ _ entries => entriesLeaves offset entries

def entriesLeaves (offset : Nat) : List (Entry (Component α)) → List (Entry (Component α))
  | [] => []
  | ⟨inner, c⟩ :: rest => c.leaves (offset + inner) ++ entriesLeaves offset rest

end

/-- The network without networks inside. -/
def Network.flatten (n : Network α) : Network α := { n with entries := entriesLeaves 0 n.entries }

section Flatten

variable (name : String) (width : Nat)

abbrev Component.UnnestsTo : Component α → Component α → Prop :=
  Relation.ReflTransGen Component.Unnests

def Component.Flattens (c : Component α) : Prop :=
  ∀ offset before after, (Component.net name width (before ++ ⟨offset, c⟩ :: after)).UnnestsTo
    (.net name width (before ++ (c.leaves offset ++ after)))

theorem unnestsTo_entriesLeaves {entries : List (Entry (Component α))}
    (hitem : ∀ e ∈ entries, e.item.Flattens name width) (offset : Nat)
    (before after : List (Entry (Component α))) :
    (Component.net name width (before ++ (entries.map (Entry.shift offset) ++ after))).UnnestsTo
      (.net name width (before ++ (entriesLeaves offset entries ++ after))) := by
  induction entries generalizing before with
  | nil =>
    rw [entriesLeaves]
    exact .refl
  | cons e rest ih =>
    -- first the entry itself, with the rest after it; then the rest, with its leaves before it
    have hfirst := hitem e List.mem_cons_self (offset + e.offset) before
      (rest.map (Entry.shift offset) ++ after)
    have hrest := ih (List.forall_mem_of_forall_mem_cons hitem)
      (before ++ e.item.leaves (offset + e.offset))
    rw [entriesLeaves]
    simp only [List.append_assoc] at hrest ⊢
    exact hfirst.trans hrest

theorem Component.flattens (c : Component α) : c.Flattens name width := by
  induction c using Component.induction with
  | device d =>
    intro offset before after
    rw [Component.leaves]
    exact .refl
  | perm p =>
    intro offset before after
    rw [Component.leaves]
    exact .refl
  | net inner w entries ih =>
    intro offset before after
    rw [Component.leaves]
    exact .head .here (unnestsTo_entriesLeaves name width ih offset before after)

theorem Entry.shift_zero {β : Type} (e : Entry β) : e.shift 0 = e := by
  rw [Entry.shift, Nat.zero_add]

theorem map_shift_zero {β : Type} (entries : List (Entry β)) :
    entries.map (Entry.shift 0) = entries := by
  rw [List.map_congr_left fun e _ => e.shift_zero, List.map_id']

theorem Network.unnestsTo_flatten (n : Network α) :
    n.toComponent.UnnestsTo n.flatten.toComponent := by
  have hitem : ∀ e ∈ n.entries, e.item.Flattens n.name n.width :=
    fun e _ => e.item.flattens n.name n.width
  have h := unnestsTo_entriesLeaves n.name n.width hitem 0 [] []
  rw [map_shift_zero, List.nil_append, List.nil_append, List.append_nil, List.append_nil] at h
  exact h

theorem entriesLeaves_eq_flatMap (offset : Nat) (entries : List (Entry (Component α))) :
    entriesLeaves offset entries = entries.flatMap fun e => e.item.leaves (offset + e.offset) := by
  induction entries with
  | nil => rw [entriesLeaves, List.flatMap_nil]
  | cons e rest ih => rw [entriesLeaves, ih, List.flatMap_cons]

theorem ne_of_mem_leaves {c : Component α} {offset : Nat} {e : Entry (Component α)}
    (h : e ∈ c.leaves offset) (n : Network α) : e.item ≠ n.toComponent := by
  induction c using Component.induction generalizing offset with
  | device d =>
    rw [Component.leaves, List.mem_singleton] at h
    subst h
    exact nofun
  | perm p =>
    rw [Component.leaves, List.mem_singleton] at h
    subst h
    exact nofun
  | net name width entries ih =>
    rw [Component.leaves, entriesLeaves_eq_flatMap] at h
    obtain ⟨e', he', h⟩ := List.mem_flatMap.mp h
    exact ih e' he' h

end Flatten

section Proper

variable {name : String} {width : Nat} {entries : List (Entry (Component α))} [Element α]

/-- The devices within have the property. -/
def Component.EachDevice (P : α → Prop) (c : Component α) : Prop :=
  ∀ d, c.Reaches (.device d) → P d

/-- Entries lie within their networks, networks have modes, and devices have the property, at every
depth. -/
structure Component.Proper (P : α → Prop) (c : Component α) : Prop where
  within : c.Within
  hasModes : c.HasModes
  devices : c.EachDevice P

/-- If the device has a matrix, it is as wide as the device. -/
def MatrixFits (K : Type) [Transfer α K] (d : α) : Prop :=
  ∀ V : Dense K, Transfer.matrix d = .ok V → V.IsSquare (Element.width d)

instance (e : Entry (Component α)) (m : Nat) : Decidable (e.Fits m) :=
  inferInstanceAs (Decidable (_ ≤ _))

theorem within_net :
    (Component.net name width entries).Within ↔
      ∀ e ∈ entries, e.Fits width ∧ e.item.Within := by
  constructor
  · rintro (_ | _ | ⟨hfits, hitems⟩) e he
    exact ⟨hfits e he, hitems e he⟩
  · intro h
    exact .net (fun e he => (h e he).1) fun e he => (h e he).2

variable {P : α → Prop}

omit [Element α] in
theorem eachDevice_net :
    (Component.net name width entries).EachDevice P ↔ ∀ e ∈ entries, e.item.EachDevice P := by
  constructor
  · intro h e he d hd
    exact h d (.inside he hd)
  · intro h d hd
    obtain hself | ⟨e, he, hd⟩ := reaches_net.mp hd
    · cases hself
    · exact h e he d hd

theorem proper_device {d : α} (h : P d) : (Component.device d).Proper P := by
  refine ⟨.device d, ?_, ?_⟩
  · intro n hn
    cases hn
  · intro d' hd
    cases hd with
    | here => exact h

theorem proper_perm (p : Permutation) : (Component.perm p : Component α).Proper P := by
  refine ⟨.perm p, ?_, ?_⟩
  · intro n hn
    cases hn
  · intro d hd
    cases hd

theorem proper_net :
    (Component.net name width entries).Proper P ↔
      0 < width ∧ ∀ e ∈ entries, e.Fits width ∧ e.item.Proper P := by
  constructor
  · rintro ⟨hin, hmodes, hdevices⟩
    obtain ⟨hpos, hmodes⟩ := hasModes_net.mp hmodes
    refine ⟨hpos, fun e he => ?_⟩
    obtain ⟨hfit, hitem⟩ := within_net.mp hin e he
    exact ⟨hfit, hitem, hmodes e he, eachDevice_net.mp hdevices e he⟩
  · rintro ⟨hpos, h⟩
    exact ⟨within_net.mpr fun e he => ⟨(h e he).1, (h e he).2.within⟩,
      hasModes_net.mpr ⟨hpos, fun e he => (h e he).2.hasModes⟩,
      eachDevice_net.mpr fun e he => (h e he).2.devices⟩

theorem Component.Unnests.width_eq {c c' : Component α} (h : c.Unnests c') :
    c'.width = c.width := by
  cases h with
  | here => rfl
  | inside _ => rfl

theorem Component.Unnests.proper {c c' : Component α} (h : c.Unnests c') (hc : c.Proper P) :
    c'.Proper P := by
  induction h with
  | @here name inner width w offset before entries after =>
    obtain ⟨hpos, hc⟩ := proper_net.mp hc
    obtain ⟨hbefore, hc⟩ := List.forall_mem_append.mp hc
    obtain ⟨⟨hfit, hnet⟩, hafter⟩ := List.forall_mem_cons.mp hc
    obtain ⟨_, hentries⟩ := proper_net.mp hnet
    refine proper_net.mpr ⟨hpos, List.forall_mem_append.mpr ⟨hbefore,
      List.forall_mem_append.mpr ⟨?_, hafter⟩⟩⟩
    rw [List.forall_mem_map]
    intro e he
    have houter : offset + w ≤ width := hfit
    have hinner : e.offset + e.item.width ≤ w := (hentries e he).1
    refine ⟨?_, (hentries e he).2⟩
    change offset + e.offset + e.item.width ≤ width
    omega
  | @inside name width offset before after c c' hcc ih =>
    obtain ⟨hpos, hc⟩ := proper_net.mp hc
    obtain ⟨hbefore, hc⟩ := List.forall_mem_append.mp hc
    obtain ⟨⟨hfit, hitem⟩, hafter⟩ := List.forall_mem_cons.mp hc
    refine proper_net.mpr ⟨hpos, List.forall_mem_append.mpr ⟨hbefore,
      List.forall_mem_cons.mpr ⟨⟨?_, ih hitem⟩, hafter⟩⟩⟩
    change offset + c'.width ≤ width
    rw [hcc.width_eq]
    exact hfit

end Proper

section Action

variable {K : Type} [Element α] [ExactScalar K] [Transfer α K] {m : Nat}
  {entries : List (Entry (Component α))}

def Entry.action (m : Nat) (e : Entry (Component α)) :
    Except Failure (Matrix (Fin m) (Fin m) K) :=
  e.item.matrix.map (Dense.embedded m e.offset)

/-- What entries do one after the other; the first one without a matrix decides. -/
def entriesAction (m : Nat) :
    List (Entry (Component α)) → Except Failure (Matrix (Fin m) (Fin m) K)
  | [] => .ok 1
  | e :: rest => do
    let A ← e.action m
    let B ← entriesAction m rest
    return B * A

theorem entriesAction_append (es fs : List (Entry (Component α))) :
    (entriesAction m (es ++ fs) : Except Failure (Matrix (Fin m) (Fin m) K)) = (do
      let A ← entriesAction m es
      let B ← entriesAction m fs
      return B * A) := by
  induction es with
  | nil =>
    rw [List.nil_append, entriesAction, ok_bind]
    cases (entriesAction m fs : Except Failure (Matrix (Fin m) (Fin m) K)) with
    | error f => rfl
    | ok B => exact congrArg Except.ok (Matrix.mul_one B).symm
  | cons e es ih =>
    rw [List.cons_append, entriesAction, entriesAction, ih, bind_assoc]
    refine bind_congr fun A => ?_
    rw [bind_assoc, bind_assoc]
    refine bind_congr fun B => ?_
    rw [bind_assoc, pure_bind]
    refine bind_congr fun C => ?_
    rw [pure_bind, Matrix.mul_assoc]

/-- Entries that do what another entry does can stand in its place. -/
theorem entriesAction_replace {e : Entry (Component α)} {es : List (Entry (Component α))}
    (h : Agree (e.action m : Except Failure (Matrix (Fin m) (Fin m) K)) (entriesAction m es))
    (before after : List (Entry (Component α))) :
    Agree (entriesAction m (before ++ e :: after) : Except Failure (Matrix (Fin m) (Fin m) K))
      (entriesAction m (before ++ (es ++ after))) := by
  rw [entriesAction_append, entriesAction_append, entriesAction_append es, entriesAction]
  refine (Agree.refl _).bind fun A => ?_
  exact (h.bind fun _ => .refl _).bind fun _ => .refl _

theorem entriesAction_singleton (e : Entry (Component α)) :
    (entriesAction m [e] : Except Failure (Matrix (Fin m) (Fin m) K)) = e.action m := by
  rw [entriesAction, entriesAction]
  cases (e.action m : Except Failure (Matrix (Fin m) (Fin m) K)) with
  | error f => rfl
  | ok A => exact congrArg Except.ok (Matrix.one_mul A)

theorem Component.Proper.isSquare_matrix {c : Component α} (h : c.Proper (MatrixFits K))
    {V : Dense K} (hV : c.matrix = .ok V) : V.IsSquare c.width := by
  cases c with
  | device d =>
    rw [Component.matrix] at hV
    exact h.devices d (.here _) V hV
  | perm p =>
    rw [Component.matrix] at hV
    obtain ⟨_, rfl⟩ := Permutation.storedMatrix_eq_ok hV
    exact ⟨rfl, rfl⟩
  | net name width entries => exact square_of_matrix (c := ⟨name, width, entries⟩) hV

/-- The product that is formed step by step is what the entries do. -/
theorem entriesMatrix_agree (hm : Dense.Storable m)
    (h : ∀ e ∈ entries, e.Fits m ∧ e.item.Proper (MatrixFits K)) (name : String) (index : Nat)
    (U : Matrix (Fin m) (Fin m) K) :
    Agree (entriesMatrix name m index entries (Dense.ofMatrix U))
      ((entriesAction m entries).map fun P => Dense.ofMatrix (P * U)) := by
  induction entries generalizing index U with
  | nil =>
    rw [entriesMatrix, entriesAction, Except.map, Matrix.one_mul]
    exact .refl _
  | cons e rest ih =>
    obtain ⟨⟨hfit, hitem⟩, hrest⟩ := List.forall_mem_cons.mp h
    rw [entriesMatrix, entriesAction, Entry.action]
    cases hV : (e.item.matrix : Except Failure (Dense K)) with
    | error f => exact .error (f.alike_noted_entry _ _ _)
    | ok V =>
      obtain ⟨hrows, hcols⟩ := hitem.isSquare_matrix hV
      have hplace : e.offset + V.rows ≤ m := by
        rw [hrows]
        exact hfit
      rw [noting_ok, ok_bind, Dense.embed_of_storable hm (hrows.trans hcols.symm) hplace, noting_ok,
        ok_bind, Dense.mul_ofMatrix hm, ok_bind]
      refine (ih hrest (index + 1) (Dense.embedded m e.offset V * U)).trans ?_
      change Agree _ (((entriesAction m rest : Except Failure (Matrix (Fin m) (Fin m) K)) >>=
        fun B => .ok (B * Dense.embedded m e.offset V)).map _)
      cases (entriesAction m rest : Except Failure (Matrix (Fin m) (Fin m) K)) with
      | error f => exact .refl _
      | ok B =>
        change Agree (.ok (Dense.ofMatrix (B * (Dense.embedded m e.offset V * U))))
          (.ok (Dense.ofMatrix (B * Dense.embedded m e.offset V * U)))
        rw [Matrix.mul_assoc]
        exact .refl _

theorem matrix_net_agree (hm : Dense.Storable m)
    (h : ∀ e ∈ entries, e.Fits m ∧ e.item.Proper (MatrixFits K)) (name : String) :
    Agree ((Component.net name m entries).matrix : Except Failure (Dense K))
      ((entriesAction m entries).map Dense.ofMatrix) := by
  have hrun := entriesMatrix_agree hm h name 0 1
  simp only [Matrix.mul_one] at hrun
  rw [Component.matrix, Dense.identity_of_storable hm]
  exact hrun

theorem placing_entriesAction {w offset : Nat} (hfit : offset + w ≤ m)
    (h : ∀ e ∈ entries, e.Fits w ∧ e.item.Proper (MatrixFits K)) :
    (entriesAction w entries).map (Dense.placing hfit) =
      (entriesAction m (entries.map (Entry.shift offset)) :
        Except Failure (Matrix (Fin m) (Fin m) K)) := by
  induction entries with
  | nil =>
    rw [List.map_nil, entriesAction, entriesAction, Except.map, map_one]
  | cons e rest ih =>
    obtain ⟨⟨hin, hitem⟩, hrest⟩ := List.forall_mem_cons.mp h
    rw [List.map_cons, entriesAction, entriesAction, ← ih hrest, Entry.action, Entry.action]
    change _ = (e.item.matrix.map (Dense.embedded m (offset + e.offset)) >>= _)
    cases hV : (e.item.matrix : Except Failure (Dense K)) with
    | error f => rfl
    | ok V =>
      have hplace : e.offset + V.rows ≤ w := by
        rw [(hitem.isSquare_matrix hV).1]
        exact hin
      rw [Except.map, Except.map, ok_bind, ok_bind, ← Dense.placing_embedded hfit hplace]
      cases (entriesAction w rest : Except Failure (Matrix (Fin w) (Fin w) K)) with
      | error f => rfl
      | ok B => exact congrArg Except.ok (map_mul _ _ _)

theorem action_net_agree {w offset : Nat} (hw : Dense.Storable w) (hfit : offset + w ≤ m)
    (h : ∀ e ∈ entries, e.Fits w ∧ e.item.Proper (MatrixFits K)) (name : String) :
    Agree ((⟨offset, .net name w entries⟩ : Entry (Component α)).action m)
      (entriesAction m (entries.map (Entry.shift offset)) :
        Except Failure (Matrix (Fin m) (Fin m) K)) := by
  rw [← placing_entriesAction hfit h]
  refine ((matrix_net_agree hw h name).map (Dense.embedded m offset)).trans ?_
  cases (entriesAction w entries : Except Failure (Matrix (Fin w) (Fin w) K)) with
  | error f => exact .refl _
  | ok P => exact .refl _

end Action

section Transparency

variable {K : Type} [Element α] [ExactScalar K] [Transfer α K]

theorem matrix_net_replace {m : Nat} (hm : Dense.Storable m) {e : Entry (Component α)}
    {es before after : List (Entry (Component α))}
    (h : ∀ x ∈ before ++ e :: after, x.Fits m ∧ x.item.Proper (MatrixFits K))
    (h' : ∀ x ∈ before ++ (es ++ after), x.Fits m ∧ x.item.Proper (MatrixFits K))
    (haction : Agree (e.action m : Except Failure (Matrix (Fin m) (Fin m) K)) (entriesAction m es))
    (name : String) :
    Agree ((Component.net name m (before ++ e :: after)).matrix : Except Failure (Dense K))
      (Component.net name m (before ++ (es ++ after))).matrix :=
  (matrix_net_agree hm h name).trans
    (((entriesAction_replace haction before after).map _).trans (matrix_net_agree hm h' name).symm)

theorem Component.Unnests.agree_of_storable {c c' : Component α} (h : c.Unnests c')
    (hc : c.Proper (MatrixFits K)) {m : Nat} (hm : Dense.Storable m) (hw : c.width ≤ m) :
    Agree (c.matrix : Except Failure (Dense K)) c'.matrix := by
  induction h with
  | @here name inner width w offset before entries after =>
    obtain ⟨hpos, hentries⟩ := proper_net.mp hc
    obtain ⟨_, hentries'⟩ := proper_net.mp (Component.Unnests.here.proper hc)
    have hs := hm.mono hpos hw
    have hnet : (⟨offset, .net inner w entries⟩ : Entry (Component α)) ∈
        before ++ ⟨offset, .net inner w entries⟩ :: after := by simp
    obtain ⟨hfit, hproper⟩ := hentries _ hnet
    obtain ⟨hpos', hinner⟩ := proper_net.mp hproper
    have hwidth : offset + w ≤ width := hfit
    exact matrix_net_replace hs hentries hentries'
      (action_net_agree (hs.mono hpos' (by omega)) hwidth hinner inner) name
  | @inside name width offset before after c c' hcc ih =>
    obtain ⟨hpos, hentries⟩ := proper_net.mp hc
    obtain ⟨_, hentries'⟩ := proper_net.mp (Component.Unnests.inside hcc |>.proper hc)
    have hs := hm.mono hpos hw
    have hitem : (⟨offset, c⟩ : Entry (Component α)) ∈ before ++ ⟨offset, c⟩ :: after := by simp
    obtain ⟨hfit, hproper⟩ := hentries _ hitem
    have hwidth : offset + c.width ≤ width := hfit
    have hwidth' : width ≤ m := hw
    have haction : Agree ((⟨offset, c⟩ : Entry (Component α)).action width)
        (entriesAction width [⟨offset, c'⟩] :
          Except Failure (Matrix (Fin width) (Fin width) K)) := by
      rw [entriesAction_singleton]
      exact (ih hproper (by omega)).map _
    exact matrix_net_replace hs hentries hentries' haction name

/-- A replacement keeps the matrix, or the failure to have one. -/
theorem Component.Unnests.agree {c c' : Component α} (h : c.Unnests c')
    (hc : c.Proper (MatrixFits K)) : Agree (c.matrix : Except Failure (Dense K)) c'.matrix := by
  by_cases hs : Dense.Storable c.width
  · exact h.agree_of_storable hc hs (Nat.le_refl _)
  · -- the width is that of both networks, and both fail at their identity
    have hfail : ∀ {name : String} {width : Nat} {es fs : List (Entry (Component α))},
        ¬ Dense.Storable width → Agree ((Component.net name width es).matrix :
          Except Failure (Dense K)) (Component.net name width fs).matrix := by
      intro name width es fs hw
      have h₁ := Network.matrix_of_not_storable (n := ⟨name, width, es⟩) hw
        (Dense.ofMatrix (1 : Matrix (Fin width) (Fin width) K))
      have h₂ := Network.matrix_of_not_storable (n := ⟨name, width, fs⟩) hw
        (Dense.ofMatrix (1 : Matrix (Fin width) (Fin width) K))
      rw [Network.matrix, Network.toComponent] at h₁ h₂
      rw [h₁, h₂]
      exact .refl _
    cases h with
    | here => exact hfail hs
    | inside _ => exact hfail hs

theorem Component.UnnestsTo.agree {c c' : Component α} (h : c.UnnestsTo c')
    (hc : c.Proper (MatrixFits K)) :
    c'.Proper (MatrixFits K) ∧ Agree (c.matrix : Except Failure (Dense K)) c'.matrix := by
  induction h with
  | refl => exact ⟨hc, .refl _⟩
  | tail _ hstep ih => exact ⟨hstep.proper ih.1, ih.2.trans (hstep.agree ih.1)⟩

omit [Element α] [Transfer α K] in
theorem Dense.identity_eq_error {m : Nat} (hm : 0 < m) {f : Failure}
    (h : (Dense.identity m : Except Failure (Dense K)) = .error f) : f.IsOverrun := by
  unfold Dense.identity at h
  rw [if_neg (by omega)] at h
  rcases bind_eq_error h with h | ⟨count, _, h⟩
  · exact Storage.isOverrun_of_reserve h
  · simp only at h
    split at h
    · cases h
    · exact ⟨_, (congrArg Failure.root (Except.error.inj h)).symm⟩

omit [Element α] [Transfer α K] in
theorem Dense.embed_of_not_storable {m offset : Nat} {block : Dense K} (hm : ¬ Storable m)
    (hpos : 0 < block.rows) (hsq : block.rows = block.cols) (hfit : offset + block.rows ≤ m)
    (V : Dense K) :
    embed m offset block = (identity m : Except Failure (Dense K)).map fun _ => V := by
  have hwrap : ¬ (m : Int) < Word.wrap ((offset : Int) + block.rows) := by
    have := Word.wrap_le (x := (offset : Int) + block.rows) (by omega)
    omega
  have hoffset : ¬ (offset : Int) < 0 := by omega
  unfold embed
  rw [if_neg (not_not.mpr hsq), if_neg (by simp [hwrap, hoffset])]
  cases hid : (identity m : Except Failure (Dense K)) with
  | ok one => exact absurd (storable_of_identity hid) hm
  | error f =>
    have hover := Dense.identity_eq_error (by omega) hid
    rw [noting_error, hover.noted_eq]
    rfl

def Network.widened (n : Network α) (m : Nat) : Network α := { n with width := m }

omit [Element α] in
theorem Network.grow_of_le {n : Network α} {m : Nat} (hm : n.width ≤ m) :
    n.grow m = .ok (n.widened m) := by
  rw [Network.grow, if_neg (by omega)]
  rfl

omit [ExactScalar K] [Transfer α K] in
theorem Network.proper_widened {P : α → Prop} {n : Network α} (h : n.toComponent.Proper P)
    {m : Nat} (hm : n.width ≤ m) : (n.widened m).toComponent.Proper P := by
  obtain ⟨hpos, hentries⟩ := proper_net.mp h
  exact proper_net.mpr ⟨hpos.trans_le hm, fun e he =>
    ⟨(hentries e he).1.trans hm, (hentries e he).2⟩⟩

/-- A widened network does on the first modes what it did before. -/
theorem Network.matrix_widened_agree {n : Network α} (h : n.toComponent.Proper (MatrixFits K))
    {m : Nat} (hm : n.width ≤ m) (hs : Dense.Storable m) :
    Agree ((n.widened m).matrix : Except Failure (Dense K))
      (((entriesAction n.width n.entries).map
        (Dense.placing (by rwa [Nat.zero_add] : 0 + n.width ≤ m))).map Dense.ofMatrix) := by
  rw [placing_entriesAction _ (proper_net.mp h).2, map_shift_zero]
  exact matrix_net_agree hs (proper_net.mp (n.proper_widened h hm)).2 n.name

theorem Network.matrix_widened {n : Network α} (h : n.toComponent.Proper (MatrixFits K)) {m : Nat}
    (hm : n.width ≤ m) {U : Dense K} (hU : n.matrix = .ok U) :
    (n.widened m).matrix = Dense.embed m 0 U := by
  obtain ⟨hrows, hcols⟩ := h.isSquare_matrix hU
  have hwidth : U.rows ≤ m := hrows.trans_le hm
  have hn : Dense.Storable n.width := (hasMatrix_of_matrix_net hU).1
  by_cases hs : Dense.Storable m
  · have haction := (matrix_net_agree hn (proper_net.mp h).2 n.name).symm
    have hwide := n.matrix_widened_agree h hm hs
    cases hP : (entriesAction n.width n.entries :
        Except Failure (Matrix (Fin n.width) (Fin n.width) K)) with
    | error f =>
      rw [hP] at haction
      obtain ⟨f', hf', _⟩ := haction.exists_error
      cases hf'.symm.trans hU
    | ok P =>
      rw [hP] at haction hwide
      obtain rfl := Except.ok.inj (hU.symm.trans haction.eq_ok)
      rw [hwide.symm.eq_ok]
      have hplace : 0 + (Dense.ofMatrix P).rows ≤ m := by rwa [Nat.zero_add]
      exact (Dense.embed_of_storable hs rfl hplace).symm
  · have hplace : 0 + U.rows ≤ m := by rwa [Nat.zero_add]
    have hfail := Dense.embed_of_not_storable hs (hn.1.trans_eq hrows.symm)
      (hrows.trans hcols.symm) hplace U
    rw [Int.natCast_zero] at hfail
    rw [hfail]
    exact Network.matrix_of_not_storable (n := n.widened m) hs U

theorem Network.exists_matrix_of_widened {n : Network α}
    (h : n.toComponent.Proper (MatrixFits K)) {m : Nat} (hm : n.width ≤ m) {W : Dense K}
    (hW : (n.widened m).matrix = .ok W) :
    ∃ U : Dense K, n.matrix = .ok U := by
  have hs : Dense.Storable m := (hasMatrix_of_matrix_net hW).1
  have hwide := n.matrix_widened_agree h hm hs
  have haction := matrix_net_agree (hs.mono (proper_net.mp h).1 hm) (proper_net.mp h).2 n.name
  cases hP : (entriesAction n.width n.entries :
      Except Failure (Matrix (Fin n.width) (Fin n.width) K)) with
  | error f =>
    rw [hP] at hwide
    obtain ⟨f', hf', _⟩ := hwide.symm.exists_error
    cases hf'.symm.trans hW
  | ok P =>
    rw [hP] at haction
    exact ⟨_, haction.symm.eq_ok⟩

end Transparency

theorem Device.isSquare_of_matrix {R : Type} [Quantity R] {d : Device R} {V : Dense (Amplitude R)}
    (hd : ∀ name M, d = .unitary name M → M.rows = M.cols) (h : d.matrix = .ok V) :
    V.IsSquare d.width := by
  cases d with
  | beamSplitter convention theta p =>
    cases convention with
    | unknown text => cases h
    | rx | ry | h =>
      obtain rfl := Except.ok.inj h
      exact ⟨rfl, rfl⟩
  | phaseShifter phi =>
    obtain rfl := Except.ok.inj h
    exact ⟨rfl, rfl⟩
  | unitary name M =>
    obtain rfl := Except.ok.inj h
    exact ⟨rfl, (hd name M rfl).symm⟩

/-- Nesting and widening show in no matrix. For networks whose entries lie within them at every
depth: a network inside, at whatever depth, can give way to its own entries; the network without
networks inside, which such replacements lead to, has the same matrix; and a widened network has the
old matrix on its first modes. Where there is no matrix, there is none afterwards, for the same
cause. -/
theorem nesting_is_transparent {K : Type} [Element α] [ExactScalar K] [Transfer α K]
    (n : Network α) (hin : n.toComponent.Within) (hmodes : n.toComponent.HasModes)
    (hdevices : n.toComponent.EachDevice (MatrixFits K)) :
    (∀ n' : Network α, n.toComponent.Unnests n'.toComponent →
      Agree (n'.matrix : Except Failure (Dense K)) n.matrix) ∧
    (n.toComponent.UnnestsTo n.flatten.toComponent ∧
      (∀ e ∈ n.flatten.entries, ∀ n' : Network α, e.item ≠ n'.toComponent) ∧
      Agree (n.flatten.matrix : Except Failure (Dense K)) n.matrix) ∧
    ∀ m : Int, n.width ≤ m → ∃ grown : Network α, n.grow m = .ok grown ∧
      (∀ U : Dense K, n.matrix = .ok U → grown.matrix = Dense.embed m 0 U) ∧
      ∀ W : Dense K, grown.matrix = .ok W → ∃ U : Dense K, n.matrix = .ok U := by
  have hproper : n.toComponent.Proper (MatrixFits K) := ⟨hin, hmodes, hdevices⟩
  refine ⟨?_, ⟨n.unnestsTo_flatten, ?_, ?_⟩, ?_⟩
  · intro n' h
    exact (h.agree hproper).symm
  · intro e he
    have hleaf : e ∈ n.toComponent.leaves 0 := by
      rw [Network.toComponent, Component.leaves]
      exact he
    exact ne_of_mem_leaves hleaf
  · exact (n.unnestsTo_flatten.agree hproper).2.symm
  · intro m hm
    obtain ⟨k, rfl⟩ := Int.eq_ofNat_of_zero_le (by omega : 0 ≤ m)
    have hle : n.width ≤ k := by omega
    exact ⟨n.widened k, Network.grow_of_le hle, fun U hU => n.matrix_widened hproper hle hU,
      fun W hW => n.exists_matrix_of_widened hproper hle hW⟩

noncomputable def nestedSplitter : Network (Device ℝ) :=
  ⟨"outer", 3, [⟨0, .perm .crossing⟩, ⟨1, .net "middle" 2 [⟨0, .device .balanced⟩,
    ⟨1, .net "inner" 1 [⟨0, .device (.phaseShifter 1)⟩]⟩]⟩]⟩

noncomputable def flatSplitter : Network (Device ℝ) :=
  ⟨"outer", 3, [⟨0, .perm .crossing⟩, ⟨1, .device .balanced⟩, ⟨2, .device (.phaseShifter 1)⟩]⟩

theorem flatten_nestedSplitter : nestedSplitter.flatten = flatSplitter := rfl

theorem proper_nestedSplitter : nestedSplitter.toComponent.Proper (MatrixFits (Amplitude ℝ)) := by
  have hsplitter : (Component.device (.balanced : Device ℝ)).Proper (MatrixFits (Amplitude ℝ)) :=
    proper_device fun V hV => Device.isSquare_of_matrix (by rintro _ _ ⟨⟩) hV
  have hshifter :
      (Component.device (.phaseShifter 1 : Device ℝ)).Proper (MatrixFits (Amplitude ℝ)) :=
    proper_device fun V hV => Device.isSquare_of_matrix (by rintro _ _ ⟨⟩) hV
  refine proper_net.mpr ⟨by decide, List.forall_mem_cons.mpr ⟨⟨by decide, proper_perm _⟩,
    List.forall_mem_singleton.mpr ⟨by decide, ?_⟩⟩⟩
  refine proper_net.mpr ⟨by decide, List.forall_mem_cons.mpr ⟨⟨by decide, hsplitter⟩,
    List.forall_mem_singleton.mpr ⟨by decide, ?_⟩⟩⟩
  exact proper_net.mpr ⟨by decide, List.forall_mem_singleton.mpr ⟨by decide, hshifter⟩⟩

theorem nesting_is_transparent_splitter :
    nestedSplitter.toComponent.Within ∧ nestedSplitter.toComponent.HasModes ∧
    nestedSplitter.toComponent.EachDevice (MatrixFits (Amplitude ℝ)) ∧
    Agree (flatSplitter.matrix : Except Failure (Dense (Amplitude ℝ))) nestedSplitter.matrix ∧
    ∃ grown : Network (Device ℝ), nestedSplitter.grow 5 = .ok grown ∧
      ∀ U : Dense (Amplitude ℝ), nestedSplitter.matrix = .ok U →
        grown.matrix = Dense.embed 5 0 U := by
  have hproper := proper_nestedSplitter
  obtain ⟨_, ⟨_, _, hflat⟩, hgrow⟩ := nesting_is_transparent nestedSplitter hproper.within
    hproper.hasModes hproper.devices
  rw [flatten_nestedSplitter] at hflat
  obtain ⟨grown, hgrown, hmatrix, _⟩ := hgrow 5 (by decide)
  exact ⟨hproper.within, hproper.hasModes, hproper.devices, hflat, grown, hgrown, hmatrix⟩

end DualRail
