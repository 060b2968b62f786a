import DualRail.Proofs.NetworkRange
import DualRail.Proofs.StandardCompilation

/-!
Identity permutations. Whether they are kept or left out decides nothing but the entries of the
network: a compilation that leaves them out fails as the other one does, and its network has the
same entries without the permutations that move nothing. Kept, they make the entries of a gate a
fixed number: one for a fragment that stands where it is or only rewires, three for any other.
-/

namespace DualRail

variable {α R : Type}

def Component.isIdle : Component α → Bool
  | .perm p => p.isIdentity
  | _ => false

/-- The processor without the entries of its network that move nothing. -/
def Processor.elided (p : Processor α R) : Processor α R :=
  { p with network := p.network.map fun net =>
      { net with entries := net.entries.filter fun e => !e.item.isIdle } }

section Rewiring

variable [Element α]

mutual

/-- The component is made of permutations only, each within the network it stands in. -/
def Component.rewires : Component α → Bool
  | .device _ => false
  | .perm _ => true
  | .net _ width entries => decide (0 < width) && entriesRewire width entries

def entriesRewire (width : Nat) : List (Entry (Component α)) → Bool
  | [] => true
  | ⟨offset, c⟩ :: rest =>
    c.rewires && decide (offset + c.width ≤ width) && entriesRewire width rest

end

theorem entriesRewire_of_permutation {width : Nat} {entries : List (Entry (Component α))}
    (hitem : ∀ e ∈ entries, ∀ {p : Permutation}, e.item.asPermutation = .ok (some p) →
      e.item.rewires = true)
    {acc p : Permutation} (h : entriesPermutation width entries acc = .ok (some p)) :
    entriesRewire width entries = true := by
  induction entries generalizing acc with
  | nil => rw [entriesRewire]
  | cons e rest ih =>
    obtain ⟨q, lifted, next, hq, hlift, _, hrest⟩ := entriesPermutation_cons h
    have hfit : e.offset + e.item.width ≤ width := by
      rw [← Component.width_of_asPermutation hq]
      exact (Permutation.lift_eq_ok hlift).1
    rw [entriesRewire, hitem e List.mem_cons_self hq, decide_eq_true hfit,
      ih (List.forall_mem_of_forall_mem_cons hitem) hrest]
    rfl

theorem rewires_of_asPermutation {c : Component α} {p : Permutation}
    (h : c.asPermutation = .ok (some p)) : c.rewires = true := by
  induction c using Component.induction generalizing p with
  | device d =>
    rw [Component.asPermutation] at h
    cases h
  | perm q => rw [Component.rewires]
  | net name width entries ih =>
    obtain ⟨one, hone, hentries⟩ := asPermutation_net h
    have hwidth : 0 < width := by
      rw [← (identity_eq_ok hone).1]
      exact one.width_pos
    rw [Component.rewires, decide_eq_true hwidth, entriesRewire_of_permutation ih hentries]
    rfl

theorem settled_identity_ne_none {m : Nat} (hm : 0 < m) :
    settled (Permutation.identity m) ≠ .ok none := by
  by_cases hstore : m * 8 ≤ Storage.limit
  · rw [Permutation.identity_of_le hm hstore]
    rintro ⟨⟩
  · rw [Permutation.identity_overrun (Nat.not_le.mp hstore)]
    rintro ⟨⟩

theorem settled_lift_ne_none {p : Permutation} {m offset : Nat} (hfit : offset + p.width ≤ m) :
    settled (p.lift m offset) ≠ .ok none := by
  by_cases hstore : m * 8 ≤ Storage.limit
  · rw [Permutation.lift_of_fits hfit hstore]
    rintro ⟨⟩
  · rw [Permutation.lift_overrun hfit (Nat.not_le.mp hstore)]
    rintro ⟨⟩

theorem entriesPermutation_ne_none {width : Nat} {entries : List (Entry (Component α))}
    (hitem : ∀ e ∈ entries, e.item.rewires = true → e.item.asPermutation ≠ .ok none)
    {acc : Permutation} (hacc : acc.width = width) (h : entriesRewire width entries = true) :
    entriesPermutation width entries acc ≠ .ok none := by
  induction entries generalizing acc with
  | nil =>
    rw [entriesPermutation]
    rintro ⟨⟩
  | cons e rest ih =>
    rw [entriesRewire, Bool.and_eq_true, Bool.and_eq_true, decide_eq_true_eq] at h
    obtain ⟨⟨hc, hfit⟩, hrest⟩ := h
    intro hnone
    rw [entriesPermutation] at hnone
    obtain ⟨q, hq, hnone⟩ := bind_eq_ok hnone
    cases q with
    | none => exact hitem e List.mem_cons_self hc hq
    | some q =>
      rw [← Component.width_of_asPermutation hq] at hfit
      obtain ⟨lifted, hlift, hnone⟩ := bind_eq_ok hnone
      cases lifted with
      | none => exact settled_lift_ne_none hfit hlift
      | some lifted =>
        obtain ⟨_, rfl⟩ := Permutation.lift_eq_ok (settled_eq_some hlift)
        have hsame := hacc.trans (Permutation.width_raise_of_fits hfit).symm
        obtain ⟨next, hnext, hnone⟩ := bind_eq_ok hnone
        rw [Permutation.andThen_eq hsame, settled_ok] at hnext
        obtain rfl := Except.ok.inj hnext
        exact ih (List.forall_mem_of_forall_mem_cons hitem)
          ((Permutation.width_comp ..).trans hacc) hrest hnone

theorem asPermutation_ne_none {c : Component α} (h : c.rewires = true) :
    c.asPermutation ≠ .ok none := by
  induction c using Component.induction with
  | device d =>
    rw [Component.rewires] at h
    cases h
  | perm q =>
    rw [Component.asPermutation]
    rintro ⟨⟩
  | net name width entries ih =>
    rw [Component.rewires, Bool.and_eq_true, decide_eq_true_eq] at h
    intro hnone
    rw [Component.asPermutation] at hnone
    obtain ⟨one, hone, hrest⟩ := bind_eq_ok hnone
    cases one with
    | none => exact settled_identity_ne_none h.1 hone
    | some one =>
      have hwidth := (identity_eq_ok (settled_eq_some hone)).1
      exact entriesPermutation_ne_none ih hwidth h.2 hrest

end Rewiring

theorem Permutation.not_isIdentity_of_trim {p core : Permutation} {lo : Nat}
    (h : p.trim = some (lo, core)) : core.isIdentity = false := by
  rw [Bool.eq_false_iff]
  intro hcore
  apply (mem_moved.mp (ends_of_trim h).1).2
  rw [← (trim_eq_some h).2, raise_apply, isIdentity_iff.mp hcore, Nat.sub_self, Nat.add_zero,
    ite_self]

section Entries

theorem permutationEntries_elided (π : Permutation) :
    (permutationEntries false π : List (Entry (Component α))) =
      (permutationEntries true π).filter fun e => !e.item.isIdle := by
  cases h : π.isIdentity with
  | true => simp [permutationEntries, Component.isIdle, h]
  | false => simp [permutationEntries, Component.isIdle, h]

theorem foldedEntries_elided (π : Permutation) :
    (foldedEntries false π : List (Entry (Component α))) =
      (foldedEntries true π).filter fun e => !e.item.isIdle := by
  unfold foldedEntries
  cases h : π.trim with
  | none => exact permutationEntries_elided π
  | some part =>
    obtain ⟨lo, core⟩ := part
    simp [Component.isIdle, Permutation.not_isIdentity_of_trim h]

theorem length_permutationEntries (π : Permutation) :
    (permutationEntries true π : List (Entry (Component α))).length = 1 := by
  simp [permutationEntries]

theorem length_foldedEntries (π : Permutation) :
    (foldedEntries true π : List (Entry (Component α))).length = 1 := by
  unfold foldedEntries
  cases π.trim with
  | none => exact length_permutationEntries π
  | some part => rfl

variable [Quantity R] {p : Placement α R} {n : Nat}

theorem Placement.Course.entries_elided (h : p.Course) :
    p.entries false = (p.entries true).filter fun e => !e.item.isIdle := by
  cases h with
  | direct _ _ _ hentries =>
    rw [hentries, hentries]
    rfl
  | folded _ _ _ _ _ _ _ hentries =>
    rw [hentries, hentries]
    exact foldedEntries_elided _
  | routed _ _ _ _ hentries =>
    rw [hentries, hentries, List.filter_append, List.filter_append, ← permutationEntries_elided,
      ← permutationEntries_elided]
    rfl

variable [Element α]

/-- The number of entries a gate adds if identity permutations are kept. -/
def Placement.entryCount (p : Placement α R) : Nat :=
  if p.fragment.ancillas.isEmpty && (p.qubits.length == 1 || p.circuit.toComponent.rewires) then 1
  else 3

theorem Placement.Sound.length_entries (hp : p.Sound n) (ho : ¬ p.Overruns) :
    (p.entries true).length = p.entryCount := by
  have hperm := hp.asPermutation_eq
  cases hp.course ho with
  | direct hd _ _ hentries =>
    rw [isDirect, Bool.and_eq_true] at hd
    rw [hentries, entryCount, hd.1, hd.2]
    rfl
  | folded _ _ _ hi _ _ _ hentries =>
    rw [hi] at hperm
    cases hanc : p.fragment.ancillas.isEmpty with
    | false =>
      rw [hanc] at hperm
      cases hperm
    | true =>
      rw [hanc, if_pos rfl] at hperm
      rw [hentries, length_foldedEntries, entryCount, hanc,
        rewires_of_asPermutation hperm.symm, Bool.or_true]
      rfl
  | routed hd _ _ hi hentries =>
    have hcount : p.entryCount = 3 := by
      cases hanc : p.fragment.ancillas.isEmpty with
      | false =>
        rw [entryCount, hanc]
        rfl
      | true =>
        rw [hi, hanc, if_pos rfl] at hperm
        rw [isDirect, hanc, Bool.and_true] at hd
        have hrewires : p.circuit.toComponent.rewires = false :=
          Bool.eq_false_iff.mpr fun h => asPermutation_ne_none h hperm.symm
        rw [entryCount, hanc, hd, hrewires]
        rfl
    rw [hentries, hcount, List.length_append, List.length_append, length_permutationEntries,
      length_permutationEntries]
    rfl

end Entries

section Compilations

variable [Quantity R] {s : Settings α R} {n : Nat} {ps : List (Placement α R)}

theorem flatMap_entries_elided (hs : ∀ p ∈ ps, p.Sound n) (ho : ∀ p ∈ ps, ¬ p.Overruns) :
    ps.flatMap (Placement.entries false) =
      (ps.flatMap (Placement.entries true)).filter fun e => !e.item.isIdle := by
  rw [List.filter_flatMap]
  exact List.flatMap_congr fun p hp => ((hs p hp).course (ho p hp)).entries_elided

theorem processorOf_elided (hs : ∀ p ∈ ps, p.Sound n) (ho : ∀ p ∈ ps, ¬ p.Overruns)
    (heralded : Bool) (name : String) :
    processorOf heralded name n ps (ps.flatMap (Placement.entries false)) =
      (processorOf heralded name n ps (ps.flatMap (Placement.entries true))).elided := by
  rw [flatMap_entries_elided hs ho]
  rfl

variable [Element α]

theorem length_flatMap_entries (hs : ∀ p ∈ ps, p.Sound n) (ho : ∀ p ∈ ps, ¬ p.Overruns) :
    (ps.flatMap (Placement.entries true)).length = (ps.map Placement.entryCount).sum := by
  rw [List.length_flatMap]
  exact congrArg List.sum (List.map_congr_left fun p hp => (hs p hp).length_entries (ho p hp))

/-- The checks of a processor do not look at the entries of its network. -/
theorem compile_keeping (hr : s.registry.Built) {prog : Program R} (hq : prog.qubits = n)
    (hn : 0 < n) (h : Placed s n prog.gates ps) (keep : Bool) :
    compile (s.keeping keep) (some prog) =
      (processorOf s.heralded (networkName prog.name) n ps []).validate >>= fun _ =>
        .ok (processorOf s.heralded (networkName prog.name) n ps
          (ps.flatMap (Placement.entries keep))) :=
  compile_of_placed (s := s.keeping keep) hr hq hn
    ⟨h.storable, h.laysOut.keeping keep, h.fits⟩

theorem compile_keeping_false (hr : s.registry.Built) (prog : Program R) :
    compile (s.keeping false) (some prog) =
      (compile (s.keeping true) (some prog)).map Processor.elided := by
  cases exists_extent hr prog with
  | empty hq =>
    rw [compile_of_nonpos hq, compile_of_nonpos hq]
    rfl
  | large hn hpos hlarge =>
    rw [compile_of_limit_lt hn hpos hlarge, compile_of_limit_lt hn hpos hlarge]
    rfl
  | @placed n ps hn hpos h =>
    have hs := h.laysOut.sound hr (Nat.le_refl _)
    rw [compile_keeping hr hn hpos h false, compile_keeping hr hn hpos h true]
    cases (processorOf s.heralded (networkName prog.name) n ps []).validate with
    | error f => rfl
    | ok u => exact congrArg Except.ok (processorOf_elided hs h.fits _ _)
  | stopped hn hpos hgates hplaced hstop =>
    obtain ⟨f, hall, _⟩ := compile_stops_alike hr hpos hplaced hstop
    rw [hall false prog _ hn hgates, hall true prog _ hn hgates]
    rfl

/-- Leaving identity permutations out removes them from the network and does nothing else; kept,
they give every gate its number of entries. -/
theorem compile_elides_identities (hr : s.registry.Built) :
    (∀ prog : Option (Program R),
      compile (s.keeping false) prog = (compile (s.keeping true) prog).map Processor.elided) ∧
    ∀ (prog : Program R) (proc : Processor α R), compile (s.keeping true) (some prog) = .ok proc →
      ∃ (n : Nat) (ps : List (Placement α R)), prog.qubits = n ∧
        LaysOut s n (2 * n) prog.gates ps ∧ proc.length = (ps.map Placement.entryCount).sum := by
  constructor
  · rintro (_ | prog)
    · rfl
    · exact compile_keeping_false hr prog
  · intro prog proc h
    obtain ⟨n, ps, hn, _, hplaced, _, rfl⟩ := (compile_ok_iff (s := s.keeping true) hr).mp h
    have hps : LaysOut s n (2 * n) prog.gates ps := hplaced.laysOut.keeping s.keepIdentity
    exact ⟨n, ps, hn, hps, length_flatMap_entries (hps.sound hr (Nat.le_refl _)) hplaced.fits⟩

end Compilations

theorem entryCount_sampleProgram {ps : List (Placement (Device ℝ) ℝ)}
    (h : LaysOut Settings.standard 3 6 Standard.sampleProgram.gates ps) :
    ps.map Placement.entryCount = [1, 3, 1] := by
  have hs := h.sound Standard.standard_built (Nat.le_refl _)
  obtain ⟨turn, control, exchange, _, _, π, rfl, ⟨hq, hturn⟩, ⟨_, hcontrol⟩, _, hexchange, hπ⟩ :=
    Standard.layout_sampleProgram h
  have hcircuit := (hs exchange (by simp)).valid.circuit
  rw [hexchange] at hcircuit
  have hrewires : exchange.circuit.toComponent.rewires = true := by
    have hwidth : π.width ≤ 4 := by
      rw [Permutation.width, hπ]
      decide
    rw [← Option.some.inj hcircuit]
    simp [Network.toComponent, Component.rewires, entriesRewire, Component.width, hwidth]
  rw [List.map_cons, List.map_cons, List.map_cons, Placement.entryCount, Placement.entryCount,
    Placement.entryCount, hturn, hq, hcontrol, hexchange, hrewires, Bool.or_true]
  rfl

theorem compile_elides_identities_sample :
    ∃ proc : Processor (Device ℝ) ℝ,
      compile (Settings.standard.keeping true) (some Standard.sampleProgram) = .ok proc ∧
      compile (Settings.standard.keeping false) (some Standard.sampleProgram) = .ok proc.elided ∧
      proc.length = 5 := by
  obtain ⟨hsame, hcount⟩ := compile_elides_identities
    (s := (Settings.standard : Settings (Device ℝ) ℝ)) Standard.standard_built
  have hsample := hsame (some Standard.sampleProgram)
  obtain ⟨without, hwithout⟩ := Standard.compile_sampleProgram
  have hfalse : compile (Settings.standard.keeping false) (some Standard.sampleProgram) =
      .ok without := hwithout
  cases hwith : compile (Settings.standard.keeping true) (some Standard.sampleProgram) with
  | error f =>
    rw [hwith, hfalse] at hsample
    cases hsample
  | ok proc =>
    rw [hwith] at hsample
    refine ⟨proc, rfl, hsample, ?_⟩
    obtain ⟨n, ps, hn, hps, hlength⟩ := hcount _ proc hwith
    obtain rfl : 3 = n := Int.ofNat.inj hn
    rw [hlength, entryCount_sampleProgram hps]
    rfl

end DualRail
