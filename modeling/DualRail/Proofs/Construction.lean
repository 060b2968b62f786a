import Mathlib
import DualRail.Compiler.Compile
import DualRail.Proofs.FragmentBlock
import DualRail.Proofs.NetworkMatrix

/-!
What the steps of a construction do. A placement is a fragment with its operand qubits and its first
new mode. Placing it widens the network to the end of its new modes, enters it in the ledger and
appends entries of one of three kinds; the only way to fail is an overrun.
-/

namespace DualRail

/-- A fragment with its circuit, the qubits it acts on and its first new mode. -/
structure Placement (α R : Type) where
  fragment : Fragment α R
  circuit : Network α
  qubits : List Nat
  base : Nat

def permutationEntries {α : Type} (keep : Bool) (p : Permutation) : List (Entry (Component α)) :=
  if p.isIdentity && !keep then [] else [⟨0, .perm p⟩]

def foldedEntries {α : Type} (keep : Bool) (p : Permutation) : List (Entry (Component α)) :=
  match p.trim with
  | none => permutationEntries keep p
  | some (offset, core) => [⟨offset, .perm core⟩]

namespace Placement

variable {α R : Type} [Quantity R]

def stop (p : Placement α R) : Nat := p.base + p.fragment.ancillas.length

def block (p : Placement α R) : List Nat := p.fragment.block p.qubits p.base

def newModes (p : Placement α R) : List Nat := List.range' p.base p.fragment.ancillas.length

def operands (p : Placement α R) : List ModePair := p.qubits.map ModeSupply.qubit

def newPairs (p : Placement α R) : List ModePair :=
  (List.range p.fragment.ancillaPairs).map fun i => .startingAt (p.base + 2 * i)

def resolved (kind : String) (p : Placement α R) : ResolvedGate α R :=
  { kind, fragment := p.fragment, operands := p.operands, ancillas := p.newPairs }

def isDirect (p : Placement α R) : Bool :=
  p.qubits.length == 1 && p.fragment.ancillas.isEmpty

/-- A valid fragment on distinct qubits among `n`, its new modes after theirs. -/
structure Sound (n : Nat) (p : Placement α R) : Prop where
  valid : p.fragment.Valid p.circuit
  length_qubits : p.qubits.length = p.fragment.qubitOffsets.length
  nonempty : p.qubits ≠ []
  nodup : p.qubits.Nodup
  lt : ∀ q ∈ p.qubits, q < n
  le_base : 2 * n ≤ p.base

/-- Placing needs more storage than there is, for its new modes or for a route, or the search for a
rewiring leaves it. -/
def Overruns (p : Placement α R) : Prop :=
  Storage.limit < p.fragment.ancillaPairs * 16 ∨
    p.isDirect = false ∧
      (Storage.limit < p.fragment.width ∨ Storage.limit < p.stop * 8 ∨
        ∃ f, p.fragment.asPermutation = .error f)

/-- The entries a placement adds: the circuit where it is, one permutation, or the circuit between a
route and its inverse. -/
inductive Emits (keep : Bool) (p : Placement α R) : List (Entry (Component α)) → Prop where
  | direct {q : Nat} : p.qubits = [q] → p.fragment.ancillas = [] →
      Emits keep p [⟨2 * q, p.circuit.toComponent⟩]
  | folded {r : Route} {inner whole : Permutation} : r.Carries p.stop p.block →
      p.circuit.asPermutation = .ok (some inner) → whole.width = p.stop →
      (∀ i, whole.apply i =
        r.inverse.apply ((inner.raise r.start 0).apply (r.forward.apply i))) →
      Emits keep p (foldedEntries keep whole)
  | routed {r : Route} : r.Carries p.stop p.block →
      Emits keep p (permutationEntries keep r.forward ++
        [⟨r.start, p.circuit.toComponent⟩] ++ permutationEntries keep r.inverse)

def entriesAlong (keep : Bool) (p : Placement α R) (r : Route) : List (Entry (Component α)) :=
  match r.fold p.stop p.fragment with
  | .ok (some whole) => foldedEntries keep whole
  | _ => permutationEntries keep r.forward ++ [⟨r.start, p.circuit.toComponent⟩] ++
      permutationEntries keep r.inverse

def entries (keep : Bool) (p : Placement α R) : List (Entry (Component α)) :=
  if p.isDirect then [⟨2 * p.qubits.headD 0, p.circuit.toComponent⟩]
  else
    match planRoute p.stop (p.block.map Int.ofNat) with
    | .error _ => []
    | .ok r => p.entriesAlong keep r

/-- The failure of a placement that overruns. -/
def overrun (p : Placement α R) : Failure :=
  if p.fragment.ancillaPairs * 16 ≤ Storage.limit ∧ p.fragment.width ≤ Storage.limit ∧
      p.stop * 8 ≤ Storage.limit then
    match p.fragment.asPermutation with
    | .error f => f
    | .ok _ => .overrun .allocation
  else .overrun .allocation

variable {p : Placement α R} {n : Nat}

theorem Sound.two_mul_lt (h : p.Sound n) : ∀ q ∈ p.qubits, 2 * q + 1 < p.base := by
  intro q hq
  have := h.lt q hq
  have := h.le_base
  omega

theorem Sound.block_nodup (h : p.Sound n) : p.block.Nodup :=
  (h.valid.block_distinct h.length_qubits h.nodup h.two_mul_lt).1

theorem Sound.block_lt (h : p.Sound n) : ∀ x ∈ p.block, x < p.stop :=
  (h.valid.block_distinct h.length_qubits h.nodup h.two_mul_lt).2

theorem Sound.isBlock (h : p.Sound n) : p.fragment.IsBlock p.qubits p.base p.block :=
  h.valid.isBlock h.length_qubits

theorem Sound.length_block (h : p.Sound n) : p.block.length = p.circuit.width := by
  rw [h.isBlock.length_eq, h.valid.width_eq]

theorem Sound.block_ne_nil (h : p.Sound n) : p.block ≠ [] := by
  intro he
  have hl := h.length_block
  have hw := h.valid.width
  have hq := List.length_pos_iff.mpr h.nonempty
  rw [he, List.length_nil] at hl
  have := h.length_qubits
  omega

theorem Sound.two_mul_ancillaPairs (h : p.Sound n) :
    2 * p.fragment.ancillaPairs = p.fragment.ancillas.length := by
  have := h.valid.even
  unfold Fragment.ancillaPairs
  omega

theorem Sound.railsOf_newPairs (h : p.Sound n) :
    railsOf p.newPairs = p.newModes.map Int.ofNat := by
  unfold newPairs newModes
  rw [Fragment.railsOf_pairs, h.two_mul_ancillaPairs]

theorem Sound.isDirect_resolved (h : p.Sound n) (kind : String) :
    (p.resolved kind).isDirect = p.isDirect := by
  have hpairs := h.two_mul_ancillaPairs
  have hlen : (p.resolved kind).ancillas.length = p.fragment.ancillaPairs := by
    simp [resolved, newPairs]
  have hempty : (p.resolved kind).ancillas.isEmpty = p.fragment.ancillas.isEmpty := by
    rw [Bool.eq_iff_iff, List.isEmpty_iff_length_eq_zero, List.isEmpty_iff_length_eq_zero, hlen]
    omega
  unfold ResolvedGate.isDirect isDirect
  rw [hempty]
  simp [resolved, operands]

theorem Sound.direct (h : p.Sound n) (hd : p.isDirect = true) :
    ∃ q, p.qubits = [q] ∧ p.fragment.ancillas = [] ∧ p.fragment.qubitOffsets = [0] ∧
      p.circuit.width = 2 := by
  simp only [isDirect, Bool.and_eq_true, beq_iff_eq, List.isEmpty_iff] at hd
  obtain ⟨hone, hanc⟩ := hd
  obtain ⟨q, hq⟩ := List.length_eq_one_iff.mp hone
  have hlen := h.length_qubits
  rw [hone] at hlen
  obtain ⟨off, hoff⟩ := List.length_eq_one_iff.mp hlen.symm
  have hw := h.valid.width
  rw [hoff, hanc] at hw
  have hw' : p.circuit.width = 2 := hw
  have hin := h.valid.inside off (by rw [hoff]; exact List.mem_cons_self)
  have hzero : off = 0 := by omega
  exact ⟨q, hq, hanc, by rw [hoff, hzero], hw'⟩

/-- Where a placement does not overrun, its ancilla positions are the free ones. -/
theorem Sound.ancillaPositions_eq (h : p.Sound n) (ho : ¬ p.Overruns) :
    p.fragment.ancillaPositions = .ok p.fragment.freePositions := by
  apply h.valid.ancillaPositions_eq
  cases hd : p.isDirect with
  | true =>
    obtain ⟨_, _, _, _, hw⟩ := h.direct hd
    rw [h.valid.width_eq, hw]
    decide
  | false => exact Nat.not_lt.mp fun hlt => ho (.inr ⟨hd, .inl hlt⟩)

theorem Sound.asPermutation_eq (h : p.Sound n) :
    p.fragment.asPermutation =
      if p.fragment.ancillas.isEmpty then p.circuit.asPermutation else .ok none := by
  unfold Fragment.asPermutation
  rw [h.valid.circuit]

theorem Sound.asPermutation_eq_some (h : p.Sound n) {inner : Permutation}
    (hi : p.fragment.asPermutation = .ok (some inner)) :
    p.circuit.asPermutation = .ok (some inner) ∧ inner.width = p.circuit.width := by
  rw [h.asPermutation_eq] at hi
  by_cases he : p.fragment.ancillas.isEmpty = true
  · rw [if_pos he] at hi
    exact ⟨hi, width_asPermutation_net hi⟩
  · rw [if_neg he] at hi
    cases hi

theorem Sound.asPermutation_eq_error (h : p.Sound n) {f : Failure}
    (hi : p.fragment.asPermutation = .error f) : f.IsOverrun := by
  rw [h.asPermutation_eq] at hi
  by_cases he : p.fragment.ancillas.isEmpty = true
  · rw [if_pos he] at hi
    exact DualRail.asPermutation_eq_error hi
  · rw [if_neg he] at hi
    cases hi

end Placement

namespace Route

variable {α R : Type} [Quantity R] {r : Route} {f : Fragment α R}

theorem fold_of_none (m : Int) (h : f.asPermutation = .ok none) : r.fold m f = .ok none := by
  unfold fold
  rw [h]
  rfl

theorem fold_of_error (m : Int) {e : Failure} (h : f.asPermutation = .error e) :
    r.fold m f = .error e := by
  unfold fold
  rw [h]
  rfl

variable {m : Nat} {block : List Nat} {inner : Permutation}

theorem fold_eq (h : f.asPermutation = .ok (some inner)) (hfit : r.start + inner.width ≤ m)
    (hm : m * 8 ≤ Storage.limit)
    (hlw : r.forward.width = (inner.raise r.start (m - (r.start + inner.width))).width)
    (hrw : (r.forward.comp _ hlw).width = r.inverse.width) :
    r.fold m f = .ok (some ((r.forward.comp _ hlw).comp r.inverse hrw)) := by
  unfold fold
  rw [h, ok_bind]
  simp only
  rw [Permutation.lift_of_fits hfit hm, noting_ok, ok_bind, Permutation.andThen_eq hlw, noting_ok,
    ok_bind, Permutation.andThen_eq hrw, noting_ok, ok_bind]
  rfl

theorem fold_of_some (hr : r.Carries m block) (h : f.asPermutation = .ok (some inner))
    (hw : inner.width = block.length) (hm : m * 8 ≤ Storage.limit) :
    ∃ whole, r.fold m f = .ok (some whole) ∧ whole.width = m ∧
      ∀ i, whole.apply i =
        r.inverse.apply ((inner.raise r.start 0).apply (r.forward.apply i)) := by
  have hfit : r.start + inner.width ≤ m := by
    rw [hw]
    exact hr.start_add_le
  have hlw : r.forward.width = (inner.raise r.start (m - (r.start + inner.width))).width := by
    rw [hr.width_forward, Permutation.width_raise_of_fits hfit]
  have hrw : (r.forward.comp _ hlw).width = r.inverse.width := by
    rw [Permutation.width_comp, hr.inverse_eq, Permutation.width_inverse]
  refine ⟨_, fold_eq h hfit hm hlw hrw, ?_, ?_⟩
  · rw [Permutation.width_comp, Permutation.width_comp, hr.width_forward]
  · intro i
    simp only [Permutation.comp_apply, Permutation.raise_apply]

theorem fold_overrun (hr : r.Carries m block) (h : f.asPermutation = .ok (some inner))
    (hw : inner.width = block.length) (hm : Storage.limit < m * 8) :
    r.fold m f = .error (.overrun .allocation) := by
  have hfit : r.start + inner.width ≤ m := by
    rw [hw]
    exact hr.start_add_le
  unfold fold
  rw [h, ok_bind]
  simp only
  rw [Permutation.lift_overrun hfit hm, noting_error, error_bind]
  rfl

end Route

namespace Placement

variable {α R : Type} [Quantity R] {p : Placement α R} {n : Nat}

inductive Course (p : Placement α R) : Prop where
  | direct {q : Nat} : p.isDirect = true → p.qubits = [q] → p.fragment.ancillas = [] →
      (∀ keep, p.entries keep = [⟨2 * q, p.circuit.toComponent⟩]) → Course p
  | folded {r : Route} {inner whole : Permutation} : p.isDirect = false →
      planRoute p.stop (p.block.map Int.ofNat) = .ok r → r.Carries p.stop p.block →
      p.fragment.asPermutation = .ok (some inner) →
      r.fold p.stop p.fragment = .ok (some whole) → whole.width = p.stop →
      (∀ i, whole.apply i =
        r.inverse.apply ((inner.raise r.start 0).apply (r.forward.apply i))) →
      (∀ keep, p.entries keep = foldedEntries keep whole) → Course p
  | routed {r : Route} : p.isDirect = false →
      planRoute p.stop (p.block.map Int.ofNat) = .ok r → r.Carries p.stop p.block →
      p.fragment.asPermutation = .ok none →
      (∀ keep, p.entries keep = permutationEntries keep r.forward ++
        [⟨r.start, p.circuit.toComponent⟩] ++ permutationEntries keep r.inverse) → Course p

omit [Quantity R] in
theorem width_le_limit (ho : ¬ p.Overruns) (hd : p.isDirect = false) :
    p.fragment.width ≤ Storage.limit :=
  Nat.not_lt.mp fun h => ho (.inr ⟨hd, .inl h⟩)

omit [Quantity R] in
theorem stop_le_limit (ho : ¬ p.Overruns) (hd : p.isDirect = false) :
    p.stop * 8 ≤ Storage.limit :=
  Nat.not_lt.mp fun h => ho (.inr ⟨hd, .inr (.inl h)⟩)

/-- A placement that does not overrun stands where it is, or has a route. -/
theorem Sound.course (h : p.Sound n) (ho : ¬ p.Overruns) : p.Course := by
  cases hd : p.isDirect with
  | true =>
    obtain ⟨q, hq, hanc, _, _⟩ := h.direct hd
    refine .direct hd hq hanc fun keep => ?_
    rw [entries, hd, if_pos rfl, hq, List.headD_cons]
  | false =>
    obtain ⟨r, hr, hcarries⟩ := planRoute_eq h.block_ne_nil h.block_nodup h.block_lt
    have halong : ∀ keep, p.entries keep = p.entriesAlong keep r := by
      intro keep
      rw [entries, hd, if_neg Bool.false_ne_true, hr]
    cases hi : p.fragment.asPermutation with
    | error f => exact absurd (.inr ⟨hd, .inr (.inr ⟨f, hi⟩)⟩) ho
    | ok inner =>
      cases inner with
      | none =>
        refine .routed hd hr hcarries hi fun keep => ?_
        rw [halong, entriesAlong, Route.fold_of_none _ hi]
      | some inner =>
        obtain ⟨whole, hfold, hwidth, happly⟩ := Route.fold_of_some hcarries hi
          (by rw [(h.asPermutation_eq_some hi).2, h.length_block]) (stop_le_limit ho hd)
        refine .folded hd hr hcarries hi hfold hwidth happly fun keep => ?_
        rw [halong, entriesAlong, hfold]

theorem Sound.emits (h : p.Sound n) (ho : ¬ p.Overruns) (keep : Bool) :
    p.Emits keep (p.entries keep) := by
  cases h.course ho with
  | direct _ hq hanc hentries =>
    rw [hentries]
    exact .direct hq hanc
  | folded _ _ hr hi _ hwidth happly hentries =>
    rw [hentries]
    exact .folded hr (h.asPermutation_eq_some hi).1 hwidth happly
  | routed _ _ hr _ hentries =>
    rw [hentries]
    exact .routed hr

theorem Sound.isOverrun_overrun (h : p.Sound n) : p.overrun.IsOverrun := by
  unfold overrun
  split
  · cases hi : p.fragment.asPermutation with
    | error f => exact h.asPermutation_eq_error hi
    | ok inner => exact Failure.isOverrun_overrun _
  · exact Failure.isOverrun_overrun _

end Placement

namespace Assembly

section Sequencing

variable {α R β γ : Type}

theorem bind_of_ok {x : Step α R β} {f : β → Step α R γ} {a a' : Assembly α R} {b : β}
    (h : x a = .ok b a') : (x >>= f) a = f b a' := by
  simp only [bind, EStateM.bind, h]

theorem bind_of_error {x : Step α R β} {f : β → Step α R γ} {a a' : Assembly α R} {e : Failure}
    (h : x a = .error e a') : (x >>= f) a = .error e a' := by
  simp only [bind, EStateM.bind, h]

theorem get_eq (a : Assembly α R) : (get : Step α R (Assembly α R)) a = .ok a a := rfl

theorem ofExcept_ok (b : β) (a : Assembly α R) : (ofExcept (.ok b) : Step α R β) a = .ok b a :=
  rfl

theorem ofExcept_error (f : Failure) (a : Assembly α R) :
    (ofExcept (.error f) : Step α R β) a = .error f a := rfl

def emit (a : Assembly α R) (entries : List (Entry (Component α))) : Assembly α R :=
  { a with network := { a.network with entries := a.network.entries ++ entries } }

theorem emit_emit (a : Assembly α R) (es fs : List (Entry (Component α))) :
    (a.emit es).emit fs = a.emit (es ++ fs) := by
  simp [emit]

theorem emit_nil (a : Assembly α R) : a.emit [] = a := by
  simp [emit]

def synced (a : Assembly α R) : Assembly α R :=
  { a with network := { a.network with width := a.supply.width } }

theorem sync_eq {a : Assembly α R} (h : a.network.width ≤ a.supply.width) :
    sync a = .ok () a.synced := by
  have hg : a.network.grow a.supply.width =
      .ok { a.network with width := a.supply.width } := by
    unfold Network.grow
    rw [if_neg (by omega)]
    rfl
  unfold sync
  rw [bind_of_ok (get_eq a), hg]
  rfl

theorem change_eq {a : Assembly α R} {f : Network α → Except Failure (Network α)} {n : Network α}
    (hw : a.network.width = a.supply.width) (hf : f a.network = .ok n) :
    change f a = .ok () { a with network := n } := by
  unfold change
  rw [bind_of_ok (get_eq a), if_neg (not_not.mpr hw), hf]
  rfl

end Sequencing

section Steps

variable {α R : Type}

theorem record_eq [Quantity R] (f : Fragment α R) (operands : List ModePair) (modes : List Int)
    (a : Assembly α R) :
    record f operands modes a = .ok () { a with ledger := a.ledger.record f operands modes } :=
  rfl

variable [Element α]

theorem add_eq {a : Assembly α R} (offset : Nat) {c : Component α}
    (hw : a.network.width = a.supply.width) (hfit : offset + c.width ≤ a.supply.width) :
    add offset (some c) a = .ok () (a.emit [⟨offset, c⟩]) :=
  change_eq hw (Network.add_of_fits (hfit.trans_eq hw.symm))

theorem addPermutation_eq {a : Assembly α R} {p : Permutation}
    (hw : a.network.width = a.supply.width) (hp : p.width = a.supply.width) :
    addPermutation p a = .ok () (a.emit (permutationEntries a.keepIdentity p)) := by
  unfold addPermutation permutationEntries
  rw [bind_of_ok (get_eq a)]
  by_cases h : (p.isIdentity && !a.keepIdentity) = true
  · rw [if_pos h, if_pos h, emit_nil]
    rfl
  · rw [if_neg h, if_neg h]
    exact add_eq 0 hw (by simp [Component.width, hp])

theorem addFolded_eq {a : Assembly α R} {p : Permutation}
    (hw : a.network.width = a.supply.width) (hp : p.width = a.supply.width) :
    addFolded p a = .ok () (a.emit (foldedEntries a.keepIdentity p)) := by
  unfold addFolded foldedEntries
  cases ht : p.trim with
  | none => exact addPermutation_eq hw hp
  | some core =>
    obtain ⟨offset, core⟩ := core
    have hfit := (Permutation.trim_eq_some ht).1
    rw [hp] at hfit
    exact add_eq offset hw hfit

end Steps

section Placing

variable {α R : Type} [Quantity R]

def booked (a : Assembly α R) (p : Placement α R) : Assembly α R :=
  { a.synced with
    ledger := a.ledger.record p.fragment p.operands (p.newModes.map Int.ofNat) }

def after (a : Assembly α R) (p : Placement α R) (entries : List (Entry (Component α))) :
    Assembly α R :=
  { supply := { a.supply with width := p.stop }
    network := { a.network with width := p.stop, entries := a.network.entries ++ entries }
    ledger := a.ledger.record p.fragment p.operands (p.newModes.map Int.ofNat)
    keepIdentity := a.keepIdentity }

theorem booked_emit {a : Assembly α R} {p : Placement α R} (hs : a.supply.width = p.stop)
    (entries : List (Entry (Component α))) : (a.booked p).emit entries = a.after p entries := by
  obtain ⟨⟨qubits, width⟩, network, ledger, keep⟩ := a
  obtain rfl : width = p.stop := hs
  rfl

variable {p : Placement α R} {n : Nat} {a : Assembly α R} {kind : String}

theorem circuitOf_eq (hp : p.Sound n) :
    circuitOf (p.resolved kind).fragment a = .ok p.circuit a := by
  unfold circuitOf
  rw [show (p.resolved kind).fragment.circuit = some p.circuit from hp.valid.circuit]
  rfl

variable [Element α]

theorem placeFragment_direct (hp : p.Sound n) (hw : a.network.width ≤ p.stop)
    (hs : a.supply.width = p.stop) (hd : p.isDirect = true) {q : Nat} (hq : p.qubits = [q]) :
    placeFragment (p.resolved kind) a =
      .ok () (a.after p [⟨2 * q, p.circuit.toComponent⟩]) := by
  obtain ⟨_, _, hanc, _, hcw⟩ := hp.direct hd
  have hfit : 2 * q + p.circuit.toComponent.width ≤ a.supply.width := by
    have := hp.two_mul_lt q (by rw [hq]; exact List.mem_cons_self)
    have hstop : p.base ≤ p.stop := Nat.le_add_right _ _
    change 2 * q + p.circuit.width ≤ _
    omega
  have hoff : ((p.resolved kind).operands.headD ⟨0, 1⟩).zero = ((2 * q : Nat) : Int) := by
    simp only [Placement.resolved, Placement.operands, hq, List.map_cons, List.headD_cons]
    rfl
  have hmodes : p.newModes = [] := by
    simp [Placement.newModes, hanc]
  have hbook : record (p.resolved kind).fragment (p.resolved kind).operands [] a.synced =
      .ok () (a.booked p) := by
    rw [record_eq, booked, hmodes]
    rfl
  unfold placeFragment
  rw [bind_of_ok (sync_eq (by rw [hs]; exact hw)), bind_of_ok (circuitOf_eq hp),
    hp.isDirect_resolved, if_pos hd, bind_of_ok hbook, hoff, ← booked_emit hs]
  exact add_eq (2 * q) rfl hfit

def emission (r : Route) (p : Placement α R) : Step α R Unit := do
  match ← ofExcept (r.fold p.stop p.fragment) with
  | some folded => addFolded folded
  | none =>
    addPermutation r.forward
    add r.start (some p.circuit.toComponent)
    addPermutation r.inverse

def routing (p : Placement α R) : Step α R Unit := do
  let r ← ofExcept (storedRoute p.stop (p.block.map Int.ofNat))
  record p.fragment p.operands (railsOf p.newPairs)
  emission r p

theorem placeFragment_routing (kind : String) (hp : p.Sound n) (hw : a.network.width ≤ p.stop)
    (hs : a.supply.width = p.stop) (hd : p.isDirect = false)
    (hwidth : p.fragment.width ≤ Storage.limit) :
    placeFragment (p.resolved kind) a = routing p a.synced := by
  have hblock : fragmentBlock (p.resolved kind).fragment (p.resolved kind).operands
      (p.resolved kind).ancillas = .ok (p.block.map Int.ofNat) :=
    hp.valid.fragmentBlock_eq hp.length_qubits hwidth ⟨0, p.base⟩ rfl
  have hlen : ¬ (p.resolved kind).fragment.width ≠ (p.block.map Int.ofNat).length := by
    rw [List.length_map, hp.isBlock.length_eq]
    exact not_not.mpr rfl
  unfold placeFragment
  rw [bind_of_ok (sync_eq (by rw [hs]; exact hw)), bind_of_ok (circuitOf_eq hp),
    hp.isDirect_resolved, hd, if_neg (by simp), hblock, bind_of_ok (ofExcept_ok ..), if_neg hlen,
    bind_of_ok (get_eq ..)]
  simp only [show a.synced.supply.width = p.stop from hs]
  rfl

theorem placeFragment_routed (kind : String) (hp : p.Sound n) (hw : a.network.width ≤ p.stop)
    (hs : a.supply.width = p.stop) (hd : p.isDirect = false) (ho : ¬ p.Overruns) {r : Route}
    (hr : planRoute p.stop (p.block.map Int.ofNat) = .ok r) :
    placeFragment (p.resolved kind) a = emission r p (a.booked p) := by
  have hbook : record p.fragment p.operands (railsOf p.newPairs) a.synced =
      .ok () (a.booked p) := by
    rw [record_eq, booked, hp.railsOf_newPairs]
    rfl
  rw [placeFragment_routing kind hp hw hs hd (Placement.width_le_limit ho hd), routing,
    storedRoute_of_le (Placement.stop_le_limit ho hd), hr, bind_of_ok (ofExcept_ok ..),
    bind_of_ok hbook]

theorem emission_folded {r : Route} {whole : Permutation} (hs : a.supply.width = p.stop)
    (hfold : r.fold p.stop p.fragment = .ok (some whole)) (hwidth : whole.width = p.stop) :
    emission r p (a.booked p) = .ok () (a.after p (foldedEntries a.keepIdentity whole)) := by
  unfold emission
  rw [hfold, bind_of_ok (ofExcept_ok ..), ← booked_emit hs]
  exact addFolded_eq rfl (hwidth.trans hs.symm)

theorem emission_conjugated {r : Route} (hp : p.Sound n) (hs : a.supply.width = p.stop)
    (hr : r.Carries p.stop p.block) (hi : p.fragment.asPermutation = .ok none) :
    emission r p (a.booked p) =
      .ok () (a.after p (permutationEntries a.keepIdentity r.forward ++
        [⟨r.start, p.circuit.toComponent⟩] ++ permutationEntries a.keepIdentity r.inverse)) := by
  have hfit : r.start + p.circuit.toComponent.width ≤ a.supply.width := by
    rw [hs, show p.circuit.toComponent.width = p.circuit.width from rfl, ← hp.length_block]
    exact hr.start_add_le
  have hforward : r.forward.width = a.supply.width := hr.width_forward.trans hs.symm
  have hinverse : r.inverse.width = a.supply.width := by
    rw [hr.inverse_eq, Permutation.width_inverse, hforward]
  unfold emission
  rw [Route.fold_of_none _ hi, bind_of_ok (ofExcept_ok ..), ← booked_emit hs, ← emit_emit,
    ← emit_emit]
  change (addPermutation r.forward >>= _) (a.booked p) = _
  have hin := addPermutation_eq (a := a.booked p) rfl hforward
  have hat := add_eq
    (a := (a.booked p).emit (permutationEntries (a.booked p).keepIdentity r.forward)) r.start rfl
    hfit
  rw [bind_of_ok hin, bind_of_ok hat]
  exact addPermutation_eq rfl hinverse

/-- Placing a fragment that does not overrun adds the entries of its placement. -/
theorem placeFragment_eq (kind : String) (hp : p.Sound n) (hw : a.network.width ≤ p.stop)
    (hs : a.supply.width = p.stop) (ho : ¬ p.Overruns) :
    placeFragment (p.resolved kind) a = .ok () (a.after p (p.entries a.keepIdentity)) := by
  cases hp.course ho with
  | direct hd hq _ hentries =>
    rw [hentries]
    exact placeFragment_direct hp hw hs hd hq
  | folded hd hr _ _ hfold hwidth _ hentries =>
    rw [hentries, placeFragment_routed kind hp hw hs hd ho hr]
    exact emission_folded hs hfold hwidth
  | routed hd hr hcarries hi hentries =>
    rw [hentries, placeFragment_routed kind hp hw hs hd ho hr]
    exact emission_conjugated hp hs hcarries hi

theorem placeFragment_wide (kind : String) (hp : p.Sound n) (hw : a.network.width ≤ p.stop)
    (hs : a.supply.width = p.stop) (hd : p.isDirect = false)
    (hwidth : ¬ p.fragment.width ≤ Storage.limit) :
    ∃ b, placeFragment (p.resolved kind) a = .error (.overrun .allocation) b := by
  have hr : Storage.reserve p.fragment.width 1 = .error (.overrun .allocation) :=
    Storage.reserve_eq_error (by omega)
  have hblock : fragmentBlock (p.resolved kind).fragment (p.resolved kind).operands
      (p.resolved kind).ancillas = .error (.overrun .allocation) := by
    unfold fragmentBlock Fragment.ancillaPositions
    rw [show (p.resolved kind).fragment = p.fragment from rfl, hr]
    rfl
  unfold placeFragment
  rw [bind_of_ok (sync_eq (by rw [hs]; exact hw)), bind_of_ok (circuitOf_eq hp),
    hp.isDirect_resolved, hd, if_neg (by simp), hblock, bind_of_error (ofExcept_error ..)]
  exact ⟨_, rfl⟩

theorem placeFragment_overrun (kind : String) (hp : p.Sound n) (hw : a.network.width ≤ p.stop)
    (hs : a.supply.width = p.stop) (ho : p.Overruns)
    (hpairs : p.fragment.ancillaPairs * 16 ≤ Storage.limit) :
    ∃ b, placeFragment (p.resolved kind) a = .error p.overrun b := by
  rcases ho with h | ⟨hd, ho⟩
  · exact absurd h (Nat.not_lt.mpr hpairs)
  by_cases hwidth : p.fragment.width ≤ Storage.limit
  · obtain ⟨r, hr, _⟩ := planRoute_eq hp.block_ne_nil hp.block_nodup hp.block_lt
    rw [placeFragment_routing kind hp hw hs hd hwidth, routing]
    by_cases hstop : p.stop * 8 ≤ Storage.limit
    · obtain ⟨f, hf⟩ :=
        (ho.resolve_left (Nat.not_lt.mpr hwidth)).resolve_left (Nat.not_lt.mpr hstop)
      rw [storedRoute_of_le hstop, hr, bind_of_ok (ofExcept_ok ..), bind_of_ok (record_eq ..),
        emission, Route.fold_of_error _ hf, bind_of_error (ofExcept_error ..), Placement.overrun,
        if_pos ⟨hpairs, hwidth, hstop⟩, hf]
      exact ⟨_, rfl⟩
    · rw [storedRoute_overrun hr (Nat.not_le.mp hstop), bind_of_error (ofExcept_error ..),
        Placement.overrun, if_neg fun h => hstop h.2.2]
      exact ⟨_, rfl⟩
  · rw [Placement.overrun, if_neg fun h => hwidth h.2.1]
    exact placeFragment_wide kind hp hw hs hd hwidth

end Placing

end Assembly

end DualRail
