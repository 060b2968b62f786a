import DualRail.Proofs.BuiltRegistry
import DualRail.Proofs.Construction

/-!
Layouts: where every gate of a program goes. A good gate resolves to a fragment and determines its
placement from the first free mode on; a layout lists the placements of good gates one after the
other. Compiling one gate either carries out its placement, or is refused for the reason its kind,
operands or parameters give, or overruns; compiling a list of gates follows from that gate by gate.
-/

namespace DualRail

variable {α R : Type} [Quantity R]

structure OperandsFit (n : Nat) (e : GateEntry α R) (g : Gate R) : Prop where
  arity : (g.qubits.length : Int) = e.arity
  nodup : g.qubits.Nodup
  inside : ∀ q ∈ g.qubits, 0 ≤ q ∧ q < n

def fragmentFor (s : Settings α R) (e : GateEntry α R) (g : Gate R) :
    Except Failure (Fragment α R) :=
  s.registry.lookup e.kind ⟨s.heralded, g.params⟩

/-- The gate resolves to a fragment: its kind is known, its operands fit, and the lookup of the
canonical kind succeeds. -/
def GoodGate (s : Settings α R) (n : Nat) (g : Gate R) (f : Fragment α R) : Prop :=
  ∃ e, s.registry.find? g.kind = some e ∧ OperandsFit n e g ∧ fragmentFor s e g = .ok f

inductive Refuses (s : Settings α R) (n : Nat) (g : Gate R) : Failure → Prop where
  | unknown : s.registry.find? g.kind = none →
      Refuses s n g (.of .unsupportedGate [.gateName g.kind])
  | operands {e : GateEntry α R} (notes : List Note) : s.registry.find? g.kind = some e →
      ¬ OperandsFit n e g → (∀ note ∈ notes, ∀ c, note ≠ .because c) →
      Refuses s n g (.of .invalidOperand notes)
  | parameters {e : GateEntry α R} {f : Failure} : s.registry.find? g.kind = some e →
      OperandsFit n e g → fragmentFor s e g = .error f → f.wraps .parameterCount = true →
      Refuses s n g (f.noted (.because .invalidOperand))
  | fragment {e : GateEntry α R} {f : Failure} : s.registry.find? g.kind = some e →
      OperandsFit n e g → fragmentFor s e g = .error f → f.wraps .parameterCount = false →
      Refuses s n g f

/-- The placement of a good gate whose new modes start at `base`. -/
structure Lays (s : Settings α R) (n base : Nat) (g : Gate R) (p : Placement α R) : Prop where
  good : GoodGate s n g p.fragment
  circuit : p.fragment.circuit = some p.circuit
  qubits : p.qubits = g.qubits.map Int.toNat
  base : p.base = base

/-- The placements of the gates, one after the other. -/
inductive LaysOut (s : Settings α R) (n : Nat) :
    Nat → List (Gate R) → List (Placement α R) → Prop where
  | nil {base : Nat} : LaysOut s n base [] []
  | cons {base : Nat} {g : Gate R} {gs : List (Gate R)} {p : Placement α R}
      {ps : List (Placement α R)} : Lays s n base g p → LaysOut s n p.stop gs ps →
      LaysOut s n base (g :: gs) (p :: ps)

section Operands

omit [Quantity R]

variable {n : Nat} {e : GateEntry α R} {g : Gate R}

theorem checkOperandsFrom_of_distinct {earlier qubits : List Int}
    (hin : ∀ q ∈ qubits, 0 ≤ q ∧ q < n ∧ q ∉ earlier) (hnd : qubits.Nodup) :
    checkOperandsFrom n earlier qubits = .ok () := by
  induction qubits generalizing earlier with
  | nil => rfl
  | cons q rest ih =>
    obtain ⟨h₁, h₂, h₃⟩ := hin q List.mem_cons_self
    obtain ⟨hq, hrest⟩ := List.nodup_cons.mp hnd
    rw [checkOperandsFrom, if_neg (by simp; omega), if_neg (by simpa using h₃)]
    refine ih (fun x hx => ?_) hrest
    obtain ⟨h₁, h₂, h₃⟩ := hin x (List.mem_cons_of_mem _ hx)
    refine ⟨h₁, h₂, fun hm => ?_⟩
    rcases List.mem_cons.mp hm with rfl | hm
    · exact hq hx
    · exact h₃ hm

theorem checkOperandsFrom_eq_error {n : Int} {earlier qubits : List Int} {f : Failure}
    (h : checkOperandsFrom n earlier qubits = .error f) :
    ∃ notes, f = .of .invalidOperand notes ∧ ∀ note ∈ notes, ∀ c, note ≠ .because c := by
  induction qubits generalizing earlier with
  | nil => cases h
  | cons q rest ih =>
    rw [checkOperandsFrom] at h
    split at h
    · exact ⟨_, (Except.error.inj h).symm, by simp⟩
    · split at h
      · exact ⟨_, (Except.error.inj h).symm, by simp⟩
      · exact ih h

theorem checkOperands_eq_ok : checkOperands g.qubits e.arity n = .ok () ↔ OperandsFit n e g := by
  unfold checkOperands
  constructor
  · intro h
    split at h
    · cases h
    · rename_i harity
      obtain ⟨hin, hnd⟩ := checkOperandsFrom_eq_ok h
      exact ⟨not_not.mp harity, hnd, fun q hq => ⟨(hin q hq).1, (hin q hq).2.1⟩⟩
  · intro h
    rw [if_neg (not_not.mpr h.arity)]
    refine checkOperandsFrom_of_distinct (fun q hq => ?_) h.nodup
    exact ⟨(h.inside q hq).1, (h.inside q hq).2, List.not_mem_nil⟩

theorem checkOperands_eq_error {f : Failure} (h : checkOperands g.qubits e.arity n = .error f) :
    ¬ OperandsFit n e g ∧
      ∃ notes, f = .of .invalidOperand notes ∧ ∀ note ∈ notes, ∀ c, note ≠ .because c := by
  refine ⟨fun hfit => ?_, ?_⟩
  · rw [checkOperands_eq_ok.mpr hfit] at h
    cases h
  · unfold checkOperands at h
    split at h
    · exact ⟨_, (Except.error.inj h).symm, by simp⟩
    · exact checkOperandsFrom_eq_error h

end Operands

section Good

variable {s : Settings α R} {n base : Nat} {g : Gate R} {p : Placement α R}

theorem goodGate_of_entry (hr : s.registry.Built) {e : GateEntry α R}
    (he : e ∈ s.registry.entries) (hname : canonicalName g.kind ∈ e.names)
    (hfit : OperandsFit n e g) (hparams : (g.params.length : Int) = e.params)
    {build : Request R → Except Failure (Fragment α R)} (hbuild : e.build = some build)
    {f : Fragment α R} (hf : build ⟨s.heralded, g.params⟩ = .ok f)
    (hvalid : f.validate e.arity = .ok ()) : GoodGate s n g f := by
  refine ⟨e, Registry.find?_of_mem he hname, hfit, ?_⟩
  rw [fragmentFor, hr.lookup_kind he]
  exact Registry.buildFragment_eq_ok.mpr ⟨hparams, build, hbuild, hf, hvalid⟩

theorem GoodGate.lays {f : Fragment α R} (hr : s.registry.Built) (h : GoodGate s n g f)
    (base : Nat) : ∃ p, Lays s n base g p ∧ p.fragment = f := by
  obtain ⟨e, he, hfit, hf⟩ := id h
  have hbuild := hf
  rw [fragmentFor, hr.lookup_kind (Registry.find?_eq_some he).1] at hbuild
  obtain ⟨c, hvalid, _⟩ := Registry.valid_of_buildFragment hbuild
  exact ⟨⟨f, c, g.qubits.map Int.toNat, base⟩, ⟨h, hvalid.circuit, rfl, rfl⟩, rfl⟩

theorem Lays.sound (hr : s.registry.Built) (h : Lays s n base g p) (hb : 2 * n ≤ base) :
    p.Sound n := by
  obtain ⟨e, he, hfit, hf⟩ := h.good
  have hmem := (Registry.find?_eq_some he).1
  rw [fragmentFor, hr.lookup_kind hmem] at hf
  obtain ⟨c, hvalid, harity⟩ := Registry.valid_of_buildFragment hf
  obtain rfl : c = p.circuit := Option.some.inj (hvalid.circuit.symm.trans h.circuit)
  have hlen : p.qubits.length = g.qubits.length := by
    rw [h.qubits, List.length_map]
  have hpos := hr.arity_pos hmem
  have hcount := hfit.arity
  refine ⟨hvalid, by omega, ?_, ?_, ?_, by rw [h.base]; exact hb⟩
  · intro hnil
    rw [hnil, List.length_nil] at hlen
    omega
  · rw [h.qubits]
    refine List.Nodup.map_on (fun x hx y hy hxy => ?_) hfit.nodup
    have := hfit.inside x hx
    have := hfit.inside y hy
    omega
  · intro q hq
    rw [h.qubits] at hq
    obtain ⟨x, hx, rfl⟩ := List.mem_map.mp hq
    have := hfit.inside x hx
    omega

theorem Lays.le_stop (h : Lays s n base g p) : base ≤ p.stop := by
  rw [← h.base]
  exact Nat.le_add_right _ _

theorem Lays.operands_eq (h : Lays s n base g p) :
    (g.qubits.map fun q => ModeSupply.qubit q.toNat) = p.operands := by
  rw [Placement.operands, h.qubits, List.map_map]
  rfl

end Good

namespace Assembly

def handedOut (a : Assembly α R) (width : Nat) : Assembly α R :=
  { a with supply := { a.supply with width } }

variable {s : Settings α R} {n : Nat} {g : Gate R} {p : Placement α R} {a : Assembly α R}

theorem fragmentOf_ok {kind : String} {req : Request R} {f : Fragment α R}
    (h : s.registry.lookup kind req = .ok f) : fragmentOf s.registry kind req = .ok f := by
  unfold fragmentOf
  rw [h]

theorem fragmentOf_error {kind : String} {req : Request R} {f : Failure}
    (h : s.registry.lookup kind req = .error f) :
    fragmentOf s.registry kind req =
      if f.wraps .parameterCount then .error (f.noted (.because .invalidOperand))
      else .error f := by
  unfold fragmentOf
  rw [h]

omit [Quantity R] in
theorem allocate_eq {pairs : Nat} (h : pairs * 16 ≤ Storage.limit) :
    allocate pairs a =
      .ok (a.supply.pairsFrom pairs) (a.handedOut (a.supply.width + 2 * pairs)) := by
  have hs : a.supply.allocate pairs = .ok (a.supply.pairsFrom pairs, a.supply.advance pairs) := by
    unfold ModeSupply.allocate
    rw [Int.toNat_natCast, Storage.reserve_of_le h]
    rfl
  unfold allocate
  rw [bind_of_ok (get_eq a), hs]
  rfl

omit [Quantity R] in
theorem allocate_overrun {pairs : Nat} (h : Storage.limit < pairs * 16) :
    allocate pairs a = .error (.overrun .allocation) a := by
  have hs : a.supply.allocate pairs = .error (.overrun .allocation) := by
    unfold ModeSupply.allocate
    rw [Int.toNat_natCast, Storage.reserve_eq_error h]
    rfl
  unfold allocate
  rw [bind_of_ok (get_eq a), hs]
  rfl

def allotment (e : GateEntry α R) (g : Gate R) (f : Fragment α R) :
    Step α R (ResolvedGate α R) := do
  let ancillas ← allocate f.ancillaPairs
  return { kind := e.kind, fragment := f, ancillas
           operands := g.qubits.map fun q => ModeSupply.qubit q.toNat }

theorem resolve_of_find? {e : GateEntry α R} (hn : a.supply.qubits = n)
    (he : s.registry.find? g.kind = some e) :
    resolve s.registry s.heralded g a =
      (do
        ofExcept (checkOperands g.qubits e.arity n)
        let f ← ofExcept (fragmentOf s.registry e.kind ⟨s.heralded, g.params⟩)
        allotment e g f : Step α R (ResolvedGate α R)) a := by
  unfold resolve
  rw [he]
  simp only
  rw [bind_of_ok (get_eq a), hn]
  rfl

theorem resolve_eq {e : GateEntry α R} {f : Fragment α R} (hn : a.supply.qubits = n)
    (he : s.registry.find? g.kind = some e) (hfit : OperandsFit n e g)
    (hf : fragmentFor s e g = .ok f) : resolve s.registry s.heralded g a = allotment e g f a := by
  rw [resolve_of_find? hn he, checkOperands_eq_ok.mpr hfit, bind_of_ok (ofExcept_ok ..),
    fragmentOf_ok hf, bind_of_ok (ofExcept_ok ..)]

/-- A gate that does not resolve is refused, in every construction for as many qubits alike. -/
theorem resolve_refuses (hbad : ¬ ∃ f, GoodGate s n g f) :
    ∃ f, Refuses s n g f ∧ ∀ a : Assembly α R, a.supply.qubits = n →
      resolve s.registry s.heralded g a = .error f a := by
  cases he : s.registry.find? g.kind with
  | none =>
    refine ⟨_, .unknown he, fun a _ => ?_⟩
    unfold resolve
    rw [he]
    rfl
  | some e =>
    cases hops : checkOperands g.qubits e.arity n with
    | error f =>
      obtain ⟨hmis, notes, rfl, hnotes⟩ := checkOperands_eq_error hops
      refine ⟨_, .operands notes he hmis hnotes, fun a hn => ?_⟩
      rw [resolve_of_find? hn he, hops]
      exact bind_of_error (ofExcept_error ..)
    | ok u =>
      have hfit : OperandsFit n e g := checkOperands_eq_ok.mp hops
      cases hf : fragmentFor s e g with
      | ok f => exact absurd ⟨f, e, he, hfit, hf⟩ hbad
      | error f =>
        have hlookup := fragmentOf_error hf
        cases hw : f.wraps .parameterCount with
        | true =>
          rw [hw, if_pos rfl] at hlookup
          refine ⟨_, .parameters he hfit hf hw, fun a hn => ?_⟩
          rw [resolve_of_find? hn he, hops, bind_of_ok (ofExcept_ok ..), hlookup]
          exact bind_of_error (ofExcept_error ..)
        | false =>
          rw [hw, if_neg Bool.false_ne_true] at hlookup
          refine ⟨_, .fragment he hfit hf hw, fun a hn => ?_⟩
          rw [resolve_of_find? hn he, hops, bind_of_ok (ofExcept_ok ..), hlookup]
          exact bind_of_error (ofExcept_error ..)

structure Aligned (n : Nat) (a : Assembly α R) : Prop where
  qubits : a.supply.qubits = n
  width : a.network.width = a.supply.width
  le_width : 2 * n ≤ a.supply.width

theorem allotment_eq {e : GateEntry α R} {base : Nat} (h : Lays s n base g p)
    (hsound : p.Sound n) (hbase : a.supply.width = base)
    (hp : p.fragment.ancillaPairs * 16 ≤ Storage.limit) :
    allotment e g p.fragment a = .ok (p.resolved e.kind) (a.handedOut p.stop) := by
  unfold allotment
  rw [bind_of_ok (allocate_eq hp), h.operands_eq, hsound.two_mul_ancillaPairs, hbase, ← h.base]
  have hpairs : a.supply.pairsFrom p.fragment.ancillaPairs = p.newPairs := by
    unfold ModeSupply.pairsFrom Placement.newPairs
    rw [hbase, h.base]
  rw [hpairs]
  rfl

theorem aligned_after (ha : a.Aligned n) (hb : p.base = a.supply.width)
    (entries : List (Entry (Component α))) : (a.after p entries).Aligned n := by
  refine ⟨ha.qubits, rfl, ?_⟩
  have := ha.le_width
  change 2 * n ≤ p.base + p.fragment.ancillas.length
  omega

variable [Element α]

theorem compileGate_eq (hr : s.registry.Built) (ha : a.Aligned n)
    (h : Lays s n a.supply.width g p) (ho : ¬ p.Overruns) :
    ∃ kind, compileGate s g a =
      .ok (kind, p.fragment.ancillaPairs) (a.after p (p.entries a.keepIdentity)) := by
  have hsound := h.sound hr ha.le_width
  obtain ⟨e, he, hfit, hf⟩ := h.good
  have hpairs : p.fragment.ancillaPairs * 16 ≤ Storage.limit :=
    Nat.not_lt.mp fun hlt => ho (.inl hlt)
  have hw : (a.handedOut p.stop).network.width ≤ p.stop := ha.width.trans_le h.le_stop
  have hres := resolve_eq ha.qubits he hfit hf
  have hlen : (p.resolved e.kind).ancillas.length = p.fragment.ancillaPairs := by
    simp [Placement.resolved, Placement.newPairs]
  refine ⟨e.kind, ?_⟩
  unfold compileGate
  rw [bind_of_ok (hres.trans (allotment_eq h hsound rfl hpairs)),
    bind_of_ok (placeFragment_eq e.kind hsound hw rfl ho), ← hlen]
  rfl

theorem compileGate_overrun (hr : s.registry.Built) (ha : a.Aligned n)
    (h : Lays s n a.supply.width g p) (ho : p.Overruns) :
    ∃ b, compileGate s g a = .error p.overrun b := by
  have hsound := h.sound hr ha.le_width
  obtain ⟨e, he, hfit, hf⟩ := h.good
  have hres := resolve_eq ha.qubits he hfit hf
  unfold compileGate
  by_cases hpairs : p.fragment.ancillaPairs * 16 ≤ Storage.limit
  · have hw : (a.handedOut p.stop).network.width ≤ p.stop := ha.width.trans_le h.le_stop
    obtain ⟨b, hplace⟩ := placeFragment_overrun e.kind hsound hw rfl ho hpairs
    rw [bind_of_ok (hres.trans (allotment_eq h hsound rfl hpairs)), bind_of_error hplace]
    exact ⟨b, rfl⟩
  · have halloc : allotment e g p.fragment a = .error (.overrun .allocation) a := by
      unfold allotment
      rw [bind_of_error (allocate_overrun (Nat.not_le.mp hpairs))]
    rw [bind_of_error (hres.trans halloc), Placement.overrun, if_neg fun h => hpairs h.1]
    exact ⟨a, rfl⟩

theorem compileGate_refuses (hbad : ¬ ∃ f, GoodGate s n g f) :
    ∃ f, Refuses s n g f ∧ ∀ a : Assembly α R, a.supply.qubits = n →
      compileGate s g a = .error f a := by
  obtain ⟨f, href, hres⟩ := resolve_refuses hbad
  refine ⟨f, href, fun a hn => ?_⟩
  unfold compileGate
  rw [bind_of_error (hres a hn)]

end Assembly

/-- The first mode after those of the placements. -/
def endOf (base : Nat) (ps : List (Placement α R)) : Nat :=
  base + (ps.map fun p => p.fragment.ancillas.length).sum

theorem endOf_cons {s : Settings α R} {n base : Nat} {g : Gate R} {p : Placement α R}
    (h : Lays s n base g p) (ps : List (Placement α R)) :
    endOf p.stop ps = endOf base (p :: ps) := by
  simp only [endOf, Placement.stop, h.base, List.map_cons, List.sum_cons]
  omega

def Ledger.recordAll (l : Ledger R) (ps : List (Placement α R)) : Ledger R :=
  ps.foldl (fun l p => l.record p.fragment p.operands (p.newModes.map Int.ofNat)) l

def Assembly.afterAll (a : Assembly α R) (ps : List (Placement α R))
    (entries : List (Entry (Component α))) : Assembly α R :=
  { supply := { a.supply with width := endOf a.supply.width ps }
    network := { a.network with
      width := endOf a.supply.width ps
      entries := a.network.entries ++ entries }
    ledger := a.ledger.recordAll ps
    keepIdentity := a.keepIdentity }

section Run

variable {s : Settings α R} {n : Nat} {a : Assembly α R} {gs : List (Gate R)}
  {ps : List (Placement α R)}

theorem Assembly.aligned_afterAll (ha : a.Aligned n) (ps : List (Placement α R))
    (entries : List (Entry (Component α))) : (a.afterAll ps entries).Aligned n := by
  refine ⟨ha.qubits, rfl, ?_⟩
  have := ha.le_width
  change 2 * n ≤ a.supply.width + _
  omega

theorem Assembly.afterAll_nil (ha : a.Aligned n) : a.afterAll [] [] = a := by
  obtain ⟨⟨qubits, width⟩, ⟨name, m, entries⟩, ledger, keep⟩ := a
  obtain rfl : m = width := ha.width
  simp [afterAll, endOf, Ledger.recordAll]

theorem Assembly.afterAll_cons {p : Placement α R} (hb : p.base = a.supply.width)
    (es fs : List (Entry (Component α))) :
    (a.after p es).afterAll ps fs = a.afterAll (p :: ps) (es ++ fs) := by
  have hend : endOf p.stop ps = endOf a.supply.width (p :: ps) := by
    simp only [endOf, Placement.stop, hb, List.map_cons, List.sum_cons]
    omega
  simp only [afterAll, after, hend, List.append_assoc]
  rfl

theorem LaysOut.sound {base : Nat} (hr : s.registry.Built) (h : LaysOut s n base gs ps)
    (hb : 2 * n ≤ base) : ∀ p ∈ ps, p.Sound n := by
  induction h with
  | nil =>
    intro p hp
    cases hp
  | cons hlay _ ih =>
    intro p hp
    rcases List.mem_cons.mp hp with rfl | hp
    · exact hlay.sound hr hb
    · exact ih (hb.trans hlay.le_stop) p hp

theorem LaysOut.exists_lays {base : Nat} (h : LaysOut s n base gs ps) :
    ∀ p ∈ ps, ∃ g ∈ gs, ∃ base, Lays s n base g p := by
  induction h with
  | nil => exact fun p hp => nomatch hp
  | @cons base g gs p ps hlay _ ih =>
    refine List.forall_mem_cons.mpr ⟨⟨g, List.mem_cons_self, base, hlay⟩, fun q hq => ?_⟩
    obtain ⟨g', hg', hlays⟩ := ih q hq
    exact ⟨g', List.mem_cons_of_mem _ hg', hlays⟩

theorem LaysOut.length_eq {base : Nat} (h : LaysOut s n base gs ps) : gs.length = ps.length := by
  induction h with
  | nil => rfl
  | cons _ _ ih => rw [List.length_cons, List.length_cons, ih]

theorem GoodGate.unique {g : Gate R} {f f' : Fragment α R} (h : GoodGate s n g f)
    (h' : GoodGate s n g f') : f = f' := by
  obtain ⟨e, he, _, hf⟩ := h
  obtain ⟨e', he', _, hf'⟩ := h'
  obtain rfl := Option.some.inj (he.symm.trans he')
  exact Except.ok.inj (hf.symm.trans hf')

theorem Lays.unique {base : Nat} {g : Gate R} {p q : Placement α R} (h : Lays s n base g p)
    (h' : Lays s n base g q) : p = q := by
  obtain ⟨f, c, qubits, base⟩ := p
  obtain ⟨f', c', qubits', base'⟩ := q
  obtain rfl : f = f' := h.good.unique h'.good
  obtain rfl : c = c' := Option.some.inj (h.circuit.symm.trans h'.circuit)
  obtain rfl : qubits = qubits' := h.qubits.trans h'.qubits.symm
  obtain rfl : base = base' := h.base.trans h'.base.symm
  rfl

theorem LaysOut.unique {base : Nat} {qs : List (Placement α R)} (h : LaysOut s n base gs ps)
    (h' : LaysOut s n base gs qs) : ps = qs := by
  induction h generalizing qs with
  | nil =>
    cases h'
    rfl
  | cons hlay _ ih =>
    cases h' with
    | cons hlay' hrest' =>
      obtain rfl := hlay.unique hlay'
      rw [ih hrest']

theorem LaysOut.split {base : Nat} {first rest : List (Gate R)} {rs : List (Placement α R)}
    (h : LaysOut s n base (first ++ rest) rs) :
    ∃ ps qs, rs = ps ++ qs ∧ LaysOut s n base first ps ∧ LaysOut s n (endOf base ps) rest qs := by
  induction first generalizing base rs with
  | nil => exact ⟨[], rs, rfl, .nil, h⟩
  | cons g first ih =>
    cases h with
    | cons hlay hrest =>
      obtain ⟨ps, qs, rfl, hps, hqs⟩ := ih hrest
      refine ⟨_ :: ps, qs, rfl, .cons hlay hps, ?_⟩
      rw [← endOf_cons hlay]
      exact hqs

/-- The settings with another choice on identity permutations. -/
def Settings.keeping (s : Settings α R) (keep : Bool) : Settings α R :=
  { s with keepIdentity := keep }

theorem LaysOut.keeping {base : Nat} (h : LaysOut s n base gs ps) (keep : Bool) :
    LaysOut (s.keeping keep) n base gs ps := by
  induction h with
  | nil => exact .nil
  | cons hlay _ ih => exact .cons ⟨hlay.good, hlay.circuit, hlay.qubits, hlay.base⟩ ih

/-- The gate fails where its new modes would start at `base`: it does not resolve, or it does and
overruns. -/
def Stops (s : Settings α R) (n base : Nat) (g : Gate R) : Prop :=
  (¬ ∃ f, GoodGate s n g f) ∨ ∃ p, Lays s n base g p ∧ p.Overruns

/-- Either all gates can be placed, or some gate stops after placements of those before it. -/
theorem laysOut_or_stops (hr : s.registry.Built) (base : Nat) (gs : List (Gate R)) :
    (∃ ps, LaysOut s n base gs ps ∧ ∀ p ∈ ps, ¬ p.Overruns) ∨
      ∃ before g rest ps, gs = before ++ g :: rest ∧ LaysOut s n base before ps ∧
        (∀ p ∈ ps, ¬ p.Overruns) ∧ Stops s n (endOf base ps) g := by
  induction gs generalizing base with
  | nil => exact .inl ⟨[], .nil, by simp⟩
  | cons g gs ih =>
    by_cases hgood : ∃ f, GoodGate s n g f
    · obtain ⟨f, hf⟩ := hgood
      obtain ⟨p, hlay, _⟩ := hf.lays hr base
      by_cases hover : p.Overruns
      · exact .inr ⟨[], g, gs, [], rfl, .nil, by simp, .inr ⟨p, hlay, hover⟩⟩
      · rcases ih p.stop with ⟨ps, hps, ho⟩ | ⟨before, h, rest, ps, rfl, hps, ho, hstop⟩
        · exact .inl ⟨p :: ps, .cons hlay hps, List.forall_mem_cons.mpr ⟨hover, ho⟩⟩
        · refine .inr ⟨g :: before, h, rest, p :: ps, rfl, .cons hlay hps,
            List.forall_mem_cons.mpr ⟨hover, ho⟩, ?_⟩
          rw [← endOf_cons hlay]
          exact hstop
    · exact .inr ⟨[], g, gs, [], rfl, .nil, by simp, .inl hgood⟩

variable [Element α]

theorem compileGates_eq (hr : s.registry.Built) (ha : a.Aligned n)
    (h : LaysOut s n a.supply.width gs ps) (ho : ∀ p ∈ ps, ¬ p.Overruns) (index : Nat) :
    (compileGates s index gs a).result =
      .ok (a.afterAll ps (ps.flatMap (Placement.entries a.keepIdentity))) := by
  induction gs generalizing a ps index with
  | nil =>
    cases h
    exact congrArg Except.ok (Assembly.afterAll_nil ha).symm
  | cons g gs ih =>
    cases h with
    | @cons _ _ _ p ps hlay hrest =>
      obtain ⟨kind, hgate⟩ := Assembly.compileGate_eq hr ha hlay (ho p List.mem_cons_self)
      have hrun := ih (Assembly.aligned_after ha hlay.base (p.entries a.keepIdentity)) hrest
        (fun q hq => ho q (List.mem_cons_of_mem _ hq)) (index + 1)
      rw [compileGates, hgate]
      simp only
      rw [hrun, Assembly.afterAll_cons hlay.base, List.flatMap_cons]
      rfl

/-- A gate that stops fails alike in all constructions of one width: with its refusal or with an
overrun. -/
theorem Stops.compileGate_error (hr : s.registry.Built) {base : Nat} (hb : 2 * n ≤ base)
    {g : Gate R} (h : Stops s n base g) :
    ∃ f, (∀ a : Assembly α R, a.Aligned n → a.supply.width = base →
        ∃ b, compileGate s g a = .error f b) ∧
      ((¬ ∃ f, GoodGate s n g f) ∧ Refuses s n g f ∨
        (∃ p, Lays s n base g p ∧ p.Overruns) ∧ f.IsOverrun) := by
  rcases h with hbad | ⟨p, hlay, hover⟩
  · obtain ⟨f, href, hgate⟩ := Assembly.compileGate_refuses hbad
    exact ⟨f, fun a ha _ => ⟨a, hgate a ha.qubits⟩, .inl ⟨hbad, href⟩⟩
  · refine ⟨p.overrun, fun a ha hw => ?_, .inr ⟨⟨p, hlay, hover⟩, ?_⟩⟩
    · subst hw
      exact Assembly.compileGate_overrun hr ha hlay hover
    · exact (hlay.sound hr hb).isOverrun_overrun

theorem compileGates_append {b : Assembly α R} {before rest : List (Gate R)} {index : Nat}
    (h : (compileGates s index before a).result = .ok b) :
    (compileGates s index (before ++ rest) a).result =
      (compileGates s (index + before.length) rest b).result := by
  induction before generalizing a index with
  | nil =>
    obtain rfl := Except.ok.inj h
    rfl
  | cons g gs ih =>
    rw [compileGates] at h
    rw [List.cons_append, compileGates]
    cases hg : compileGate s g a with
    | error f c =>
      rw [hg] at h
      cases h
    | ok out c =>
      rw [hg] at h
      have := ih h
      simp only
      rw [this, List.length_cons, Nat.add_assoc, Nat.add_comm 1]

theorem compileGates_error {b c : Assembly α R} {before rest : List (Gate R)} {g : Gate R}
    {f : Failure} {index : Nat} (h : (compileGates s index before a).result = .ok b)
    (hg : compileGate s g b = .error f c) :
    (compileGates s index (before ++ g :: rest) a).result =
      .error (f.noted (.gate (index + before.length) g.kind)) := by
  rw [compileGates_append h, compileGates, hg]

end Run

end DualRail
