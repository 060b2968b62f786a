import DualRail.Proofs.Outcome

/-!
Programs that share their first gates. A layout is read off the gates one by one, so the processor
of a longer program goes on from the processor of a shorter one: nothing that stands in the network
moves, and the records on its modes stay. A failure at a gate is likewise decided by the gates up to
that one.
-/

namespace DualRail

variable {α R : Type} [Quantity R]

/-- The later processor has all that the earlier one has, and more only on further modes. -/
structure Processor.Extends (early late : Processor α R) : Prop where
  entries : ∃ net net' : Network α, early.network = some net ∧ late.network = some net' ∧
    net.entries <+: net'.entries
  width : early.width ≤ late.width
  sources : early.sources = late.sources.filter fun src => src.mode < (early.width : Int)
  heralds : early.heralds = late.heralds.filter fun her => her.mode < (early.width : Int)
  conditions : early.conditions ⊆ late.conditions

section Longer

variable {s : Settings α R} {n : Nat} {first rest : List (Gate R)} {ps qs : List (Placement α R)}

theorem LaysOut.le_base {base : Nat} (h : LaysOut s n base first ps) :
    ∀ p ∈ ps, base ≤ p.base := by
  intro p hp
  obtain ⟨t, ht⟩ := List.mem_iff_getElem?.mp hp
  rw [h.base_eq ht]
  exact Nat.le_add_right _ _

/-- Records below a mode, followed by records on the new modes of a layout that starts there, are
cut at that mode again. -/
theorem LaysOut.filter_below {base : Nat} (h : LaysOut s n base rest qs) {β : Type}
    {mode : β → Int} {early : List β} {records : Placement α R → List β}
    (hearly : ∀ r ∈ early, mode r < base)
    (hlate : ∀ q, ((records q).map mode).Sublist (q.newModes.map Int.ofNat)) :
    ((early ++ qs.flatMap records).filter fun r => mode r < (base : Int)) = early := by
  have hkeep : (early.filter fun r => mode r < (base : Int)) = early :=
    List.filter_eq_self.mpr fun r hr => decide_eq_true (hearly r hr)
  have hdrop : ((qs.flatMap records).filter fun r => mode r < (base : Int)) = [] := by
    refine List.filter_eq_nil_iff.mpr fun r hr => ?_
    obtain ⟨q, hq, hmem⟩ := List.mem_flatMap.mp hr
    obtain ⟨x, hx, hxr⟩ := List.mem_map.mp ((hlate q).subset (List.mem_map_of_mem hmem))
    have hbase := h.le_base q hq
    have hlow := (List.mem_range'_1.mp hx).1
    rw [← hxr, decide_eq_true_eq, Int.not_lt]
    exact Int.ofNat_le.mpr (hbase.trans hlow)
  rw [List.filter_append, hkeep, hdrop, List.append_nil]

theorem sources_append (n : Nat) (ps qs : List (Placement α R)) :
    (ledgerOf n (ps ++ qs)).sources = (ledgerOf n ps).sources ++ qs.flatMap Placement.sources := by
  rw [ledgerOf, ledgerOf, Ledger.sources_recordAll, Ledger.sources_recordAll,
    List.flatMap_append, List.append_assoc]

theorem heralds_append (n : Nat) (ps qs : List (Placement α R)) :
    (ledgerOf n (ps ++ qs)).heralds = (ledgerOf n ps).heralds ++ qs.flatMap Placement.heralds := by
  rw [ledgerOf, ledgerOf, Ledger.heralds_recordAll, Ledger.heralds_recordAll,
    List.flatMap_append, List.append_assoc]

theorem conditions_append (n : Nat) (ps qs : List (Placement α R)) :
    (ledgerOf n ps).sorted.conditions ⊆ (ledgerOf n (ps ++ qs)).sorted.conditions := by
  intro c hc
  obtain ⟨p, hp, hmem⟩ := mem_conditions_ledgerOf.mp hc
  exact mem_conditions_ledgerOf.mpr ⟨p, List.mem_append_left qs hp, hmem⟩

theorem extends_processorOf (hps : LaysOut s n (2 * n) first ps)
    (hqs : LaysOut s n (endOf (2 * n) ps) rest qs)
    (hall : LaysOut s n (2 * n) (first ++ rest) (ps ++ qs)) (heralded : Bool)
    (name name' : String) (emit : Placement α R → List (Entry (Component α))) :
    (processorOf heralded name n ps (ps.flatMap emit)).Extends
      (processorOf heralded name' n (ps ++ qs) ((ps ++ qs).flatMap emit)) where
  entries := by
    refine ⟨_, _, rfl, rfl, ?_⟩
    change ps.flatMap emit <+: (ps ++ qs).flatMap emit
    rw [List.flatMap_append]
    exact List.prefix_append _ _
  width := by
    change endOf (2 * n) ps ≤ endOf (2 * n) (ps ++ qs)
    rw [endOf, endOf, List.map_append, List.sum_append, ← Nat.add_assoc]
    exact Nat.le_add_right _ _
  sources := by
    change (ledgerOf n ps).sorted.sources = (ledgerOf n (ps ++ qs)).sorted.sources.filter _
    rw [hps.sources_sorted, hall.sources_sorted, sources_append]
    refine (hqs.filter_below (fun src hsrc => ?_) fun q => q.sublist_sources).symm
    exact ((ascending_of_sublist hps.sources_sublist).2 _ (List.mem_map_of_mem hsrc)).2
  heralds := by
    change (ledgerOf n ps).sorted.heralds = (ledgerOf n (ps ++ qs)).sorted.heralds.filter _
    rw [hps.heralds_sorted, hall.heralds_sorted, heralds_append]
    refine (hqs.filter_below (fun her hher => ?_) fun q => q.sublist_heralds).symm
    exact ((ascending_of_sublist hps.heralds_sublist).2 _ (List.mem_map_of_mem hher)).2
  conditions := conditions_append n ps qs

end Longer

section Compilations

variable [Element α] {s : Settings α R}

theorem compile_extends (hr : s.registry.Built) {first second : Program R}
    {early late : Processor α R} (hq : first.qubits = second.qubits)
    (hg : first.gates <+: second.gates) (hearly : compile s (some first) = .ok early)
    (hlate : compile s (some second) = .ok late) : early.Extends late := by
  obtain ⟨n, ps, hn, _, hps, _, rfl⟩ := (compile_ok_iff hr).mp hearly
  obtain ⟨m, rs, hm, _, hrs, _, rfl⟩ := (compile_ok_iff hr).mp hlate
  obtain rfl : n = m := Int.ofNat.inj (hn.symm.trans (hq.trans hm))
  obtain ⟨rest, hrest⟩ := hg
  have hall := hrs.laysOut
  rw [← hrest] at hall
  obtain ⟨ps', qs, rfl, hps', hqs⟩ := hall.split
  obtain rfl := hps.laysOut.unique hps'
  exact extends_processorOf hps.laysOut hqs hall _ _ _ _

omit [Element α] in
theorem gate?_of_validate {n : Nat} {gs : List (Gate R)} {ps : List (Placement α R)}
    {f : Failure} (h : Placed s n gs ps) (hs : ∀ p ∈ ps, p.Sound n) {heralded : Bool}
    {name : String} {entries : List (Entry (Component α))}
    (hf : (processorOf heralded name n ps entries).validate = .error f) : f.gate? = none := by
  rw [validate_processorOf h.laysOut hs h.storable] at hf
  split at hf
  · obtain rfl := Except.error.inj hf
    rfl
  · unfold Processor.checkProbability at hf
    split at hf
    · obtain rfl := Except.error.inj hf
      rfl
    · cases hf

/-- A failure that names a gate comes from a gate that stops, after gates that are all placed. -/
theorem stops_of_gate? (hr : s.registry.Built) {prog : Program R} {f : Failure} {i : Nat}
    {kind : String} (h : compile s (some prog) = .error f) (ho : ¬ f.IsOverrun)
    (hi : f.gate? = some (i, kind)) :
    ∃ (n : Nat) (before rest : List (Gate R)) (g : Gate R) (ps : List (Placement α R)),
      prog.qubits = n ∧ 0 < n ∧ prog.gates = before ++ g :: rest ∧ Placed s n before ps ∧
      Stops s n (endOf (2 * n) ps) g ∧ before.length = i := by
  cases exists_extent hr prog with
  | empty hq =>
    rw [compile_of_nonpos hq] at h
    obtain rfl := Except.error.inj h
    cases hi
  | large hn hpos hlarge =>
    rw [compile_of_limit_lt hn hpos hlarge] at h
    obtain rfl := Except.error.inj h
    exact absurd (Failure.isOverrun_overrun _) ho
  | placed hn hpos hplaced =>
    rw [compile_of_placed hr hn hpos hplaced] at h
    rcases bind_eq_error h with hv | ⟨_, _, hok⟩
    · rw [gate?_of_validate hplaced (hplaced.laysOut.sound hr (Nat.le_refl _)) hv] at hi
      cases hi
    · cases hok
  | @stopped n before rest g ps hn hpos hgates hplaced hstop =>
    refine ⟨n, before, rest, g, ps, hn, hpos, hgates, hplaced, hstop, ?_⟩
    obtain ⟨e, he, _⟩ :=
      compile_stops hr hn hpos hplaced.storable hgates hplaced.laysOut hplaced.fits hstop
    obtain rfl : e.noted (.gate before.length g.kind) = f := Except.error.inj (he.symm.trans h)
    have hne : ¬ e.IsOverrun := fun hover => ho (by rw [hover.noted_eq]; exact hover)
    rw [Failure.gate?_noted hne] at hi
    exact congrArg Prod.fst (Option.some.inj hi)

theorem compile_fails_alike (hr : s.registry.Built) {prog other : Program R} {f : Failure}
    {i : Nat} {kind : String} (h : compile s (some prog) = .error f) (ho : ¬ f.IsOverrun)
    (hi : f.gate? = some (i, kind)) (hq : other.qubits = prog.qubits)
    (hg : other.gates.take (i + 1) = prog.gates.take (i + 1)) :
    compile s (some other) = .error f := by
  obtain ⟨n, before, rest, g, ps, hn, hpos, hgates, hps, hstop, rfl⟩ := stops_of_gate? hr h ho hi
  have hother : other.gates = before ++ g :: other.gates.drop (before.length + 1) := by
    have htake : other.gates.take (before.length + 1) = before ++ [g] := by
      rw [hg, hgates, List.take_length_add_append]
      rfl
    rw [List.append_cons, ← htake, List.take_append_drop]
  obtain ⟨e, hall, _⟩ := compile_stops_alike hr hpos hps hstop
  have hprog := hall s.keepIdentity prog rest hn hgates
  have hsame := hall s.keepIdentity other _ (hq.trans hn) hother
  exact hsame.trans (hprog.symm.trans h)

/-- Compiling is incremental: what more gates add comes after what is there, and the first gate
that is refused decides, whatever follows. -/
theorem compile_is_incremental (hr : s.registry.Built) :
    (∀ (first second : Program R) (early late : Processor α R), first.qubits = second.qubits →
      first.gates <+: second.gates → compile s (some first) = .ok early →
      compile s (some second) = .ok late → early.Extends late) ∧
    ∀ (prog other : Program R) (f : Failure) (i : Nat) (kind : String),
      compile s (some prog) = .error f → ¬ f.IsOverrun → f.gate? = some (i, kind) →
      other.qubits = prog.qubits → other.gates.take (i + 1) = prog.gates.take (i + 1) →
      compile s (some other) = .error f :=
  ⟨fun _ _ _ _ hq hg hearly hlate => compile_extends hr hq hg hearly hlate,
    fun _ _ _ _ _ h ho hi hq hg => compile_fails_alike hr h ho hi hq hg⟩

end Compilations

def faultyProgram (rest : List (Gate ℝ)) : Program ℝ :=
  { Standard.sampleProgram with gates := ⟨"h", [1], []⟩ :: ⟨"cx", [2, 2], []⟩ :: rest }

theorem compile_faultyProgram (rest : List (Gate ℝ)) :
    ∃ f, compile (Settings.standard : Settings (Device ℝ) ℝ) (some (faultyProgram rest)) =
      .error f ∧ ¬ f.IsOverrun ∧ f.gate? = some (1, "cx") := by
  obtain ⟨_, hgood⟩ :=
    Standard.good_hadamard (s := (Settings.standard : Settings (Device ℝ) ℝ)) (n := 3) rfl 1
  obtain ⟨p, hlay, _⟩ := hgood.lays Standard.standard_built 6
  have hmodest := Standard.modest_of_lays rfl rfl hlay
  have hfits : ∀ q ∈ [p], ¬ q.Overruns := by
    have hcount := hmodest.ancillas_le
    have hstop : p.stop = 6 + p.fragment.ancillas.length := by
      rw [Placement.stop, hlay.base]
    have hlim := Storage.limit_eq
    intro q hq
    obtain rfl := List.mem_singleton.mp hq
    exact hmodest.fits (by omega)
  have hunfit : ∀ e : GateEntry (Device ℝ) ℝ, ¬ OperandsFit 3 e ⟨"cx", [2, 2], []⟩ :=
    fun e hfit => absurd hfit.nodup (by decide)
  have hbad : ¬ ∃ f, GoodGate (Settings.standard : Settings (Device ℝ) ℝ) 3
      ⟨"cx", [2, 2], []⟩ f := by
    rintro ⟨_, e, _, hfit, _⟩
    exact hunfit e hfit
  have hps : LaysOut Settings.standard 3 (2 * 3) [⟨"h", [1], []⟩] [p] := .cons hlay .nil
  have hgates : (faultyProgram rest).gates =
      [⟨"h", [1], []⟩] ++ ⟨"cx", [2, 2], []⟩ :: rest := rfl
  obtain ⟨f, hf, ⟨_, href⟩ | ⟨⟨q, hq, _⟩, _⟩⟩ := compile_stops Standard.standard_built rfl
    (by decide) (by decide) hgates hps hfits (.inl hbad)
  · have hne : ¬ f.IsOverrun := by
      cases href with
      | unknown _ => rintro ⟨o, ho⟩; cases ho
      | operands _ _ _ _ => rintro ⟨o, ho⟩; cases ho
      | parameters _ hfit _ _ => exact absurd hfit (hunfit _)
      | fragment _ hfit _ _ => exact absurd hfit (hunfit _)
    refine ⟨_, hf, ?_, Failure.gate?_noted hne _ _⟩
    rw [Failure.noted_of_not_overrun hne]
    exact hne
  · exact absurd ⟨_, hq.good⟩ hbad

theorem compile_is_incremental_sample :
    (∃ early late : Processor (Device ℝ) ℝ,
      compile Settings.standard (some { Standard.sampleProgram with
        gates := Standard.sampleProgram.gates.take 2 }) = .ok early ∧
      compile Settings.standard (some Standard.sampleProgram) = .ok late ∧ early.Extends late) ∧
    ∃ f : Failure, f.gate? = some (1, "cx") ∧ ∀ rest : List (Gate ℝ),
      compile (Settings.standard : Settings (Device ℝ) ℝ) (some (faultyProgram rest)) =
        .error f := by
  obtain ⟨hextends, hfails⟩ := compile_is_incremental
    (s := (Settings.standard : Settings (Device ℝ) ℝ)) Standard.standard_built
  constructor
  · obtain ⟨early, hearly⟩ : ∃ early : Processor (Device ℝ) ℝ,
        compile Settings.standard (some { Standard.sampleProgram with
          gates := Standard.sampleProgram.gates.take 2 }) = .ok early :=
      Standard.compile_of_good (n := 3) rfl rfl rfl (by decide)
        (fun g hg => Standard.good_sampleProgram g (List.mem_of_mem_take hg)) (by decide)
    obtain ⟨late, hlate⟩ := Standard.compile_sampleProgram
    refine ⟨early, late, hearly, hlate, hextends _ _ early late ?_ ?_ hearly hlate⟩
    · rfl
    · exact List.take_prefix 2 Standard.sampleProgram.gates
  · obtain ⟨f, hf, hne, hgate⟩ := compile_faultyProgram []
    exact ⟨f, hgate, fun rest => hfails _ _ f 1 "cx" hf hne hgate rfl rfl⟩

end DualRail
