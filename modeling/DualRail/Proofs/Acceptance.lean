import DualRail.Proofs.Bookkeeping

/-!
Which output patterns a compiled processor accepts. A pattern of the right length passes exactly if
it shows the declared count on every new mode of a heralded fragment and a single photon on the
rails of every qubit that a postselected fragment acts on; the other modes may hold anything. The
photons of a condition are added up as words, and still no pair of counts passes that is not one
photon and none.
-/

namespace DualRail

variable {α R : Type}

def Detected (output : List Int) : Prop := ∀ count ∈ output, 0 ≤ count ∧ count ≤ Word.max

def SinglePhoton (output : List Int) (q : Nat) : Prop :=
  output[2 * q]? = some 1 ∧ output[2 * q + 1]? = some 0 ∨
    output[2 * q]? = some 0 ∧ output[2 * q + 1]? = some 1

section Patterns

variable [Quantity R] {n : Nat} {ps : List (Placement α R)}

/-- What a layout asks of an output pattern. -/
structure Passes (n : Nat) (ps : List (Placement α R)) (output : List Int) : Prop where
  heralds : ∀ t p anc x, Holds n ps t p anc x → p.fragment.heralded = true →
    output[x]? = some anc.herald
  qubits : ∀ p ∈ ps, p.fragment.postSelect = true → ∀ q ∈ p.qubits, SinglePhoton output q

/-- The mode holds an ancilla of a heralded fragment, or it is a rail of a postselected qubit. -/
inductive Watched (n : Nat) (ps : List (Placement α R)) : Nat → Prop where
  | herald {t : Nat} {p : Placement α R} {anc : Ancilla} {x : Nat} : Holds n ps t p anc x →
      p.fragment.heralded = true → Watched n ps x
  | zero {p : Placement α R} {q : Nat} : p ∈ ps → p.fragment.postSelect = true → q ∈ p.qubits →
      Watched n ps (2 * q)
  | one {p : Placement α R} {q : Nat} : p ∈ ps → p.fragment.postSelect = true → q ∈ p.qubits →
      Watched n ps (2 * q + 1)

/-- A processor decides on output patterns by what its layout asks for. -/
structure Decides (n : Nat) (ps : List (Placement α R)) (proc : Processor α R) : Prop where
  refuses : ∀ output : List Int, output.length ≠ proc.width →
    proc.accepts output = refuse .occupationLength [.occupation output.length proc.width]
  answers : ∀ output : List Int, output.length = proc.width → Detected output →
    ∃ answer, proc.accepts output = .ok answer ∧ (answer = true ↔ Passes n ps output)
  watches : ∀ output output' : List Int, output.length = proc.width →
    output'.length = proc.width → (∀ x, Watched n ps x → output[x]? = output'[x]?) →
    proc.accepts output = proc.accepts output'
  inside : ∀ x, Watched n ps x → x < proc.width
  adds : ∀ output : List Int, output.length = proc.width → Detected output →
    ∀ c ∈ proc.conditions,
      (c.holds output = true ↔ (c.modes.map fun m => output.getD m.toNat 0).sum = c.count)

end Patterns

section Sums

theorem wrap_sum_eq_one {a b : Int} (ha : 0 ≤ a ∧ a ≤ Word.max) (hb : 0 ≤ b ∧ b ≤ Word.max) :
    Word.wrap (Word.wrap (0 + a) + b) = 1 ↔ a + b = 1 := by
  have hfirst : Word.wrap (0 + a) = a := by
    rw [Int.zero_add]
    refine Word.wrap_of_inRange ⟨?_, ha.2⟩
    unfold Word.min
    omega
  rw [hfirst]
  unfold Word.max at ha hb
  unfold Word.wrap Word.count
  constructor
  · intro h
    have hdvd : ((18446744073709551616 : Nat) : Int) ∣ (a + b) - 1 := by
      rw [← h]
      exact Int.dvd_self_sub_bmod
    omega
  · intro h
    rw [h]
    rfl

variable {output : List Int} {q : Nat}

theorem Detected.getD (h : Detected output) (i : Nat) :
    0 ≤ output.getD i 0 ∧ output.getD i 0 ≤ Word.max := by
  rw [List.getD_eq_getElem?_getD]
  rcases hi : output[i]? with _ | count
  · exact ⟨Int.le_refl 0, by decide⟩
  · exact h count (List.mem_of_getElem? hi)

theorem getElem?_eq_some_iff_getD {i : Nat} (hi : i < output.length) (count : Int) :
    output[i]? = some count ↔ output.getD i 0 = count := by
  rw [List.getD_eq_getElem?_getD, List.getElem?_eq_getElem hi, Option.some.injEq,
    Option.getD_some]

theorem holds_onePhoton (output : List Int) (q : Nat) :
    (Ledger.onePhoton (ModeSupply.qubit q)).holds output = true ↔
      Word.wrap (Word.wrap (0 + output.getD (2 * q) 0) + output.getD (2 * q + 1) 0) = 1 :=
  beq_iff_eq

theorem holds_iff_singlePhoton (h : Detected output) (hq : 2 * q + 1 < output.length) :
    (Ledger.onePhoton (ModeSupply.qubit q)).holds output = true ↔ SinglePhoton output q := by
  have hzero := h.getD (2 * q)
  have hone := h.getD (2 * q + 1)
  rw [holds_onePhoton, wrap_sum_eq_one hzero hone, SinglePhoton,
    getElem?_eq_some_iff_getD (Nat.lt_of_succ_lt hq), getElem?_eq_some_iff_getD hq,
    getElem?_eq_some_iff_getD (Nat.lt_of_succ_lt hq), getElem?_eq_some_iff_getD hq]
  omega

end Sums

section Deciding

variable [Quantity R] {proc : Processor α R} {output output' : List Int}

theorem accepts_of_length (hv : proc.validate = .ok ()) (hl : output.length = proc.width) :
    proc.accepts output =
      .ok ((proc.heralds.all fun h => output.getD h.mode.toNat 0 == h.count) &&
        proc.conditions.all (·.holds output)) := by
  rw [Processor.accepts, hv, ok_bind, if_neg (not_not.mpr hl)]
  rfl

theorem accepts_of_length_ne (hv : proc.validate = .ok ()) (hl : output.length ≠ proc.width) :
    proc.accepts output = refuse .occupationLength [.occupation output.length proc.width] := by
  rw [Processor.accepts, hv, ok_bind, if_pos hl]

variable {s : Settings α R} {n : Nat} {gs : List (Gate R)} {ps : List (Placement α R)}

theorem Watched.lt (h : LaysOut s n (2 * n) gs ps) (hs : ∀ p ∈ ps, p.Sound n) {x : Nat}
    (hx : Watched n ps x) : x < endOf (2 * n) ps := by
  have hrails : 2 * n ≤ endOf (2 * n) ps := Nat.le_add_right _ _
  cases hx with
  | @herald t p anc x hx _ =>
    obtain ⟨hp, j, hj, rfl⟩ := hx
    have hstop := h.stop_le p (List.mem_of_getElem? hp)
    have hlt := (List.getElem?_eq_some_iff.mp hj).1
    rw [← h.base_eq hp]
    exact (Nat.add_lt_add_left hlt _).trans_le hstop
  | zero hp _ hq =>
    have := (hs _ hp).lt _ hq
    omega
  | one hp _ hq =>
    have := (hs _ hp).lt _ hq
    omega

variable (hb : Books n ps proc)
include hb

theorem Books.heralds_all_iff (hin : ∀ x, Watched n ps x → x < output.length) :
    (proc.heralds.all fun h => output.getD h.mode.toNat 0 == h.count) = true ↔
      ∀ t p anc x, Holds n ps t p anc x → p.fragment.heralded = true →
        output[x]? = some anc.herald := by
  rw [List.all_eq_true]
  constructor
  · intro h t p anc x hx hher
    have hmem := (hb.mem_heralds ⟨x, anc.herald⟩).mpr ⟨t, p, anc, x, hx, hher, rfl⟩
    exact (getElem?_eq_some_iff_getD (hin x (.herald hx hher)) _).mpr (beq_iff_eq.mp (h _ hmem))
  · intro h her hmem
    obtain ⟨t, p, anc, x, hx, hher, rfl⟩ := (hb.mem_heralds her).mp hmem
    have hcount := h t p anc x hx hher
    exact beq_iff_eq.mpr ((getElem?_eq_some_iff_getD (hin x (.herald hx hher)) _).mp hcount)

theorem Books.conditions_all_iff (hd : Detected output)
    (hin : ∀ x, Watched n ps x → x < output.length) :
    proc.conditions.all (·.holds output) = true ↔
      ∀ p ∈ ps, p.fragment.postSelect = true → ∀ q ∈ p.qubits, SinglePhoton output q := by
  rw [List.all_eq_true]
  constructor
  · intro h p hp hpost q hq
    have hmem := (hb.mem_conditions _).mpr ⟨p, hp, hpost, q, hq, rfl⟩
    exact (holds_iff_singlePhoton hd (hin _ (.one hp hpost hq))).mp (h _ hmem)
  · intro h c hmem
    obtain ⟨p, hp, hpost, q, hq, rfl⟩ := (hb.mem_conditions c).mp hmem
    exact (holds_iff_singlePhoton hd (hin _ (.one hp hpost hq))).mpr (h p hp hpost q hq)

theorem Books.accepts_congr (hv : proc.validate = .ok ()) (hl : output.length = proc.width)
    (hl' : output'.length = proc.width)
    (h : ∀ x, Watched n ps x → output[x]? = output'[x]?) :
    proc.accepts output = proc.accepts output' := by
  have hsame : ∀ x, Watched n ps x → output.getD x 0 = output'.getD x 0 := by
    intro x hx
    rw [List.getD_eq_getElem?_getD, List.getD_eq_getElem?_getD, h x hx]
  have hheralds : (proc.heralds.all fun h => output.getD h.mode.toNat 0 == h.count) =
      proc.heralds.all fun h => output'.getD h.mode.toNat 0 == h.count := by
    rw [Bool.eq_iff_iff, List.all_eq_true, List.all_eq_true]
    refine forall₂_congr fun her hmem => ?_
    obtain ⟨t, p, anc, x, hx, hher, rfl⟩ := (hb.mem_heralds her).mp hmem
    rw [Int.toNat_natCast, hsame x (.herald hx hher)]
  have hconditions : proc.conditions.all (·.holds output) =
      proc.conditions.all (·.holds output') := by
    rw [Bool.eq_iff_iff, List.all_eq_true, List.all_eq_true]
    refine forall₂_congr fun c hmem => ?_
    obtain ⟨p, hp, hpost, q, hq, rfl⟩ := (hb.mem_conditions c).mp hmem
    refine (holds_onePhoton output q).trans (Iff.trans ?_ (holds_onePhoton output' q).symm)
    rw [hsame _ (.zero hp hpost hq), hsame _ (.one hp hpost hq)]
  rw [accepts_of_length hv hl, accepts_of_length hv hl', hheralds, hconditions]

/-- The word sum of a condition is right whenever it counts. -/
theorem Books.holds_iff_sum (hd : Detected output) {c : Condition} (hc : c ∈ proc.conditions) :
    c.holds output = true ↔ (c.modes.map fun m => output.getD m.toNat 0).sum = c.count := by
  obtain ⟨p, _, _, q, _, rfl⟩ := (hb.mem_conditions c).mp hc
  refine (holds_onePhoton output q).trans ((wrap_sum_eq_one (hd.getD _) (hd.getD _)).trans ?_)
  rw [List.map_cons, List.map_cons, List.map_nil, List.sum_cons, List.sum_cons, List.sum_nil,
    Int.add_zero]
  rfl

theorem Books.decides (hv : proc.validate = .ok ())
    (hin : ∀ x, Watched n ps x → x < proc.width) : Decides n ps proc where
  refuses _ hl := accepts_of_length_ne hv hl
  answers output hl hd := by
    have hin' : ∀ x, Watched n ps x → x < output.length := fun x hx => hl.symm ▸ hin x hx
    refine ⟨_, accepts_of_length hv hl, ?_⟩
    rw [Bool.and_eq_true, hb.heralds_all_iff hin', hb.conditions_all_iff hd hin']
    exact ⟨fun ⟨hher, hqub⟩ => ⟨hher, hqub⟩, fun hpass => ⟨hpass.heralds, hpass.qubits⟩⟩
  watches _ _ hl hl' h := hb.accepts_congr hv hl hl' h
  inside := hin
  adds _ _ hd _ hc := hb.holds_iff_sum hd hc

end Deciding

/-- Compiled processors decide on output patterns by what their layout asks for. -/
theorem compile_decides_patterns [Element α] [Quantity R] {s : Settings α R}
    (hr : s.registry.Built) {prog : Program R} {proc : Processor α R}
    (h : compile s (some prog) = .ok proc) :
    ∃ (n : Nat) (ps : List (Placement α R)), prog.qubits = n ∧
      LaysOut s n (2 * n) prog.gates ps ∧ Decides n ps proc := by
  obtain ⟨n, ps, hq, _, hplaced, hvalid, rfl⟩ := (compile_ok_iff hr).mp h
  have hps := hplaced.laysOut
  have hs := hps.sound hr (Nat.le_refl _)
  have hb := books_processorOf hps s.heralded (networkName prog.name)
    (ps.flatMap (Placement.entries s.keepIdentity))
  exact ⟨n, ps, hq, hps, hb.decides hvalid fun x hx => hx.lt hps hs⟩

section Sample

theorem width_sampleProgram {proc : Processor (Device ℝ) ℝ}
    (h : compile Settings.standard (some Standard.sampleProgram) = .ok proc) :
    proc.width = 8 := by
  obtain ⟨n, ps, hn, _, hplaced, _, rfl⟩ := (compile_ok_iff Standard.standard_built).mp h
  obtain rfl : 3 = n := Int.ofNat.inj hn
  obtain ⟨turn, control, exchange, _, _, _, rfl, ⟨_, hturn⟩, ⟨_, hcontrol⟩, _, hexchange, _⟩ :=
    Standard.layout_sampleProgram hplaced.laysOut
  change endOf 6 [turn, control, exchange] = 8
  rw [endOf, List.map_cons, List.map_cons, List.map_cons, hturn, hcontrol, hexchange]
  rfl

theorem passes_sampleProgram {ps : List (Placement (Device ℝ) ℝ)}
    (h : LaysOut Settings.standard 3 6 Standard.sampleProgram.gates ps) (output : List Int) :
    Passes 3 ps output ↔ SinglePhoton output 2 ∧ SinglePhoton output 0 := by
  obtain ⟨turn, control, exchange, _, _, _, rfl, ⟨_, hturn⟩, ⟨hq, hcontrol⟩, _, hexchange, _⟩ :=
    Standard.layout_sampleProgram h
  constructor
  · intro hpass
    have hsingle := hpass.qubits control (by simp) (by rw [hcontrol]; rfl)
    rw [hq] at hsingle
    exact ⟨hsingle 2 (by simp), hsingle 0 (by simp)⟩
  · rintro ⟨htwo, hzero⟩
    constructor
    · rintro t p anc x ⟨hp, _⟩ hher
      have hmem := List.mem_of_getElem? hp
      simp only [List.mem_cons, List.not_mem_nil, or_false] at hmem
      rcases hmem with rfl | rfl | rfl
      · rw [hturn] at hher
        cases hher
      · rw [hcontrol] at hher
        cases hher
      · rw [hexchange] at hher
        cases hher
    · intro p hp hpost q hmem
      simp only [List.mem_cons, List.not_mem_nil, or_false] at hp
      rcases hp with rfl | rfl | rfl
      · rw [hturn] at hpost
        cases hpost
      · rw [hq] at hmem
        simp only [List.mem_cons, List.not_mem_nil, or_false] at hmem
        rcases hmem with rfl | rfl
        · exact htwo
        · exact hzero
      · rw [hexchange] at hpost
        cases hpost

/-- In the sample the counts on modes that are not watched do not matter, and two counts whose sum
is no word do not pass. -/
theorem compile_decides_patterns_sample :
    ∃ proc : Processor (Device ℝ) ℝ,
      compile Settings.standard (some Standard.sampleProgram) = .ok proc ∧
      proc.accepts [1, 0, 7, 5, 0, 1, 3, 9] = .ok true ∧
      proc.accepts [1, 0, 1, 0, Word.max, Word.max, 0, 0] = .ok false ∧
      proc.accepts [1, 0] = refuse .occupationLength [.occupation 2 8] := by
  obtain ⟨proc, h⟩ := Standard.compile_sampleProgram
  obtain ⟨n, ps, hn, hps, hdecides⟩ := compile_decides_patterns Standard.standard_built h
  obtain rfl : 3 = n := Int.ofNat.inj hn
  have hwidth := width_sampleProgram h
  refine ⟨proc, h, ?_, ?_, ?_⟩
  · obtain ⟨answer, haccepts, hiff⟩ := hdecides.answers [1, 0, 7, 5, 0, 1, 3, 9] hwidth.symm
      (by unfold Detected; decide)
    have hpass : Passes 3 ps [1, 0, 7, 5, 0, 1, 3, 9] :=
      (passes_sampleProgram hps _).mpr ⟨.inr ⟨rfl, rfl⟩, .inl ⟨rfl, rfl⟩⟩
    rw [haccepts, hiff.mpr hpass]
  · obtain ⟨answer, haccepts, hiff⟩ := hdecides.answers [1, 0, 1, 0, Word.max, Word.max, 0, 0]
      hwidth.symm (by unfold Detected; decide)
    have hfail : ¬ Passes 3 ps [1, 0, 1, 0, Word.max, Word.max, 0, 0] := by
      rw [passes_sampleProgram hps]
      unfold SinglePhoton
      decide
    rw [haccepts, Bool.eq_false_iff.mpr fun ha => hfail (hiff.mp ha)]
  · rw [← hwidth]
    exact hdecides.refuses [1, 0] (by rw [hwidth]; decide)

end Sample

end DualRail
