import Mathlib
import DualRail.Processor.Basic
import DualRail.Proofs.Checked
import DualRail.Proofs.Doubles

/-!
What validation says of a processor. It passes exactly the processors whose records fit the network:
adjacent and disjoint pairs of rails, sources and heralds in strictly ascending order, counts from
zero on, and heralds or conditions but not both. No mode then has two records of one kind, so the
views of the sources as sums and as a map agree, and no herald hides another.
-/

namespace DualRail

namespace Processor

variable {α R : Type}

theorem inRange_iff {m : Nat} {mode : Int} : inRange m mode = true ↔ 0 ≤ mode ∧ mode < m := by
  simp [inRange]

theorem shareRail_eq_false_iff {a b : ModePair} :
    shareRail a b = false ↔ Disjoint ({a.zero, a.one} : Finset Int) {b.zero, b.one} := by
  simp only [shareRail, Bool.or_eq_false_iff, beq_eq_false_iff_ne, Finset.disjoint_insert_left,
    Finset.disjoint_singleton_left, Finset.mem_insert, Finset.mem_singleton, not_or]
  tauto

def Adjacent (m : Nat) (pair : ModePair) : Prop :=
  pair.one = pair.zero + 1 ∧ 0 ≤ pair.zero ∧ pair.zero + 1 < m

/-- The check of the second rail, done on words, is exact: the word after the greatest one is
negative and lies in no network. -/
theorem adjacent_iff {m : Nat} {pair : ModePair} (hzero : Word.InRange pair.zero)
    (hone : Word.InRange pair.one) :
    Adjacent m pair ↔ pair.one = Word.wrap (pair.zero + 1) ∧ inRange m pair.zero = true ∧
      inRange m pair.one = true := by
  unfold Word.InRange Word.min Word.max at hzero hone
  rw [inRange_iff, inRange_iff]
  unfold Adjacent
  by_cases hlast : pair.zero = Word.max
  · unfold Word.max at hlast
    rw [hlast, show Word.wrap (9223372036854775807 + 1) = -9223372036854775808 by decide]
    omega
  · have hnext : Word.wrap (pair.zero + 1) = pair.zero + 1 := by
      apply Word.wrap_of_inRange
      unfold Word.InRange Word.min Word.max
      unfold Word.max at hlast
      omega
    rw [hnext]
    omega

theorem checkPairs_eq_ok_iff {m q : Nat} {earlier pairs : List ModePair}
    (hwords : ∀ pair ∈ pairs, Word.InRange pair.zero ∧ Word.InRange pair.one) :
    checkPairs m q earlier pairs = .ok () ↔
      (∀ pair ∈ pairs, Adjacent m pair ∧ ∀ e ∈ earlier, shareRail pair e = false) ∧
        pairs.Pairwise fun a b => shareRail b a = false := by
  induction pairs generalizing q earlier with
  | nil => simp [checkPairs]
  | cons pair rest ih =>
    obtain ⟨⟨hzero, hone⟩, hrest⟩ := List.forall_mem_cons.mp hwords
    rw [checkPairs, List.forall_mem_cons, List.pairwise_cons]
    by_cases hpair : Adjacent m pair ∧ ∀ e ∈ earlier, shareRail pair e = false
    · obtain ⟨hnext, hin, hin'⟩ := (adjacent_iff hzero hone).mp hpair.1
      have hshare : earlier.any (shareRail pair) = false := by
        rw [List.any_eq_false]
        exact fun e he => Bool.eq_false_iff.mp (hpair.2 e he)
      rw [if_neg (by simp [← hnext, hin, hin', hshare]), ih hrest]
      simp only [List.forall_mem_cons]
      constructor
      · rintro ⟨hall, hpairwise⟩
        exact ⟨⟨hpair, fun b hb => ⟨(hall b hb).1, (hall b hb).2.2⟩⟩,
          fun b hb => (hall b hb).2.1, hpairwise⟩
      · rintro ⟨⟨_, hall⟩, hfirst, hpairwise⟩
        exact ⟨fun b hb => ⟨(hall b hb).1, hfirst b hb, (hall b hb).2⟩, hpairwise⟩
    · rw [if_pos]
      · exact iff_of_false (by intro h; cases h) fun h => hpair h.1.1
      · by_contra hcheck
        simp only [Bool.or_eq_true, decide_eq_true_eq, not_or, Bool.not_eq_true', ne_eq,
          Decidable.not_not, Bool.not_eq_false, List.any_eq_true, not_exists, not_and,
          Bool.not_eq_true] at hcheck
        obtain ⟨⟨⟨hnext, hin⟩, hin'⟩, hshare⟩ := hcheck
        exact hpair ⟨(adjacent_iff hzero hone).mpr ⟨hnext, hin, hin'⟩, hshare⟩

theorem checkRecords_eq_ok_iff {m : Nat} {kind : RecordKind} {previous : Int}
    {records : List (Int × Int)} :
    checkRecords m kind previous records = .ok () ↔
      (∀ r ∈ records, (0 ≤ r.1 ∧ r.1 < m) ∧ previous < r.1 ∧ 0 ≤ r.2) ∧
        (records.map (·.1)).Pairwise (· < ·) := by
  induction records generalizing previous with
  | nil => simp [checkRecords]
  | cons r rest ih =>
    obtain ⟨mode, count⟩ := r
    rw [checkRecords, List.forall_mem_cons, List.map_cons, List.pairwise_cons, List.forall_mem_map]
    by_cases hr : (0 ≤ mode ∧ mode < m) ∧ previous < mode ∧ 0 ≤ count
    · rw [inRange_iff.mpr hr.1, if_neg (by simp), if_neg (by omega), if_neg (by omega), ih]
      constructor
      · rintro ⟨hall, hsorted⟩
        refine ⟨⟨hr, fun x hx => ?_⟩, fun x hx => (hall x hx).2.1, hsorted⟩
        obtain ⟨hin, hafter, hcount⟩ := hall x hx
        exact ⟨hin, hr.2.1.trans hafter, hcount⟩
      · rintro ⟨⟨_, hall⟩, hfirst, hsorted⟩
        exact ⟨fun x hx => ⟨(hall x hx).1, hfirst x hx, (hall x hx).2.2⟩, hsorted⟩
    · refine iff_of_false (fun h => hr ?_) fun h => hr h.1.1
      split at h
      · cases h
      · rename_i hin
        split at h
        · cases h
        · split at h
          · cases h
          · exact ⟨inRange_iff.mp (by simpa using hin), by omega, by omega⟩

theorem checkConditions_eq_ok_iff {m : Nat} {cs : List Condition} :
    checkConditions m cs = .ok () ↔
      ∀ c ∈ cs, (∀ mode ∈ c.modes, 0 ≤ mode ∧ mode < m) ∧ 0 ≤ c.count := by
  induction cs with
  | nil => simp [checkConditions]
  | cons c rest ih =>
    have hmodes : c.modes.all (inRange m) = true ↔ ∀ mode ∈ c.modes, 0 ≤ mode ∧ mode < m := by
      simp only [List.all_eq_true, inRange_iff]
    rw [checkConditions, List.forall_mem_cons, ← hmodes, ← ih]
    by_cases hin : c.modes.all (inRange m) = true
    · by_cases hcount : c.count < 0
      · rw [hin, if_neg (by simp), if_pos hcount]
        exact iff_of_false (by intro h; cases h) fun h => absurd h.1.2 (Int.not_le.mpr hcount)
      · rw [hin, if_neg (by simp), if_neg hcount]
        exact ⟨fun h => ⟨⟨rfl, Int.not_lt.mp hcount⟩, h⟩, fun h => h.2⟩
    · rw [if_pos (by simpa using hin)]
      exact iff_of_false (by intro h; cases h) fun h => hin h.1.1

/-- All records fit the network and go together. -/
structure Consistent (p : Processor α R) : Prop where
  network : p.network.isSome = true
  adjacent : ∀ pair ∈ p.qubitModes,
    pair.one = pair.zero + 1 ∧ 0 ≤ pair.zero ∧ pair.zero + 1 < p.width
  disjoint : p.qubitModes.Pairwise fun a b =>
    Disjoint ({a.zero, a.one} : Finset Int) {b.zero, b.one}
  sources_ascend : (p.sources.map (·.mode)).Pairwise (· < ·)
  sources_inside : ∀ s ∈ p.sources, 0 ≤ s.mode ∧ s.mode < p.width
  photons : ∀ s ∈ p.sources, 0 ≤ s.photons
  heralds_ascend : (p.heralds.map (·.mode)).Pairwise (· < ·)
  heralds_inside : ∀ h ∈ p.heralds, 0 ≤ h.mode ∧ h.mode < p.width
  heralded_counts : ∀ h ∈ p.heralds, 0 ≤ h.count
  conditions_inside : ∀ c ∈ p.conditions, ∀ mode ∈ c.modes, 0 ≤ mode ∧ mode < p.width
  condition_counts : ∀ c ∈ p.conditions, 0 ≤ c.count
  exclusive : ¬ (p.heralds ≠ [] ∧ p.conditions ≠ [])

/-- The rails and the photon numbers are words. -/
structure Worded (p : Processor α R) : Prop where
  rails : ∀ pair ∈ p.qubitModes, Word.InRange pair.zero ∧ Word.InRange pair.one
  photons : ∀ s ∈ p.sources, Word.InRange s.photons

theorem disjoint_pairs_iff {pairs : List ModePair} :
    (pairs.Pairwise fun a b => shareRail b a = false) ↔
      pairs.Pairwise fun a b => Disjoint ({a.zero, a.one} : Finset Int) {b.zero, b.one} := by
  simp only [shareRail_eq_false_iff, disjoint_comm]

section Whole

variable [Quantity R] {p : Processor α R}

/-- Apart from the success probability, validation checks that the records are consistent. -/
theorem validate_eq_ok_iff
    (hwords : ∀ pair ∈ p.qubitModes, Word.InRange pair.zero ∧ Word.InRange pair.one) :
    p.validate = .ok () ↔ p.Consistent ∧ checkProbability p.success = .ok () := by
  cases hnet : p.network with
  | none =>
    unfold validate
    rw [hnet]
    refine iff_of_false (by intro h; cases h) fun h => ?_
    have hsome := h.1.network
    rw [hnet] at hsome
    cases hsome
  | some n =>
    have hwidth : p.width = n.width := by simp [width, hnet]
    have hsources := @checkRecords_eq_ok_iff n.width .source (-1) (p.sources.map Source.pair)
    have hheralds := @checkRecords_eq_ok_iff n.width .herald (-1) (p.heralds.map Herald.pair)
    rw [List.forall_mem_map, List.map_map] at hsources hheralds
    unfold validate
    rw [hnet]
    constructor
    · intro h
      obtain ⟨_, hp, h⟩ := bind_eq_ok h
      obtain ⟨_, hs, h⟩ := bind_eq_ok h
      obtain ⟨_, hh, h⟩ := bind_eq_ok h
      obtain ⟨_, hc, h⟩ := bind_eq_ok h
      obtain ⟨hadjacent, hdisjoint⟩ := (checkPairs_eq_ok_iff hwords).mp hp
      obtain ⟨hsource, hsorted⟩ := hsources.mp hs
      obtain ⟨hherald, hsorted'⟩ := hheralds.mp hh
      have hcondition := checkConditions_eq_ok_iff.mp hc
      split at h
      · cases h
      · rename_i hboth
        rw [← hwidth] at hadjacent hsource hherald hcondition
        refine ⟨⟨by rw [hnet]; rfl, fun pair hpair => (hadjacent pair hpair).1,
          disjoint_pairs_iff.mp hdisjoint, hsorted, fun s hs => (hsource s hs).1,
          fun s hs => (hsource s hs).2.2, hsorted', fun x hx => (hherald x hx).1,
          fun x hx => (hherald x hx).2.2, fun c hc => (hcondition c hc).1,
          fun c hc => (hcondition c hc).2, ?_⟩, h⟩
        simpa using hboth
    · rintro ⟨hp, hprobability⟩
      have hpairs : checkPairs n.width 0 [] p.qubitModes = .ok () := by
        rw [checkPairs_eq_ok_iff hwords, ← hwidth]
        exact ⟨fun pair hpair => ⟨hp.adjacent pair hpair, by simp⟩,
          disjoint_pairs_iff.mpr hp.disjoint⟩
      have hsource := hsources.mpr ⟨fun s hs => ⟨hwidth ▸ hp.sources_inside s hs,
        Int.lt_of_lt_of_le (by decide) (hp.sources_inside s hs).1, hp.photons s hs⟩,
        hp.sources_ascend⟩
      have hherald := hheralds.mpr ⟨fun h hh => ⟨hwidth ▸ hp.heralds_inside h hh,
        Int.lt_of_lt_of_le (by decide) (hp.heralds_inside h hh).1, hp.heralded_counts h hh⟩,
        hp.heralds_ascend⟩
      have hcondition : checkConditions n.width p.conditions = .ok () := by
        rw [checkConditions_eq_ok_iff, ← hwidth]
        exact fun c hc => ⟨hp.conditions_inside c hc, hp.condition_counts c hc⟩
      simp only
      rw [hpairs, ok_bind, hsource, ok_bind, hherald, ok_bind, hcondition, ok_bind, if_neg,
        hprobability]
      simpa using hp.exclusive

end Whole

theorem foldl_lastByKey {kept pairs : List (Int × Int)}
    (h : ((kept ++ pairs).map (·.1)).Pairwise (· < ·)) :
    pairs.foldl (fun kept p => kept.filter (·.1 != p.1) ++ [p]) kept = kept ++ pairs := by
  induction pairs generalizing kept with
  | nil => rw [List.append_nil, List.foldl_nil]
  | cons r rest ih =>
    have hkept : kept.filter (·.1 != r.1) = kept := by
      rw [List.filter_eq_self]
      intro x hx
      rw [List.map_append, List.pairwise_append] at h
      have hlt := h.2.2 x.1 (List.mem_map_of_mem hx) r.1 (by simp)
      rw [bne_iff_ne]
      exact Int.ne_of_lt hlt
    rw [List.append_cons] at h ⊢
    rw [List.foldl_cons, hkept, ih h]

theorem lastByKey_of_ascending {pairs : List (Int × Int)}
    (h : (pairs.map (·.1)).Pairwise (· < ·)) : lastByKey pairs = pairs := by
  have hfold := @foldl_lastByKey [] pairs h
  rw [List.nil_append] at hfold
  unfold lastByKey
  simp only
  rw [hfold]
  apply List.mergeSort_of_pairwise
  rw [List.pairwise_map] at h
  exact h.imp fun hlt => decide_eq_true (Int.le_of_lt hlt)

theorem sum_photons {sources : List Source} (hnd : (sources.map (·.mode)).Nodup)
    (hwords : ∀ s ∈ sources, Word.InRange s.photons) (mode : Int) :
    (sources.filter (·.mode == mode)).foldl (fun sum s => Word.wrap (sum + s.photons)) 0 =
      ((sources.map Source.pair).lookup mode).getD 0 := by
  induction sources with
  | nil => rfl
  | cons s rest ih =>
    rw [List.map_cons, List.nodup_cons] at hnd
    obtain ⟨hs, hrest⟩ := List.forall_mem_cons.mp hwords
    rw [List.map_cons, Source.pair, List.lookup_cons, List.filter_cons]
    by_cases hmode : s.mode = mode
    · have hnone : rest.filter (·.mode == mode) = [] := by
        rw [List.filter_eq_nil_iff]
        intro t ht heq
        exact hnd.1 (List.mem_map.mpr ⟨t, ht, (beq_iff_eq.mp heq).trans hmode.symm⟩)
      rw [hnone, if_pos (beq_iff_eq.mpr hmode), List.foldl_cons, List.foldl_nil, Int.zero_add,
        Word.wrap_of_inRange hs, beq_iff_eq.mpr hmode.symm]
      rfl
    · rw [if_neg (by simpa using hmode), ih hnd.2 hrest,
        beq_eq_false_iff_ne.mpr (Ne.symm hmode)]

theorem getElem?_inputState {p : Processor α R} (hnd : (p.sources.map (·.mode)).Nodup)
    (hwords : ∀ s ∈ p.sources, Word.InRange s.photons) {i : Nat} (hi : i < p.width) :
    p.inputState[i]? = some (((p.sources.map Source.pair).lookup (i : Int)).getD 0) := by
  rw [inputState, List.getElem?_map, List.getElem?_range hi, Option.map_some,
    sum_photons hnd hwords]

section Views

variable {p : Processor α R}

theorem Consistent.sourceMap_eq (h : p.Consistent) :
    p.sourceMap = p.sources.map Source.pair := by
  apply lastByKey_of_ascending
  rw [List.map_map]
  exact h.sources_ascend

theorem Consistent.heraldMap_eq (h : p.Consistent) :
    p.heraldMap = p.heralds.map Herald.pair := by
  apply lastByKey_of_ascending
  rw [List.map_map]
  exact h.heralds_ascend

theorem Consistent.getElem?_inputState (h : p.Consistent) (hwords : p.Worded) {i : Nat}
    (hi : i < p.width) :
    p.inputState[i]? = some ((p.sourceMap.lookup (i : Int)).getD 0) := by
  have hnd : (p.sources.map (·.mode)).Nodup := h.sources_ascend.imp Int.ne_of_lt
  rw [h.sourceMap_eq, Processor.getElem?_inputState hnd hwords.photons hi]

end Views

/-- Validation is exact: with a success probability, a processor is passed exactly if its records
are consistent. The input state of a processor that is passed has at each mode what the map of the
sources has there, and the maps of sources and heralds have every record once. -/
theorem validate_is_exact (p : Processor α Float) (hwords : p.Worded)
    (hsuccess : 0 < p.success ∧ p.success ≤ 1) :
    (p.validate = .ok () ↔ p.Consistent) ∧
    (p.validate = .ok () →
      p.inputState.length = p.width ∧
      (∀ i, i < p.width → p.inputState[i]? = some ((p.sourceMap.lookup (i : Int)).getD 0)) ∧
      p.sourceMap = p.sources.map Source.pair ∧ p.heraldMap = p.heralds.map Herald.pair ∧
      (p.heraldMap.map (·.1)).Nodup ∧ p.heraldMap.length = p.heralds.length) := by
  have hnumber : p.success.isNaN = false :=
    Bool.eq_false_iff.mpr fun hnan => Double.not_lt_of_isNaN hnan hsuccess.1
  have hcheck := Double.check_eq_false_iff.mpr ((Double.inRange_iff hnumber).mpr hsuccess)
  have hprobability : checkProbability p.success = .ok () := by
    rw [checkProbability, hcheck]
    rfl
  have hexact : p.validate = .ok () ↔ p.Consistent := by
    rw [validate_eq_ok_iff hwords.rails]
    exact and_iff_left hprobability
  refine ⟨hexact, fun hvalid => ?_⟩
  have hp := hexact.mp hvalid
  refine ⟨by simp [inputState], fun i hi => hp.getElem?_inputState hwords hi, hp.sourceMap_eq,
    hp.heraldMap_eq, ?_, ?_⟩
  · rw [hp.heraldMap_eq, List.map_map]
    exact hp.heralds_ascend.imp Int.ne_of_lt
  · rw [hp.heraldMap_eq, List.length_map]

def sixModes (qubitModes : List ModePair) (heralds : List Herald) :
    Processor (Device Float) Float where
  network := some ⟨"net", 6, []⟩
  qubitModes := qubitModes
  sources := [⟨0, 1⟩, ⟨2, 1⟩, ⟨5, 2⟩]
  heralds := heralds
  conditions := []
  heralded := true
  success := 0.25

theorem validate_is_exact_samples :
    ((sixModes [⟨2, 3⟩, ⟨0, 1⟩] [⟨4, 0⟩, ⟨5, 2⟩]).validate = .ok () ∧
      (sixModes [⟨2, 3⟩, ⟨0, 1⟩] [⟨4, 0⟩, ⟨5, 2⟩]).Consistent ∧
      (sixModes [⟨2, 3⟩, ⟨0, 1⟩] [⟨4, 0⟩, ⟨5, 2⟩]).inputState[5]? = some 2 ∧
      (sixModes [⟨2, 3⟩, ⟨0, 1⟩] [⟨4, 0⟩, ⟨5, 2⟩]).heraldMap.length = 2) ∧
    ¬ (sixModes [⟨2, 3⟩, ⟨0, 1⟩] [⟨4, 0⟩, ⟨4, 2⟩]).Consistent ∧
    ¬ (sixModes [⟨9223372036854775807, -9223372036854775808⟩] []).Consistent := by
  have hphotons : ∀ s ∈ ([⟨0, 1⟩, ⟨2, 1⟩, ⟨5, 2⟩] : List Source), Word.InRange s.photons := by
    decide
  obtain ⟨hexact, hviews⟩ := validate_is_exact (sixModes [⟨2, 3⟩, ⟨0, 1⟩] [⟨4, 0⟩, ⟨5, 2⟩])
    ⟨by decide, hphotons⟩ (by decide)
  obtain ⟨htwice, -⟩ := validate_is_exact (sixModes [⟨2, 3⟩, ⟨0, 1⟩] [⟨4, 0⟩, ⟨4, 2⟩])
    ⟨by decide, hphotons⟩ (by decide)
  obtain ⟨hwrapped, -⟩ := validate_is_exact
    (sixModes [⟨9223372036854775807, -9223372036854775808⟩] []) ⟨by decide, hphotons⟩ (by decide)
  have hvalid : (sixModes [⟨2, 3⟩, ⟨0, 1⟩] [⟨4, 0⟩, ⟨5, 2⟩]).validate = .ok () := by
    decide +kernel
  obtain ⟨_, hinput, hsources, _, _, hlength⟩ := hviews hvalid
  refine ⟨⟨hvalid, hexact.mp hvalid, ?_, hlength⟩, mt htwice.mpr (by decide +kernel),
    mt hwrapped.mpr (by decide +kernel)⟩
  rw [hinput 5 (by decide), hsources]
  rfl

end Processor

end DualRail
