import DualRail.Proofs.CanonicalName
import DualRail.Proofs.Defects
import DualRail.Proofs.Doubles

/-!
What the check of a program reports. Every gate has a report of its own, which is empty exactly if
the gate is well formed and otherwise says each thing that is wrong with it once; the defects of a
program are the reports of its gates one after the other. The loops that collect them, gate by gate
and within a gate operand by operand, give this list however collections are represented, as long
as appending joins them.
-/

namespace DualRail

namespace Gate

def HasKind (g : Gate Float) : Prop := ∃ c ∈ g.kind.toList, Text.isBlank c = false

def HasOperands (g : Gate Float) : Prop := g.qubits.length = 1 ∨ g.qubits.length = 2

structure WellFormed (n : Int) (g : Gate Float) : Prop where
  kind : g.HasKind
  operands : g.HasOperands
  inside : ∀ q ∈ g.qubits, 0 ≤ q ∧ q < n
  distinct : g.qubits.Nodup
  finite : ∀ x ∈ g.params, x.isNaN = false ∧ x.isInf = false

/-- The defects are the report on the gate with the given index. -/
structure Reports (n : Int) (index : Nat) (g : Gate Float) (ds : List Defect) : Prop where
  empty_iff : ds = [] ↔ g.WellFormed n
  names : ∀ d ∈ ds, d.index = index ∧ d.gate = g.text
  blank : ¬ g.HasKind → ds.map Defect.cause = [.emptyKind]
  count : g.HasKind → ¬ g.HasOperands → ds.map Defect.cause = [.operandCount]
  /-- One for each operand outside, in their order. -/
  ranges : g.HasKind → g.HasOperands →
    (ds.filter (·.cause = .operandRange)).map Defect.fault =
      (g.qubits.filter fun q => q < 0 || n ≤ q).map (.operandRange · n)
  repeats : g.HasKind → g.HasOperands →
    (ds.filter (·.cause = .repeatedOperand)).length = if g.qubits.Nodup then 0 else 1
  params : g.HasKind → g.HasOperands →
    (ds.filter (·.cause = .badParameter)).length =
      (g.params.filter fun x => x.isNaN || x.isInf).length
  only : g.HasKind → g.HasOperands → ∀ d ∈ ds,
    d.cause = .operandRange ∨ d.cause = .repeatedOperand ∨ d.cause = .badParameter

section Conditions

variable {g : Gate Float}

theorem isEmpty_trim_iff : (Text.trim g.kind.toList).isEmpty = true ↔ ¬ g.HasKind := by
  rw [List.isEmpty_iff, Text.trim_eq_nil_iff, HasKind]
  push Not
  simp only [ne_eq, Bool.not_eq_false]

theorem operandCount_iff :
    (g.qubits.isEmpty || maxArity < g.qubits.length) = true ↔ ¬ g.HasOperands := by
  rw [Bool.or_eq_true, List.isEmpty_iff_length_eq_zero, decide_eq_true_eq, maxArity, HasOperands]
  omega

theorem not_isFinite (x : Float) : (!Quantity.isFinite x) = (x.isNaN || x.isInf) := by
  rw [Bool.not_eq_eq_eq_not, Bool.eq_iff_iff, Double.isFinite_iff, Bool.not_eq_true',
    Bool.or_eq_false_iff]

end Conditions

section Operands

variable {n : Int} {earlier qs : List Int} {index : Nat} {text : String}

def causeOf (fault : Defect.Fault) : Cause := (Defect.mk 0 "" fault).cause

theorem cause_mk (fault : Defect.Fault) : (Defect.mk index text fault).cause = causeOf fault := rfl

theorem ranges_operandFaults :
    (operandFaults n earlier qs).filter (causeOf · = .operandRange) =
      (qs.filter fun q => q < 0 || n ≤ q).map (.operandRange · n) := by
  induction qs generalizing earlier with
  | nil => rfl
  | cons q rest ih =>
    have hrepeat : ((earlier.filter (· == q)).map fun _ => Defect.Fault.repeatedOperand q).filter
        (causeOf · = .operandRange) = [] := by
      rw [List.filter_eq_nil_iff]
      intro fault hfault
      obtain ⟨_, _, rfl⟩ := List.mem_map.mp hfault
      exact Bool.false_ne_true
    rw [operandFaults, List.filter_append, List.filter_append, hrepeat, ih, List.append_nil,
      List.filter_cons]
    split
    · rfl
    · rfl

theorem causeOf_operandFaults {fault : Defect.Fault} (h : fault ∈ operandFaults n earlier qs) :
    causeOf fault = .operandRange ∨ causeOf fault = .repeatedOperand := by
  induction qs generalizing earlier with
  | nil => cases h
  | cons q rest ih =>
    rw [operandFaults, List.mem_append, List.mem_append] at h
    rcases h with (h | h) | h
    · split at h
      · obtain rfl := List.mem_singleton.mp h
        exact .inl rfl
      · cases h
    · obtain ⟨_, _, rfl⟩ := List.mem_map.mp h
      exact .inr rfl
    · exact ih h

theorem repeats_operandFaults (h : qs.length = 1 ∨ qs.length = 2) :
    ((operandFaults n [] qs).filter (causeOf · = .repeatedOperand)).length =
      if qs.Nodup then 0 else 1 := by
  have hrange : ∀ q : Int, (if q < 0 || n ≤ q then [Defect.Fault.operandRange q n] else []).filter
      (causeOf · = .repeatedOperand) = [] := by
    intro q
    split
    · rfl
    · rfl
  rcases h with h | h
  · obtain ⟨a, rfl⟩ := List.length_eq_one_iff.mp h
    rw [if_pos (List.nodup_singleton a), operandFaults, operandFaults, List.append_nil,
      List.filter_append, hrange]
    rfl
  · obtain ⟨a, b, rfl⟩ := List.length_eq_two.mp h
    rw [operandFaults, operandFaults, operandFaults, List.append_nil, List.filter_append,
      List.filter_append, List.filter_append, hrange, hrange, List.nil_append, List.nil_append]
    by_cases hab : a = b
    · subst hab
      simp [causeOf, Defect.cause]
    · simp [hab]

end Operands

section Faults

variable {n : Int} {index : Nat} {g : Gate Float}

theorem faults_of_blank (h : ¬ g.HasKind) : g.faults n = [.emptyKind] := by
  rw [faults, if_pos (isEmpty_trim_iff.mpr h)]

theorem faults_of_count (hkind : g.HasKind) (h : ¬ g.HasOperands) :
    g.faults n = [.operandCount] := by
  rw [faults, if_neg (fun hblank => isEmpty_trim_iff.mp hblank hkind),
    if_pos (operandCount_iff.mpr h)]

theorem faults_of_operands (hkind : g.HasKind) (h : g.HasOperands) :
    g.faults n = operandFaults n [] g.qubits ++
      (g.params.filter fun x => x.isNaN || x.isInf).map fun _ => .badParameter := by
  have hnamed : (Text.trim g.kind.toList).isEmpty = false :=
    Bool.eq_false_iff.mpr fun hblank => isEmpty_trim_iff.mp hblank hkind
  rw [faults_eq hnamed h]
  simp only [not_isFinite]

theorem faults_eq_nil_iff : g.faults n = [] ↔ g.WellFormed n := by
  by_cases hkind : g.HasKind
  · by_cases hoperands : g.HasOperands
    · rw [faults_of_operands hkind hoperands, List.append_eq_nil_iff, operandFaults_eq_nil_iff,
        List.map_eq_nil_iff, List.filter_eq_nil_iff]
      constructor
      · rintro ⟨⟨hinside, hdistinct, _⟩, hfinite⟩
        refine ⟨hkind, hoperands, hinside, hdistinct, fun x hx => ?_⟩
        exact Bool.or_eq_false_iff.mp (Bool.not_eq_true _ ▸ hfinite x hx)
      · intro h
        refine ⟨⟨h.inside, h.distinct, fun _ _ => List.not_mem_nil⟩, fun x hx => ?_⟩
        rw [Bool.not_eq_true, Bool.or_eq_false_iff]
        exact h.finite x hx
    · rw [faults_of_count hkind hoperands]
      exact iff_of_false (List.cons_ne_nil _ _) fun h => hoperands h.operands
  · rw [faults_of_blank hkind]
    exact iff_of_false (List.cons_ne_nil _ _) fun h => hkind h.kind

theorem filter_defects (p : Cause → Bool) :
    (g.defects n index).filter (fun d => p d.cause) =
      ((g.faults n).filter fun fault => p (causeOf fault)).map fun fault =>
        ⟨index, g.text, fault⟩ := by
  rw [defects, List.filter_map]
  rfl

theorem filter_causeOf_badParameter {c : Cause} (h : c ≠ .badParameter) (xs : List Float) :
    (xs.map fun _ => Defect.Fault.badParameter).filter (causeOf · = c) = [] := by
  rw [List.filter_eq_nil_iff]
  intro fault hfault
  obtain ⟨_, _, rfl⟩ := List.mem_map.mp hfault
  rw [decide_eq_true_eq]
  exact h.symm

theorem reports_defects (n : Int) (index : Nat) (g : Gate Float) :
    g.Reports n index (g.defects n index) where
  empty_iff := by rw [defects, List.map_eq_nil_iff, faults_eq_nil_iff]
  names := by
    intro d hd
    obtain ⟨fault, _, rfl⟩ := List.mem_map.mp hd
    exact ⟨rfl, rfl⟩
  blank h := by
    rw [defects, faults_of_blank h]
    rfl
  count hkind h := by
    rw [defects, faults_of_count hkind h]
    rfl
  ranges hkind h := by
    rw [filter_defects fun c => decide (c = .operandRange), faults_of_operands hkind h,
      List.filter_append, ranges_operandFaults, filter_causeOf_badParameter (by decide),
      List.append_nil, List.map_map]
    exact List.map_id _
  repeats hkind h := by
    rw [filter_defects fun c => decide (c = .repeatedOperand), faults_of_operands hkind h,
      List.filter_append, filter_causeOf_badParameter (by decide), List.append_nil,
      List.length_map, repeats_operandFaults h]
  params hkind h := by
    have hoperands : (operandFaults n [] g.qubits).filter (causeOf · = .badParameter) = [] := by
      rw [List.filter_eq_nil_iff]
      intro fault hfault
      rw [decide_eq_true_eq]
      rcases causeOf_operandFaults hfault with hc | hc <;> rw [hc] <;> decide
    rw [filter_defects fun c => decide (c = .badParameter), faults_of_operands hkind h,
      List.filter_append, hoperands, List.nil_append, List.length_map,
      List.filter_eq_self.mpr, List.length_map]
    intro fault hfault
    obtain ⟨_, _, rfl⟩ := List.mem_map.mp hfault
    decide
  only hkind h := by
    intro d hd
    obtain ⟨fault, hfault, rfl⟩ := List.mem_map.mp hd
    rw [faults_of_operands hkind h, List.mem_append] at hfault
    rw [cause_mk]
    rcases hfault with hfault | hfault
    · rcases causeOf_operandFaults hfault with hc | hc
      · exact .inl hc
      · exact .inr (.inl hc)
    · obtain ⟨_, _, rfl⟩ := List.mem_map.mp hfault
      exact .inr (.inr rfl)

end Faults

end Gate

namespace Program

section Reports

variable {n : Int} {start : Nat} {gs : List (Gate Float)}

theorem defectsFrom_eq_flatten :
    defectsFrom n start gs =
      ((gs.zipIdx start).map fun gi => gi.1.defects n gi.2).flatten := by
  induction gs generalizing start with
  | nil => rfl
  | cons g rest ih =>
    rw [defectsFrom, ih]
    rfl

theorem reports_of_mem :
    List.Forall₂ (fun gi ds => gi.1.Reports n gi.2 ds) (gs.zipIdx start)
      ((gs.zipIdx start).map fun gi => gi.1.defects n gi.2) := by
  rw [List.forall₂_map_right_iff, List.forall₂_same]
  exact fun gi _ => Gate.reports_defects n gi.2 gi.1

theorem le_index_of_mem {d : Defect} (h : d ∈ defectsFrom n start gs) : start ≤ d.index := by
  induction gs generalizing start with
  | nil => cases h
  | cons g rest ih =>
    rw [defectsFrom, List.mem_append] at h
    rcases h with h | h
    · exact ((Gate.reports_defects n start g).names d h).1.ge
    · exact (Nat.le_succ start).trans (ih h)

/-- The defects with the index of a gate are those of that gate. -/
theorem filter_index_defectsFrom (i : Nat) :
    (defectsFrom n start gs).filter (·.index = start + i) =
      (gs[i]?.map fun g => g.defects n (start + i)).getD [] := by
  induction gs generalizing start i with
  | nil => rfl
  | cons g rest ih =>
    have hnames := (Gate.reports_defects n start g).names
    rw [defectsFrom, List.filter_append]
    cases i with
    | zero =>
      have hrest : (defectsFrom n (start + 1) rest).filter (·.index = start + 0) = [] := by
        rw [List.filter_eq_nil_iff]
        intro d hd
        have := le_index_of_mem hd
        rw [decide_eq_true_eq]
        omega
      have hown : (g.defects n start).filter (·.index = start + 0) = g.defects n start := by
        rw [List.filter_eq_self]
        intro d hd
        rw [decide_eq_true_eq]
        exact (hnames d hd).1
      rw [hrest, hown, List.append_nil]
      rfl
    | succ i =>
      have hown : (g.defects n start).filter (·.index = start + (i + 1)) = [] := by
        rw [List.filter_eq_nil_iff]
        intro d hd
        have := (hnames d hd).1
        rw [decide_eq_true_eq]
        omega
      rw [hown, List.nil_append, List.getElem?_cons_succ,
        show start + (i + 1) = start + 1 + i by omega]
      exact ih i

theorem defects_eq_nil_iff {p : Program Float} :
    p.defects = [] ↔ ∀ g ∈ p.gates, g.WellFormed p.qubits := by
  simp only [← Gate.faults_eq_nil_iff]
  constructor
  · exact faults_of_defectsFrom_eq_nil
  · intro hall
    rw [List.eq_nil_iff_forall_not_mem]
    intro d hd
    obtain ⟨g, hg, hfault⟩ := exists_of_mem_defectsFrom hd
    rw [hall g hg] at hfault
    cases hfault

theorem validate_of_pos {p : Program Float} (hn : 0 < p.qubits) :
    p.validate = if p.defects = [] then .ok () else .error ⟨[], .defects p.defects⟩ := by
  rw [validate, if_neg (by omega)]
  simp only [List.isEmpty_iff]

end Reports

end Program

/-- A way to collect defects: nothing, one defect, and two collections joined. What a collection
lists is all there is to it, and only the empty one lists nothing. -/
structure Collector (E : Type) where
  nothing : E
  one : Defect → E
  append : E → E → E
  list : E → List Defect
  list_nothing : list nothing = []
  list_one : ∀ d, list (one d) = [d]
  list_append : ∀ a b, list (append a b) = list a ++ list b
  eq_nothing : ∀ a, list a = [] → a = nothing

namespace Gate

variable {E : Type}

def collectIf (c : Collector E) (bad : Bool) (d : Defect) (found : E) : E :=
  if bad then c.append found (c.one d) else found

def collectOperands (c : Collector E) (mark : Defect.Fault → Defect) (n : Int) :
    List Int → List Int → E → E
  | _, [], found => found
  | earlier, q :: rest, found =>
    let ranged := collectIf c (q < 0 || n ≤ q) (mark (.operandRange q n)) found
    let compared := earlier.foldl
      (fun found previous => collectIf c (previous == q) (mark (.repeatedOperand q)) found) ranged
    collectOperands c mark n (earlier ++ [q]) rest compared

def collectParams (c : Collector E) (mark : Defect.Fault → Defect) (params : List Float)
    (found : E) : E :=
  params.foldl (fun found x => collectIf c (x.isNaN || x.isInf) (mark .badParameter) found) found

/-- The check of one gate: it ends early at a blank kind and at a wrong number of operands. -/
def collect (c : Collector E) (n : Int) (index : Nat) (g : Gate Float) : E :=
  let mark := Defect.mk index g.text
  if (Text.trim g.kind.toList).isEmpty then c.one (mark .emptyKind)
  else if g.qubits.isEmpty || maxArity < g.qubits.length then c.one (mark .operandCount)
  else collectParams c mark g.params (collectOperands c mark n [] g.qubits c.nothing)

section Lists

variable (c : Collector E) (mark : Defect.Fault → Defect)

theorem list_collectIf (bad : Bool) (d : Defect) (found : E) :
    c.list (collectIf c bad d found) = c.list found ++ if bad then [d] else [] := by
  unfold collectIf
  split
  · rw [c.list_append, c.list_one]
  · rw [List.append_nil]

theorem list_foldl_collectIf {β : Type} (bad : β → Bool) (d : Defect) (items : List β)
    (found : E) :
    c.list (items.foldl (fun found x => collectIf c (bad x) d found) found) =
      c.list found ++ (items.filter bad).map fun _ => d := by
  induction items generalizing found with
  | nil => exact (List.append_nil _).symm
  | cons x rest ih =>
    rw [List.foldl_cons, ih, list_collectIf, List.append_assoc, List.filter_cons]
    split
    · rfl
    · rfl

theorem list_collectOperands (n : Int) (earlier qs : List Int) (found : E) :
    c.list (collectOperands c mark n earlier qs found) =
      c.list found ++ (operandFaults n earlier qs).map mark := by
  induction qs generalizing earlier found with
  | nil => exact (List.append_nil _).symm
  | cons q rest ih =>
    have hrange : (if q < 0 || n ≤ q then [mark (.operandRange q n)] else []) =
        (if q < 0 || n ≤ q then [Defect.Fault.operandRange q n] else []).map mark := by
      split
      · rfl
      · rfl
    rw [collectOperands, ih, list_foldl_collectIf c (· == q), list_collectIf, hrange,
      operandFaults, List.map_append, List.map_append, List.map_map, List.append_assoc,
      List.append_assoc, List.append_assoc]
    rfl

theorem list_collect (n : Int) (index : Nat) (g : Gate Float) :
    c.list (g.collect c n index) = g.defects n index := by
  unfold collect defects faults
  split
  · exact c.list_one _
  · split
    · exact c.list_one _
    · simp only [not_isFinite]
      rw [collectParams, list_foldl_collectIf c fun x : Float => x.isNaN || x.isInf,
        list_collectOperands, c.list_nothing, List.nil_append, List.map_append, List.map_map]
      rfl

end Lists

end Gate

namespace Program

variable {E : Type}

/-- The check of all gates in program order. -/
def collect (c : Collector E) (p : Program Float) : E :=
  p.gates.zipIdx.foldl (fun found gi => c.append found (gi.1.collect c p.qubits gi.2)) c.nothing

theorem list_foldl_append (c : Collector E) (n : Int) (gs : List (Gate Float × Nat)) (found : E) :
    c.list (gs.foldl (fun found gi => c.append found (gi.1.collect c n gi.2)) found) =
      c.list found ++ (gs.map fun gi => gi.1.defects n gi.2).flatten := by
  induction gs generalizing found with
  | nil => exact (List.append_nil _).symm
  | cons gi rest ih =>
    rw [List.foldl_cons, ih, c.list_append, Gate.list_collect, List.append_assoc]
    rfl

theorem list_collect (c : Collector E) (p : Program Float) :
    c.list (p.collect c) = p.defects := by
  rw [collect, list_foldl_append, c.list_nothing, List.nil_append, defects,
    defectsFrom_eq_flatten]

/-- The check of a program with qubits reports exactly its malformed gates. Collected in whatever
way, the defects are the reports of the gates in program order; the program passes exactly if all
gates are well formed, and what is reported of a gate depends on that gate alone. -/
theorem validate_reports_exactly (c : Collector E) {p : Program Float} (hn : 0 < p.qubits) :
    c.list (p.collect c) = p.defects ∧ (p.collect c = c.nothing ↔ p.validate = .ok ()) ∧
    p.validate = (if p.defects = [] then .ok () else .error ⟨[], .defects p.defects⟩) ∧
    (∃ reports : List (List Defect), p.defects = reports.flatten ∧
      List.Forall₂ (fun gi ds => gi.1.Reports p.qubits gi.2 ds) p.gates.zipIdx reports) ∧
    (p.validate = .ok () ↔ ∀ g ∈ p.gates, g.WellFormed p.qubits) ∧
    ∀ p' : Program Float, p'.qubits = p.qubits → ∀ i : Nat, p'.gates[i]? = p.gates[i]? →
      p'.defects.filter (·.index = i) = p.defects.filter (·.index = i) := by
  have hvalidate := validate_of_pos hn
  have hpasses : p.validate = .ok () ↔ p.defects = [] := by
    rw [hvalidate]
    split
    · rename_i hnone
      exact iff_of_true rfl hnone
    · rename_i hsome
      exact iff_of_false (by rintro ⟨⟩) hsome
  have hcollect := list_collect c p
  refine ⟨hcollect, ?_, hvalidate, ?_, ?_, ?_⟩
  · rw [hpasses, ← hcollect]
    constructor
    · intro h
      rw [h, c.list_nothing]
    · exact c.eq_nothing _
  · exact ⟨_, defectsFrom_eq_flatten, reports_of_mem⟩
  · rw [hpasses, defects_eq_nil_iff]
  · intro p' hqubits i hgate
    have hown := @filter_index_defectsFrom p.qubits 0 p.gates i
    have hother := @filter_index_defectsFrom p'.qubits 0 p'.gates i
    rw [Nat.zero_add] at hown hother
    rw [defects, defects, hown, hother, hgate, hqubits]

end Program

/-- No defect, one defect, or a combination of at least two. -/
inductive Combined where
  | nothing
  | one (d : Defect)
  | several (first second : Defect) (rest : List Defect)

namespace Combined

def list : Combined → List Defect
  | .nothing => []
  | .one d => [d]
  | .several first second rest => first :: second :: rest

def ofList : List Defect → Combined
  | [] => .nothing
  | [d] => .one d
  | first :: second :: rest => .several first second rest

theorem list_ofList (ds : List Defect) : (ofList ds).list = ds := by
  unfold ofList
  split <;> rfl

/-- Appending flattens: the parts of a combination are defects, never combinations. -/
def collector : Collector Combined where
  nothing := .nothing
  one := .one
  append a b := ofList (a.list ++ b.list)
  list := list
  list_nothing := rfl
  list_one _ := rfl
  list_append _ _ := list_ofList _
  eq_nothing a h := by
    cases a with
    | nothing => rfl
    | one d => cases h
    | several first second rest => cases h

end Combined

namespace Program

def malformedProgram : Program Float :=
  ⟨"", 2, [⟨"h", [0], []⟩, ⟨"rz", [7, 7], [Decimal.nan, 1, Decimal.infinity true]⟩, ⟨" ", [9], []⟩,
    ⟨"x", [1], []⟩]⟩

theorem validate_reports_exactly_mixed :
    0 < malformedProgram.qubits ∧ malformedProgram.validate ≠ .ok () ∧
      ((malformedProgram.collect Combined.collector).list.map fun d => (d.index, d.cause)) =
        [(1, .operandRange), (1, .operandRange), (1, .repeatedOperand), (1, .badParameter),
          (1, .badParameter), (2, .emptyKind)] := by
  have hn : 0 < malformedProgram.qubits := by decide
  obtain ⟨hlist, hpasses, _⟩ := validate_reports_exactly Combined.collector hn
  have hcauses : (malformedProgram.defects.map fun d => (d.index, d.cause)) =
      [(1, .operandRange), (1, .operandRange), (1, .repeatedOperand), (1, .badParameter),
        (1, .badParameter), (2, .emptyKind)] := by
    decide +kernel
  have hcollected : (malformedProgram.collect Combined.collector).list =
      malformedProgram.defects := hlist
  refine ⟨hn, fun hok => ?_, by rw [hcollected, hcauses]⟩
  rw [← hcollected, hpasses.mpr hok] at hcauses
  cases hcauses

end Program

end DualRail
