import DualRail.Compiler.Batch
import DualRail.Proofs.Incremental

/-!
Batches under every schedule. The programs of a batch are compiled by tasks that run side by side,
at most `limit` at a time. A task is submitted after all tasks before it, looks at the flag,
compiles its program and fills its slot; the first failure that is reported is kept and sets the
flag. Every schedule ends, and it ends as compiling the programs one by one does: with all
processors in input order, or with the failure of a program that does fail.
-/

namespace DualRail

/-- How far the task of a program is. -/
inductive Task where
  | waiting
  | started
  | cleared
  | failed (f : Failure)
  | done

def Task.isRunning : Task → Bool
  | .started | .cleared | .failed _ => true
  | .waiting | .done => false

def Task.remaining : Task → Nat
  | .waiting => 4
  | .started => 3
  | .cleared => 2
  | .failed _ => 1
  | .done => 0

/-- A batch of `n` programs on its way. -/
structure Batch (α R : Type) (n : Nat) where
  task : Fin n → Task
  slot : Fin n → Option (Processor α R)
  error : Option Failure
  cancelled : Bool

namespace Batch

section States

variable {α R : Type} {n : Nat}

def start (cancelled : Bool) : Batch α R n :=
  { task := fun _ => .waiting, slot := fun _ => none, error := none, cancelled }

def running (b : Batch α R n) : Finset (Fin n) :=
  Finset.univ.filter fun i => (b.task i).isRunning = true

def move (b : Batch α R n) (i : Fin n) (t : Task) : Batch α R n :=
  { b with task := Function.update b.task i t }

def store (b : Batch α R n) (i : Fin n) (proc : Processor α R) : Batch α R n :=
  { b with slot := Function.update b.slot i (some proc) }

def settle (b : Batch α R n) (f : Failure) : Batch α R n :=
  { b with error := some f, cancelled := true }

variable (b : Batch α R n) (i j : Fin n) (t : Task) (proc : Processor α R) (f : Failure)

@[simp] theorem task_move : (b.move i t).task j = if j = i then t else b.task j :=
  Function.update_apply ..

theorem task_move_eq {u : Task} :
    (b.move i t).task j = u ↔ j = i ∧ t = u ∨ j ≠ i ∧ b.task j = u := by
  rw [task_move]
  split <;> simp [*]

@[simp] theorem slot_move : (b.move i t).slot = b.slot := by
  rfl

@[simp] theorem task_store : (b.store i proc).task = b.task := by
  rfl

@[simp] theorem slot_store :
    (b.store i proc).slot j = if j = i then some proc else b.slot j :=
  Function.update_apply ..

@[simp] theorem task_settle : (b.settle f).task = b.task := by
  rfl

variable {b i j t}

@[simp] theorem mem_running : i ∈ b.running ↔ (b.task i).isRunning = true := by
  simp [running]

theorem card_running_move_le : (b.move i t).running.card ≤ b.running.card + 1 := by
  refine (Finset.card_le_card fun j hj => ?_).trans (Finset.card_insert_le i b.running)
  rw [mem_running, task_move] at hj
  by_cases hji : j = i
  · exact Finset.mem_insert.mpr (.inl hji)
  · rw [if_neg hji] at hj
    exact Finset.mem_insert_of_mem (mem_running.mpr hj)

theorem card_running_move_of_running (h : (b.task i).isRunning = true) :
    (b.move i t).running.card ≤ b.running.card := by
  refine Finset.card_le_card fun j hj => ?_
  rw [mem_running, task_move] at hj
  by_cases hji : j = i
  · rw [hji]
    exact mem_running.mpr h
  · rw [if_neg hji] at hj
    exact mem_running.mpr hj

def remaining (b : Batch α R n) : Nat := ∑ i, (b.task i).remaining

theorem remaining_move_lt (h : t.remaining < (b.task i).remaining) :
    (b.move i t).remaining < b.remaining := by
  refine Finset.sum_lt_sum (fun j _ => ?_) ⟨i, Finset.mem_univ i, ?_⟩
  · rw [task_move]
    split
    · rename_i hji
      rw [hji]
      exact h.le
    · exact le_refl _
  · rw [task_move, if_pos rfl]
    exact h

theorem ordered_move {k : Fin n}
    (hb : ∀ i j, j < i → b.task j = .waiting → b.task i = .waiting) (hk : b.task k ≠ .waiting)
    (ht : t ≠ .waiting) (i j : Fin n) (hj : j < i) (hw : (b.move k t).task j = .waiting) :
    (b.move k t).task i = .waiting := by
  obtain ⟨_, hbad⟩ | ⟨_, hw⟩ := (task_move_eq ..).mp hw
  · exact absurd hbad ht
  · have hi := hb i j hj hw
    exact (task_move_eq ..).mpr (.inr ⟨fun hik => hk (hik ▸ hi), hi⟩)

structure Stopped (b : Batch α R n) : Prop where
  flag : b.cancelled = true
  idle : ∀ i, b.task i ≠ .cleared
  pending : ∀ i f, b.task i = .failed f → f = .of .cancelled []
  done : ∀ i, b.task i = .done → b.error ≠ none
  reported : ∀ f, b.error = some f → f = .of .cancelled []

theorem stopped_start : (start true : Batch α R n).Stopped where
  flag := rfl
  idle := nofun
  pending := nofun
  done := nofun
  reported := nofun

end States

section Schedules

variable {α R : Type} [Element α] [Quantity R] (s : Settings α R) (limit : Nat)
  (programs : List (Option (Program R)))

/-- One step of one task. A compilation that overruns does not return, so no step belongs to it. -/
inductive Step : Batch α R programs.length → Batch α R programs.length → Prop where
  | submit {b : Batch α R programs.length} {i : Fin programs.length} : b.task i = .waiting →
      (∀ j < i, b.task j ≠ .waiting) → b.running.card < limit → Step b (b.move i .started)
  | stop {b : Batch α R programs.length} {i : Fin programs.length} : b.task i = .started →
      b.cancelled = true → Step b (b.move i (.failed (.of .cancelled [])))
  | clear {b : Batch α R programs.length} {i : Fin programs.length} : b.task i = .started →
      b.cancelled = false → Step b (b.move i .cleared)
  | succeed {b : Batch α R programs.length} {i : Fin programs.length} {proc : Processor α R} :
      b.task i = .cleared → compile s (programs.get i) = .ok proc →
      Step b ((b.store i proc).move i .done)
  | fail {b : Batch α R programs.length} {i : Fin programs.length} {f : Failure} :
      b.task i = .cleared → compile s (programs.get i) = .error f → ¬ f.IsOverrun →
      Step b (b.move i (.failed (f.noted (.program i))))
  | report {b : Batch α R programs.length} {i : Fin programs.length} {f : Failure} :
      b.task i = .failed f → b.error = none → Step b ((b.settle f).move i .done)
  | drop {b : Batch α R programs.length} {i : Fin programs.length} {f : Failure} :
      b.task i = .failed f → b.error ≠ none → Step b (b.move i .done)

/-- How a batch ends: with its slots or its failure once every task is done, or at once with a
compilation that overruns. -/
inductive Ends (b : Batch α R programs.length) :
    Except Failure (List (Option (Processor α R))) → Prop where
  | filled : (∀ i, b.task i = .done) → b.error = none → Ends b (.ok (List.ofFn b.slot))
  | failed {f : Failure} : (∀ i, b.task i = .done) → b.error = some f → Ends b (.error f)
  | overrun {i : Fin programs.length} {f : Failure} : b.task i = .cleared →
      compile s (programs.get i) = .error f → f.IsOverrun → Ends b (.error f)

/-- The batch can end with the outcome, under some schedule. -/
def Yields (cancelled : Bool) (outcome : Except Failure (List (Option (Processor α R)))) : Prop :=
  ∃ b, Relation.ReflTransGen (Step s limit programs) (start cancelled) b ∧ Ends s programs b outcome

variable {s limit programs} {b c : Batch α R programs.length}

theorem Step.remaining_lt (h : Step s limit programs b c) : c.remaining < b.remaining := by
  cases h with
  | submit hi _ _ | stop hi _ | clear hi _ | succeed hi _ | fail hi _ _ | report hi _
  | drop hi _ =>
    refine remaining_move_lt ?_
    simp [hi, Task.remaining]

variable (s limit programs) in
theorem wellFounded_step :
    WellFounded fun c b : Batch α R programs.length => Step s limit programs b c :=
  Subrelation.wf (fun h => Step.remaining_lt h) (InvImage.wf remaining Nat.lt_wfRel.wf)

theorem ends_or_steps (hlimit : 0 < limit) (b : Batch α R programs.length) :
    (∃ outcome, Ends s programs b outcome) ∨ ∃ c, Step s limit programs b c := by
  by_cases hrun : ∃ i, (b.task i).isRunning = true
  · obtain ⟨i, hi⟩ := hrun
    cases ht : b.task i with
    | waiting | done =>
      rw [ht] at hi
      cases hi
    | started =>
      cases hc : b.cancelled with
      | true => exact .inr ⟨_, .stop ht hc⟩
      | false => exact .inr ⟨_, .clear ht hc⟩
    | cleared =>
      cases hp : compile s (programs.get i) with
      | ok proc => exact .inr ⟨_, .succeed ht hp⟩
      | error f =>
        by_cases ho : f.IsOverrun
        · exact .inl ⟨_, .overrun ht hp ho⟩
        · exact .inr ⟨_, .fail ht hp ho⟩
    | failed f =>
      by_cases he : b.error = none
      · exact .inr ⟨_, .report ht he⟩
      · exact .inr ⟨_, .drop ht he⟩
  · have hidle : b.running = ∅ := by
      rw [Finset.eq_empty_iff_forall_notMem]
      exact fun i hi => hrun ⟨i, mem_running.mp hi⟩
    by_cases hwait : ∃ i, b.task i = .waiting
    · -- The first task that waits can be submitted, as nothing runs.
      obtain ⟨i, hi, hmin⟩ := WellFounded.has_min (wellFounded_lt (α := Fin programs.length))
        {i | b.task i = .waiting} hwait
      refine .inr ⟨_, .submit hi (fun j hj hw => hmin j hw hj) ?_⟩
      rw [hidle, Finset.card_empty]
      exact hlimit
    · have hdone : ∀ i, b.task i = .done := by
        intro i
        cases ht : b.task i with
        | waiting => exact absurd ⟨i, ht⟩ hwait
        | done => rfl
        | _ => exact absurd ⟨i, by rw [ht]; rfl⟩ hrun
      cases he : b.error with
      | none => exact .inl ⟨_, .filled hdone he⟩
      | some f => exact .inl ⟨_, .failed hdone he⟩

/-- Every batch can go on until it ends. -/
theorem exists_end (hlimit : 0 < limit) (b : Batch α R programs.length) :
    ∃ c outcome, Relation.ReflTransGen (Step s limit programs) b c ∧ Ends s programs c outcome := by
  induction b using (wellFounded_step s limit programs).induction with
  | _ b ih =>
    obtain ⟨outcome, hends⟩ | ⟨c, hstep⟩ := ends_or_steps (s := s) hlimit b
    · exact ⟨b, outcome, .refl, hends⟩
    · obtain ⟨d, outcome, hrun, hends⟩ := ih c hstep
      exact ⟨d, outcome, hrun.head hstep, hends⟩

/-- The failure is that of program `i`, under its index; on one place the programs before it
compile. -/
structure BlamedOn (s : Settings α R) (limit : Nat) (programs : List (Option (Program R)))
    (i : Fin programs.length) (f : Failure) : Prop where
  own : ∃ own, compile s (programs.get i) = .error own ∧ f = own.noted (.program i)
  least : limit = 1 → ∀ j < i, ∃ proc, compile s (programs.get j) = .ok proc

/-- What holds of a batch that was not cancelled from outside. -/
structure Consistent (s : Settings α R) (limit : Nat) (programs : List (Option (Program R)))
    (b : Batch α R programs.length) : Prop where
  flag : b.cancelled = b.error.isSome
  ordered : ∀ i j, j < i → b.task j = .waiting → b.task i = .waiting
  bounded : b.running.card ≤ limit
  alone : limit = 1 → ∀ i, b.task i = .cleared → b.error = none
  pending : ∀ i f, b.task i = .failed f → b.error = none → BlamedOn s limit programs i f
  stored : ∀ i, b.task i = .done → b.error = none →
    ∃ proc, compile s (programs.get i) = .ok proc ∧ b.slot i = some proc
  reported : ∀ f, b.error = some f → ∃ i, BlamedOn s limit programs i f

theorem consistent_start : Consistent s limit programs (start false) where
  flag := rfl
  ordered _ _ _ _ := rfl
  bounded := by simp [running, start, Task.isRunning]
  alone := nofun
  pending := nofun
  stored := nofun
  reported := nofun

namespace Consistent

variable {i j : Fin programs.length}

theorem error_eq_none (h : Consistent s limit programs b) (hc : b.cancelled = false) :
    b.error = none := by
  rw [h.flag] at hc
  exact Option.isSome_eq_false_iff.mp hc |> Option.isNone_iff_eq_none.mp

theorem error_ne_none (h : Consistent s limit programs b) (hc : b.cancelled = true) :
    b.error ≠ none := by
  rw [h.flag] at hc
  exact Option.isSome_iff_ne_none.mp hc

theorem eq_of_running (h : Consistent s limit programs b) (hl : limit = 1)
    (hi : (b.task i).isRunning = true) (hj : (b.task j).isRunning = true) : i = j := by
  have hcard := h.bounded
  rw [hl] at hcard
  exact Finset.card_le_one.mp hcard i (mem_running.mpr hi) j (mem_running.mpr hj)

theorem compiled_before (h : Consistent s limit programs b) (hl : limit = 1)
    (hi : b.task i = .cleared) (hj : j < i) :
    ∃ proc, compile s (programs.get j) = .ok proc := by
  have hrun : (b.task i).isRunning = true := by rw [hi]; rfl
  cases ht : b.task j with
  | waiting =>
    have hwaits := h.ordered i j hj ht
    rw [hi] at hwaits
    cases hwaits
  | done =>
    obtain ⟨proc, hproc, _⟩ := h.stored j ht (h.alone hl i hi)
    exact ⟨proc, hproc⟩
  | _ => exact absurd (h.eq_of_running hl (by rw [ht]; rfl) hrun) hj.ne

theorem blamedOn (h : Consistent s limit programs b) (hi : b.task i = .cleared) {f : Failure}
    (hf : compile s (programs.get i) = .error f) :
    BlamedOn s limit programs i (f.noted (.program i)) :=
  ⟨⟨f, hf, rfl⟩, fun hl _ hj => h.compiled_before hl hi hj⟩

end Consistent

theorem Step.flag (h : Step s limit programs b c) (hb : Consistent s limit programs b) :
    c.cancelled = c.error.isSome := by
  cases h with
  | report _ _ => rfl
  | _ => exact hb.flag

theorem Step.ordered (h : Step s limit programs b c) (hb : Consistent s limit programs b) :
    ∀ i j, j < i → c.task j = .waiting → c.task i = .waiting := by
  cases h with
  | @submit k hk hbefore _ =>
    intro i j hj hw
    obtain ⟨_, ⟨⟩⟩ | ⟨_, hw⟩ := (task_move_eq ..).mp hw
    refine (task_move_eq ..).mpr (.inr ⟨fun hik => ?_, hb.ordered i j hj hw⟩)
    exact hbefore j (hik ▸ hj) hw
  | stop hk _ | clear hk _ | succeed hk _ | fail hk _ _ | report hk _ | drop hk _ =>
    exact ordered_move hb.ordered (by simp [hk]) nofun

theorem Step.bounded (h : Step s limit programs b c) (hb : Consistent s limit programs b) :
    c.running.card ≤ limit := by
  cases h with
  | submit _ _ hroom => exact (card_running_move_le ..).trans hroom
  | stop hk _ | clear hk _ | succeed hk _ | fail hk _ _ | report hk _ | drop hk _ =>
    exact (card_running_move_of_running (by simp [hk, Task.isRunning])).trans hb.bounded

theorem Step.alone (h : Step s limit programs b c) (hb : Consistent s limit programs b)
    (hl : limit = 1) (i : Fin programs.length) (hi : c.task i = .cleared) : c.error = none := by
  cases h with
  | clear _ hflag => exact hb.error_eq_none hflag
  | report hk _ =>
    obtain ⟨_, ⟨⟩⟩ | ⟨hik, hi⟩ := (task_move_eq ..).mp hi
    have hi : b.task i = .cleared := hi
    exact absurd (hb.eq_of_running hl (by rw [hi]; rfl) (by rw [hk]; rfl)) hik
  | _ =>
    obtain ⟨_, ⟨⟩⟩ | ⟨_, hi⟩ := (task_move_eq ..).mp hi
    exact hb.alone hl i hi

theorem Step.pending (h : Step s limit programs b c) (hb : Consistent s limit programs b)
    (i : Fin programs.length) (f : Failure) (hi : c.task i = .failed f) (he : c.error = none) :
    BlamedOn s limit programs i f := by
  cases h with
  | stop _ hflag => exact absurd he (hb.error_ne_none hflag)
  | fail hk hf _ =>
    obtain ⟨rfl, hfail⟩ | ⟨_, hi⟩ := (task_move_eq ..).mp hi
    · rw [← Task.failed.inj hfail]
      exact hb.blamedOn hk hf
    · exact hb.pending i f hi he
  | report _ _ => cases he
  | _ =>
    obtain ⟨_, ⟨⟩⟩ | ⟨_, hi⟩ := (task_move_eq ..).mp hi
    exact hb.pending i f hi he

theorem Step.stored (h : Step s limit programs b c) (hb : Consistent s limit programs b)
    (i : Fin programs.length) (hi : c.task i = .done) (he : c.error = none) :
    ∃ proc, compile s (programs.get i) = .ok proc ∧ c.slot i = some proc := by
  cases h with
  | @succeed k proc _ hproc =>
    obtain ⟨rfl, _⟩ | ⟨hik, hi⟩ := (task_move_eq ..).mp hi
    · exact ⟨proc, hproc, by simp⟩
    · obtain ⟨old, hold, hslot⟩ := hb.stored i hi he
      exact ⟨old, hold, by simp [hik, hslot]⟩
  | report _ _ => cases he
  | drop _ hne => exact absurd he hne
  | _ =>
    obtain ⟨_, ⟨⟩⟩ | ⟨_, hi⟩ := (task_move_eq ..).mp hi
    exact hb.stored i hi he

theorem Step.reported (h : Step s limit programs b c) (hb : Consistent s limit programs b)
    (f : Failure) (he : c.error = some f) : ∃ i, BlamedOn s limit programs i f := by
  cases h with
  | @report k g hk hnone =>
    obtain rfl : g = f := Option.some.inj he
    exact ⟨k, hb.pending k g hk hnone⟩
  | _ => exact hb.reported f he

theorem Step.consistent (h : Step s limit programs b c) (hb : Consistent s limit programs b) :
    Consistent s limit programs c where
  flag := h.flag hb
  ordered := h.ordered hb
  bounded := h.bounded hb
  alone := h.alone hb
  pending := h.pending hb
  stored := h.stored hb
  reported := h.reported hb

theorem consistent_of_run (h : Relation.ReflTransGen (Step s limit programs) (start false) b) :
    Consistent s limit programs b := by
  induction h with
  | refl => exact consistent_start
  | tail _ hstep ih => exact hstep.consistent ih

theorem Step.stopped (h : Step s limit programs b c) (hb : b.Stopped) : c.Stopped := by
  cases h with
  | submit _ _ _ =>
    refine ⟨hb.flag, fun i hi => ?_, fun i f hi => ?_, fun i hi => ?_, hb.reported⟩ <;>
      obtain ⟨_, ⟨⟩⟩ | ⟨_, hi⟩ := (task_move_eq ..).mp hi
    · exact hb.idle i hi
    · exact hb.pending i f hi
    · exact hb.done i hi
  | stop _ _ =>
    refine ⟨hb.flag, fun i hi => ?_, fun i f hi => ?_, fun i hi => ?_, hb.reported⟩
    · obtain ⟨_, ⟨⟩⟩ | ⟨_, hi⟩ := (task_move_eq ..).mp hi
      exact hb.idle i hi
    · obtain ⟨_, hfail⟩ | ⟨_, hi⟩ := (task_move_eq ..).mp hi
      · exact (Task.failed.inj hfail).symm
      · exact hb.pending i f hi
    · obtain ⟨_, ⟨⟩⟩ | ⟨_, hi⟩ := (task_move_eq ..).mp hi
      exact hb.done i hi
  | clear _ hflag =>
    rw [hb.flag] at hflag
    cases hflag
  | succeed hk _ => exact absurd hk (hb.idle _)
  | fail hk _ _ => exact absurd hk (hb.idle _)
  | report hk _ =>
    refine ⟨rfl, fun i hi => ?_, fun i f hi => ?_, fun _ _ => nofun, fun f hf => ?_⟩
    · obtain ⟨_, ⟨⟩⟩ | ⟨_, hi⟩ := (task_move_eq ..).mp hi
      exact hb.idle i hi
    · obtain ⟨_, ⟨⟩⟩ | ⟨_, hi⟩ := (task_move_eq ..).mp hi
      exact hb.pending i f hi
    · rw [← Option.some.inj hf]
      exact hb.pending _ _ hk
  | drop _ hne =>
    refine ⟨hb.flag, fun i hi => ?_, fun i f hi => ?_, fun _ _ => hne, hb.reported⟩ <;>
      obtain ⟨_, ⟨⟩⟩ | ⟨_, hi⟩ := (task_move_eq ..).mp hi
    · exact hb.idle i hi
    · exact hb.pending i f hi

theorem stopped_of_run (h : Relation.ReflTransGen (Step s limit programs) (start true) b) :
    b.Stopped := by
  induction h with
  | refl => exact stopped_start
  | tail _ hstep ih => exact hstep.stopped ih

/-- A batch ends with the processors of all programs, or with the failure of one. -/
theorem Consistent.outcome (h : Consistent s limit programs b)
    {outcome : Except Failure (List (Option (Processor α R)))} (hends : Ends s programs b outcome) :
    (∃ procs : List (Processor α R), programs.map (compile s) = procs.map .ok ∧
        outcome = .ok (procs.map some)) ∨
      ∃ i f, BlamedOn s limit programs i f ∧ outcome = .error f := by
  cases hends with
  | filled hdone hnone =>
    have hall := fun i => h.stored i (hdone i) hnone
    choose procs hprocs hslots using hall
    refine .inl ⟨List.ofFn procs, ?_, ?_⟩
    · rw [List.map_ofFn]
      nth_rewrite 1 [← List.ofFn_get programs]
      rw [List.map_ofFn]
      exact congrArg List.ofFn (funext hprocs)
    · rw [List.map_ofFn]
      exact congrArg (Except.ok ∘ List.ofFn) (funext hslots)
  | failed _ hf =>
    obtain ⟨i, hi⟩ := h.reported _ hf
    exact .inr ⟨i, _, hi, rfl⟩
  | @overrun i f hi hf ho =>
    have hblamed := h.blamedOn hi hf
    rw [ho.noted_eq] at hblamed
    exact .inr ⟨i, f, hblamed, rfl⟩

theorem Stopped.outcome (h : b.Stopped) (hne : programs ≠ [])
    {outcome : Except Failure (List (Option (Processor α R)))} (hends : Ends s programs b outcome) :
    outcome = .error (.of .cancelled []) := by
  cases hends with
  | filled hdone hnone =>
    have hi : Fin programs.length := ⟨0, List.length_pos_iff.mpr hne⟩
    exact absurd hnone (h.done hi (hdone hi))
  | failed _ hf => rw [h.reported _ hf]
  | overrun hi _ _ => exact absurd hi (h.idle _)

end Schedules

end Batch

section Sequence

variable {α R : Type} [Element α] [Quantity R] {s : Settings α R}

theorem compileFrom_of_all {programs : List (Option (Program R))} {procs : List (Processor α R)}
    (h : programs.map (compile s) = procs.map .ok) (k : Nat) :
    compileFrom s k programs = .ok procs := by
  induction programs generalizing procs k with
  | nil =>
    obtain rfl := List.map_eq_nil_iff.mp h.symm
    rfl
  | cons p rest ih =>
    obtain ⟨proc, procs, rfl, hp, hrest⟩ := List.map_eq_cons_iff.mp h.symm
    rw [compileFrom, ← hp, noting_ok, ok_bind, ih hrest.symm, ok_bind]
    rfl

theorem compileFrom_of_first {before rest : List (Option (Program R))} {p : Option (Program R)}
    (hbefore : ∀ q ∈ before, ∃ proc, compile s q = .ok proc) {f : Failure}
    (hf : compile s p = .error f) (k : Nat) :
    compileFrom s k (before ++ p :: rest) = .error (f.noted (.program (k + before.length))) := by
  induction before generalizing k with
  | nil =>
    rw [List.nil_append, compileFrom, hf, noting_error, error_bind]
    rfl
  | cons q before ih =>
    obtain ⟨⟨proc, hq⟩, hrest⟩ := List.forall_mem_cons.mp hbefore
    rw [List.cons_append, compileFrom, hq, noting_ok, ok_bind, ih hrest, error_bind,
      List.length_cons]
    congr 3
    omega

theorem compileAll_of_least {programs : List (Option (Program R))} {i : Fin programs.length}
    {f : Failure} (hf : compile s (programs.get i) = .error f)
    (hbefore : ∀ j < i, ∃ proc, compile s (programs.get j) = .ok proc) :
    compileAll s false programs = .error (f.noted (.program i)) := by
  have hsplit : programs = programs.take i ++ programs.get i :: programs.drop (i + 1) := by
    rw [List.get_eq_getElem, List.getElem_cons_drop, List.take_append_drop]
  have htake : ∀ q ∈ programs.take i, ∃ proc, compile s q = .ok proc := by
    intro q hq
    obtain ⟨j, hj, rfl⟩ := List.mem_take_iff_getElem.mp hq
    exact hbefore ⟨j, by omega⟩ (Fin.mk_lt_of_lt_val (by omega))
  have hfrom : compileFrom s 0 (programs.take i ++ programs.get i :: programs.drop (i + 1)) = _ :=
    compileFrom_of_first htake hf 0
  rw [← hsplit, List.length_take_of_le i.isLt.le, Nat.zero_add] at hfrom
  exact hfrom

theorem Failure.message_noted {f : Failure} (h : ¬ f.IsOverrun) (note : Note) :
    (f.noted note).message = note.text ++ ": " ++ f.message := by
  rw [Failure.noted_of_not_overrun h]
  unfold Failure.message
  obtain ⟨first, rest, hne⟩ := List.exists_cons_of_ne_nil
    (List.append_ne_nil_of_right_ne_nil (f.notes.map Note.text) (List.cons_ne_nil f.root.text []))
  simp only [List.map_cons, List.cons_append]
  rw [hne, String.intercalate_cons_cons]

theorem Failure.noted_ne_of_cause (f : Failure) (note : Note) (c : Cause) :
    f.noted note ≠ .of c [] := by
  intro h
  by_cases ho : f.IsOverrun
  · rw [ho.noted_eq] at h
    obtain ⟨o, hroot⟩ := ho
    rw [h] at hroot
    cases hroot
  · rw [Failure.noted_of_not_overrun ho] at h
    cases congrArg Failure.notes h

end Sequence

section Batches

variable {α R : Type} [Element α] [Quantity R]

/-- The outcome is the failure of program `i`, which is its own with the index in front and not that
of the flag; on one place no program before it fails. -/
structure Batch.Reports (s : Settings α R) (limit : Nat) (programs : List (Option (Program R)))
    (outcome : Except Failure (List (Option (Processor α R)))) (i : Fin programs.length)
    (own : Failure) : Prop where
  fails : compile s (programs.get i) = .error own
  outcome_eq : outcome = .error (own.noted (.program i))
  message : ¬ own.IsOverrun →
    (own.noted (.program i)).message = s!"circuit {i.val}" ++ ": " ++ own.message
  not_cancelled : own.noted (.program i) ≠ .of .cancelled []
  least : limit = 1 → ∀ j < i, ∃ proc, compile s (programs.get j) = .ok proc

variable {s : Settings α R} {limit : Nat} {programs : List (Option (Program R))}
  {outcome : Except Failure (List (Option (Processor α R)))}

theorem Batch.BlamedOn.reports {i : Fin programs.length} {f : Failure}
    (h : Batch.BlamedOn s limit programs i f) :
    ∃ own, Batch.Reports s limit programs (.error f) i own := by
  obtain ⟨own, hfails, rfl⟩ := h.own
  exact ⟨own, hfails, rfl, fun ho => Failure.message_noted ho _, own.noted_ne_of_cause _ _, h.least⟩

theorem Batch.Yields.cases (h : Batch.Yields s limit programs false outcome) :
    (∃ procs : List (Processor α R), programs.map (compile s) = procs.map .ok ∧
        outcome = .ok (procs.map some)) ∨
      ∃ i own, Batch.Reports s limit programs outcome i own := by
  obtain ⟨b, hrun, hends⟩ := h
  obtain hall | ⟨i, f, hblamed, rfl⟩ := (Batch.consistent_of_run hrun).outcome hends
  · exact .inl hall
  · exact .inr ⟨i, hblamed.reports⟩

theorem compile_get_ne_error {procs : List (Processor α R)}
    (h : programs.map (compile s) = procs.map .ok) (i : Fin programs.length) (f : Failure) :
    compile s (programs.get i) ≠ .error f := by
  intro hf
  have hmem : compile s (programs.get i) ∈ procs.map .ok :=
    h ▸ List.mem_map_of_mem (List.get_mem programs i)
  obtain ⟨proc, _, hproc⟩ := List.mem_map.mp hmem
  rw [hf] at hproc
  cases hproc

/-- Under every schedule a batch ends, and as compiling its programs one by one does: with all
processors in input order if all programs compile, otherwise with the failure of some program that
fails, on one place the first. A batch that is cancelled before it starts says so. -/
theorem batch_agrees_under_every_schedule (s : Settings α R) {limit : Nat} (hlimit : 0 < limit)
    (programs : List (Option (Program R))) :
    (∀ b, ∃ c outcome, Relation.ReflTransGen (Batch.Step s limit programs) b c ∧
      Batch.Ends s programs c outcome) ∧
    (WellFounded fun c b => Batch.Step s limit programs b c) ∧
    (∀ outcome, Batch.Yields s limit programs false outcome →
      (∀ procs : List (Processor α R), programs.map (compile s) = procs.map .ok →
        outcome = .ok (procs.map some)) ∧
      (∀ k f, compile s (programs.get k) = .error f →
        ∃ i own, Batch.Reports s limit programs outcome i own) ∧
      (limit = 1 → outcome = (compileAll s false programs).map (List.map some))) ∧
    (programs ≠ [] → ∀ outcome, Batch.Yields s limit programs true outcome →
      outcome = .error (.of .cancelled [])) := by
  refine ⟨Batch.exists_end hlimit, Batch.wellFounded_step s limit programs, ?_, ?_⟩
  · intro outcome h
    obtain ⟨procs, hall, rfl⟩ | ⟨i, own, hreports⟩ := h.cases
    · refine ⟨fun others hothers => ?_, fun k f hf => ?_, fun _ => ?_⟩
      · rw [List.map_injective_iff.mpr (fun _ _ => Except.ok.inj) (hall.symm.trans hothers)]
      · exact absurd hf (compile_get_ne_error hall k f)
      · rw [show compileAll s false programs = .ok procs from compileFrom_of_all hall 0]
        rfl
    · refine ⟨fun procs hall => ?_, fun _ _ _ => ⟨i, own, hreports⟩, fun hl => ?_⟩
      · exact absurd hreports.fails (compile_get_ne_error hall i own)
      · rw [compileAll_of_least hreports.fails (hreports.least hl), hreports.outcome_eq]
        rfl
  · rintro hne outcome ⟨b, hrun, hends⟩
    exact (Batch.stopped_of_run hrun).outcome hne hends

end Batches

/-- Two tasks side by side, of which the second fails. -/
theorem batch_agrees_under_every_schedule_pair :
    ∃ f : Failure, f.gate? = some (1, "cx") ∧
      (∃ outcome, Batch.Yields (Settings.standard : Settings (Device ℝ) ℝ) 2
        [some Standard.sampleProgram, some (faultyProgram [])] false outcome) ∧
      ∀ outcome, Batch.Yields (Settings.standard : Settings (Device ℝ) ℝ) 2
        [some Standard.sampleProgram, some (faultyProgram [])] false outcome →
        outcome = .error (f.noted (.program 1)) := by
  obtain ⟨f, hf, _, hgate⟩ := compile_faultyProgram []
  obtain ⟨proc, hproc⟩ := Standard.compile_sampleProgram
  obtain ⟨hends, _, houtcome, _⟩ := batch_agrees_under_every_schedule
    (Settings.standard : Settings (Device ℝ) ℝ) Nat.two_pos
    [some Standard.sampleProgram, some (faultyProgram [])]
  refine ⟨f, hgate, ?_, fun outcome h => ?_⟩
  · obtain ⟨c, outcome, hrun, hend⟩ := hends (Batch.start false)
    exact ⟨outcome, c, hrun, hend⟩
  · obtain ⟨i, own, hreports⟩ := (houtcome outcome h).2.1 1 f hf
    have hfails := hreports.fails
    rw [hreports.outcome_eq]
    match i with
    | 0 =>
      rw [List.get_cons_zero, hproc] at hfails
      cases hfails
    | 1 =>
      obtain rfl := Except.error.inj (hf.symm.trans hfails)
      rfl

end DualRail
