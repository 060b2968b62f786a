import Mathlib
import DualRail.Program.Basic
import DualRail.Proofs.Defects
import DualRail.Proofs.GateGrammar
import DualRail.Proofs.NumberText

/-!
The compact text of gates. The text of a well-formed gate reads back as the gate exactly if its kind
has no blank and no opening parenthesis, and no closing one either where parameters follow: blanks
and parentheses part the pieces of the text, and nothing in a kind is escaped.
-/

namespace DualRail

namespace Text

theorem spaced_words {words : List (List Char)}
    (h : ∀ w ∈ words, w ≠ [] ∧ ∀ c ∈ w, isBlank c = false) :
    Spaced (words.flatMap (' ' :: ·)) words := by
  induction words with
  | nil => exact .blank (by simp)
  | cons w ws ih =>
    obtain ⟨⟨hne, hw⟩, hws⟩ := List.forall_mem_cons.mp h
    refine @Spaced.word [' '] _ _ _ (List.all_eq_true.mp (by decide)) hne hw ?_ (ih hws)
    cases ws with
    | nil => simp
    | cons v ws => exact fun c hc => Option.some.inj hc ▸ (by decide)

theorem mem_intercalate {sep c : Char} {pieces : List (List Char)}
    (h : c ∈ [sep].intercalate pieces) : c = sep ∨ ∃ p ∈ pieces, c ∈ p := by
  induction pieces with
  | nil => cases h
  | cons p ps ih =>
    cases ps with
    | nil =>
      rw [List.intercalate_singleton] at h
      exact .inr ⟨p, List.mem_cons_self, h⟩
    | cons q qs =>
      rw [List.intercalate_cons_cons, List.append_assoc, List.mem_append, List.mem_append,
        List.mem_singleton] at h
      rcases h with h | h | h
      · exact .inr ⟨p, List.mem_cons_self, h⟩
      · exact .inl h
      · obtain heq | ⟨r, hr, hc⟩ := ih h
        · exact .inl heq
        · exact .inr ⟨r, List.mem_cons_of_mem _ hr, hc⟩

theorem trim_of_blankless {cs : List Char} (h : ∀ c ∈ cs, isBlank c = false) : trim cs = cs :=
  trim_eq_self (fun c hc => h c (List.mem_of_mem_head? hc))
    fun c hc => h c (List.mem_of_mem_getLast? hc)

end Text

theorem Decimal.inner_of_isNumeral {c : Char} (h : isNumeral c = true) :
    Text.isBlank c = false ∧ c ≠ ',' ∧ c ≠ ')' := by
  have hnum : (48 ≤ c.toNat ∧ c.toNat ≤ 57) ∨ (65 ≤ c.toNat ∧ c.toNat ≤ 90) ∨
      (97 ≤ c.toNat ∧ c.toNat ≤ 122) ∨ c.toNat = 46 ∨ c.toNat = 43 ∨ c.toNat = 45 := by
    simp only [isNumeral, Char.isAlphanum, Char.isAlpha, Char.isUpper, Char.isLower, Char.isDigit,
      Bool.or_eq_true, Bool.and_eq_true, decide_eq_true_eq, beq_iff_eq, UInt32.le_iff_toNat_le,
      ge_iff_le] at h
    rcases h with (((h | h) | rfl) | rfl) | rfl
    · change 65 ≤ c.toNat ∧ c.toNat ≤ 90 ∨ 97 ≤ c.toNat ∧ c.toNat ≤ 122 at h
      omega
    · change 48 ≤ c.toNat ∧ c.toNat ≤ 57 at h
      omega
    all_goals decide
  refine ⟨?_, ?_, ?_⟩
  · simp only [Text.isBlank, Bool.or_eq_false_iff, Bool.and_eq_false_iff, decide_eq_false_iff_not,
      beq_eq_false_iff_ne]
    omega
  · rintro rfl
    revert hnum
    decide
  · rintro rfl
    revert hnum
    decide

namespace Gate

/-- The kind has nothing that cuts it: no blank, no opening parenthesis, and before parameters no
closing one. -/
def Readable {R : Type} (g : Gate R) : Prop :=
  (∀ c ∈ g.kind.toList, Text.isBlank c = false ∧ c ≠ '(') ∧
    (g.params ≠ [] → ')' ∉ g.kind.toList)

instance {R : Type} [DecidableEq R] (g : Gate R) : Decidable g.Readable :=
  @instDecidableAnd _ _ (List.decidableBAll _ _) inferInstance

def words (g : Gate Float) : List (List Char) := g.qubits.map fun q => (toString q).toList

def pieces (g : Gate Float) : List (List Char) :=
  g.params.map fun x => (Decimal.shortest x).toList

def paramText (g : Gate Float) : List Char :=
  if g.params.isEmpty then [] else '(' :: [','].intercalate g.pieces ++ [')']

theorem toList_text (g : Gate Float) :
    g.text.toList = g.kind.toList ++ g.paramText ++ g.words.flatMap (' ' :: ·) := by
  unfold text paramText words pieces
  simp only [String.toList_append, String.toList_join, List.flatMap_map]
  congr 2
  split
  · rfl
  · simp only [String.toList_append, String.toList_intercalate, List.map_map]
    rfl

theorem readable_of_parse {s : String} {g : Gate Float} (h : parse s = .ok g) : g.Readable := by
  obtain ⟨c, _, hc⟩ := exists_spells_of_parse h
  refine ⟨hc.kind ▸ hc.lawful.kind, fun hne => ?_⟩
  cases hlist : c.list with
  | none =>
    have hnil : ∀ {params}, Cut.HasParams none params → params = [] := by
      rintro _ ⟨⟩
      rfl
    exact absurd (hnil (hlist ▸ hc.params)) hne
  | some list => exact hc.kind ▸ (hc.lawful.closed list hlist).1

section Written

variable {g : Gate Float} {n : Int}

theorem parts_of_faults (h : g.faults n = []) :
    g.kind.toList ≠ [] ∧ ∀ q ∈ g.qubits, 0 ≤ q ∧ q < n := by
  unfold faults at h
  split at h
  · cases h
  · rename_i hkind
    split at h
    · cases h
    · refine ⟨fun hnil => ?_, ?_⟩
      · rw [hnil] at hkind
        exact hkind rfl
      · exact (operandFaults_eq_nil_iff.mp (List.append_eq_nil_iff.mp h).1).1

theorem words_blankless :
    ∀ w ∈ g.words, w ≠ [] ∧ ∀ c ∈ w, Text.isBlank c = false := by
  intro w hw
  obtain ⟨q, _, rfl⟩ := List.mem_map.mp hw
  obtain ⟨hne, hnumeral⟩ := Decimal.isNumeral_toString q
  exact ⟨hne, fun c hc => (Decimal.inner_of_isNumeral (hnumeral c hc)).1⟩

theorem pieces_inner : ∀ p ∈ g.pieces, ∀ c ∈ p, Text.isBlank c = false ∧ c ≠ ',' ∧ c ≠ ')' := by
  intro p hp c hc
  obtain ⟨x, _, rfl⟩ := List.mem_map.mp hp
  exact Decimal.inner_of_isNumeral (Decimal.isNumeral_shortest x c hc)

def written (g : Gate Float) : Cut where
  lead := []
  kind := g.kind.toList
  list := if g.params.isEmpty then none else some ([','].intercalate g.pieces)
  rest := g.words.flatMap (' ' :: ·)

theorem text_written (g : Gate Float) : g.written.text = g.text.toList := by
  rw [toList_text]
  unfold Cut.text Cut.body written paramText
  split
  · simp [Cut.listText]
  · simp [Cut.listText]

theorem lawful_written (hr : g.Readable) (hkind : g.kind.toList ≠ []) : g.written.Lawful where
  lead := by simp [written]
  kind_ne_nil := hkind
  kind := hr.1
  bare := by
    intro _ x hx
    cases hwords : g.words with
    | nil =>
      rw [written, hwords] at hx
      cases hx
    | cons w ws =>
      rw [written, hwords] at hx
      exact Option.some.inj hx ▸ (by decide)
  closed := by
    intro list hlist
    by_cases hnone : g.params.isEmpty = true
    · rw [written, if_pos hnone] at hlist
      cases hlist
    · rw [written, if_neg hnone] at hlist
      obtain rfl := Option.some.inj hlist
      refine ⟨hr.2 (by simpa using hnone), fun hmem => ?_⟩
      obtain heq | ⟨p, hp, hc⟩ := Text.mem_intercalate hmem
      · cases heq
      · exact (pieces_inner p hp ')' hc).2.2 rfl

theorem hasParams_written
    (hp : ∀ x ∈ g.params, Decimal.readFloat? (Decimal.shortest x).toList = some x) :
    Cut.HasParams g.written.list g.params := by
  by_cases hnone : g.params.isEmpty = true
  · rw [written, if_pos hnone, List.isEmpty_iff.mp hnone]
    exact .absent
  · rw [written, if_neg hnone]
    refine .items ?_ (fun p hp hc => (pieces_inner p hp ',' hc).2.1 rfl) ?_
    · simpa [pieces] using hnone
    · rw [pieces, List.forall₂_map_left_iff, List.forall₂_same]
      intro x hx
      have hinner := pieces_inner _ (List.mem_map_of_mem hx)
      rw [Text.trim_of_blankless fun c hc => (hinner c hc).1, hp x hx]

theorem hasQubits_written (h : ∀ q ∈ g.qubits, Word.InRange q) :
    Cut.HasQubits g.written.rest g.qubits := by
  refine ⟨g.words, Text.spaced_words words_blankless, ?_⟩
  rw [words, List.forall₂_map_left_iff, List.forall₂_same]
  exact fun q hq => Decimal.readInt?_toString (h q hq)

theorem parse_text (hr : g.Readable) (hkind : g.kind.toList ≠ [])
    (hq : ∀ q ∈ g.qubits, Word.InRange q)
    (hp : ∀ x ∈ g.params, Decimal.readFloat? (Decimal.shortest x).toList = some x) :
    parse g.text = .ok g :=
  parse_of_spells g.text_written
    ⟨lawful_written hr hkind, rfl, hasParams_written hp, hasQubits_written hq⟩

/-- The text of a gate without faults, with parameters that read back, reads back as the gate
exactly if the kind has nothing that cuts it. -/
theorem parse_text_iff (hn : n ≤ Word.max) (hg : g.faults n = [])
    (hp : ∀ x ∈ g.params, Decimal.readFloat? (Decimal.shortest x).toList = some x) :
    parse g.text = .ok g ↔ g.Readable := by
  refine ⟨readable_of_parse, fun hr => ?_⟩
  obtain ⟨hkind, hrange⟩ := parts_of_faults hg
  refine parse_text hr hkind (fun q hq => ?_) hp
  obtain ⟨hpos, hlt⟩ := hrange q hq
  exact ⟨by unfold Word.min; omega, by omega⟩

end Written

end Gate

end DualRail
