import Mathlib
import DualRail.Decimal.Reading
import DualRail.Decimal.Writing

/-!
Numbers in text: the characters they are written with, digits and signs as they are read, and words,
which read back from their text.
-/

namespace DualRail.Decimal

def isNumeral (c : Char) : Bool := c.isAlphanum || c == '.' || c == '+' || c == '-'

theorem isNumeral_of_isDigit {c : Char} (h : c.isDigit = true) : isNumeral c = true := by
  simp [isNumeral, Char.isAlphanum, h]

theorem isDigit_of_mem_ofNat {n : Nat} {shift : Int} {c : Char}
    (h : c ∈ (Digits.ofNat n shift).digits) : c.isDigit = true := by
  unfold Digits.ofNat at h
  rw [List.mem_reverse] at h
  have hmem := (List.dropWhile_sublist _).mem h
  rw [List.mem_reverse] at hmem
  exact Nat.isDigit_of_mem_toDigits (by decide) (by decide) hmem

theorem isDigit_of_mem_onGrid {value : Ratio} {b : Digits.Basin} {count : Nat} {d : Digits}
    (hd : Digits.onGrid? value b count = some d) : ∀ c ∈ d.digits, c.isDigit = true := by
  obtain ⟨n, _, rfl⟩ := Option.map_eq_some_iff.mp hd
  exact fun c => isDigit_of_mem_ofNat

theorem Digits.shortest_cases (coefficient : Nat) (exponent : Int) :
    (∃ count, onGrid? (magnitudeOf coefficient exponent) (basin coefficient exponent) count =
      some (shortest coefficient exponent)) ∨
      shortest coefficient exponent = rounded 17 (magnitudeOf coefficient exponent) := by
  simp only [shortest]
  cases hfind : (List.range 17).findSome? fun i => onGrid? (magnitudeOf coefficient exponent)
      (basin coefficient exponent) (i + 1) with
  | none => exact .inr rfl
  | some d =>
    obtain ⟨i, _, hd⟩ := List.exists_of_findSome?_eq_some hfind
    exact .inl ⟨i + 1, hd⟩

theorem isDigit_of_mem_shortest (coefficient : Nat) (exponent : Int) :
    ∀ c ∈ (Digits.shortest coefficient exponent).digits, c.isDigit = true := by
  rcases Digits.shortest_cases coefficient exponent with ⟨count, hgrid⟩ | hrounded
  · exact isDigit_of_mem_onGrid hgrid
  · rw [hrounded]
    exact fun c => isDigit_of_mem_ofNat

theorem isNumeral_exponentForm {d : Digits} (h : ∀ c ∈ d.digits, c.isDigit = true) :
    ∀ c ∈ (exponentForm d).toList, isNumeral c = true := by
  have hpower : ∀ c ∈ (toString d.exponent.natAbs).toList, isNumeral c = true := by
    intro c hc
    rw [Nat.toString_eq_repr, Nat.toList_repr] at hc
    exact isNumeral_of_isDigit (Nat.isDigit_of_mem_toDigits (by decide) (by decide) hc)
  have hdigits : ∀ c ∈ d.digits, isNumeral c = true := fun c hc => isNumeral_of_isDigit (h c hc)
  unfold exponentForm
  simp only [String.toList_append, List.forall_mem_append]
  refine ⟨⟨⟨?_, List.all_eq_true.mp (by decide)⟩, ?_⟩, ?_⟩
  · split
    · exact List.all_eq_true.mp (by decide)
    · rename_i hd
      simpa [hd] using hdigits
    · rename_i hd
      have hdot : isNumeral '.' = true := by decide
      simpa [hd, hdot] using hdigits
  · split <;> exact List.all_eq_true.mp (by decide)
  · split
    · rw [String.toList_append, List.forall_mem_append]
      exact ⟨List.all_eq_true.mp (by decide), hpower⟩
    · exact hpower

theorem isNumeral_positionalForm {d : Digits} (h : ∀ c ∈ d.digits, c.isDigit = true) :
    ∀ c ∈ (positionalForm d).toList, isNumeral c = true := by
  have hdigits : ∀ c ∈ d.digits, isNumeral c = true := fun c hc => isNumeral_of_isDigit (h c hc)
  have hzeros : ∀ n, ∀ c ∈ List.replicate n '0', isNumeral c = true := by
    intro n c hc
    rw [(List.mem_replicate.mp hc).2]
    decide
  have hdot : isNumeral '.' = true := by decide
  have hzero : isNumeral '0' = true := by decide
  unfold positionalForm
  split
  · rw [String.toList_ofList]
    intro c hc
    simp only [List.cons_append, List.mem_cons, List.mem_append] at hc
    rcases hc with rfl | rfl | hc | hc
    · exact hzero
    · exact hdot
    · exact hzeros _ c hc
    · exact hdigits c hc
  · have hfront : ∀ n k, ∀ c ∈ d.digits.take n ++ List.replicate k '0', isNumeral c = true := by
      intro n k c hc
      rcases List.mem_append.mp hc with hc | hc
      · exact hdigits c (List.mem_of_mem_take hc)
      · exact hzeros _ c hc
    simp only
    split
    · rw [String.toList_ofList]
      exact hfront _ _
    · rw [String.toList_ofList, List.forall_mem_append, List.forall_mem_cons]
      exact ⟨hfront _ _, hdot, fun c hc => hdigits c (List.mem_of_mem_drop hc)⟩

theorem isNumeral_shortest (x : Float) : ∀ c ∈ (shortest x).toList, isNumeral c = true := by
  unfold shortest written
  split
  · exact List.all_eq_true.mp (by decide)
  · rename_i negative _
    cases negative <;> exact List.all_eq_true.mp (by decide)
  · rename_i negative coefficient exponent _
    rw [String.toList_append, List.forall_mem_append]
    constructor
    · cases negative <;> exact List.all_eq_true.mp (by decide)
    · have hdigits := isDigit_of_mem_shortest coefficient exponent
      split
      · exact List.all_eq_true.mp (by decide)
      · change ∀ c ∈ (windowed 6 (Digits.shortest coefficient exponent)).toList, _
        unfold windowed
        split
        · exact isNumeral_exponentForm hdigits
        · exact isNumeral_positionalForm hdigits

theorem ne_of_isDigit {c d : Char} (hc : c.isDigit = true) (hd : d.isDigit = false) : c ≠ d := by
  rintro rfl
  rw [hc] at hd
  cases hd

def digit (c : Char) : Nat := c.toNat - '0'.toNat

theorem digitValue?_of_isDigit {c : Char} (h : c.isDigit = true) :
    digitValue? c = some (digit c) ∧ digit c < 10 := by
  refine ⟨if_pos h, ?_⟩
  have hle : c.toNat ≤ 57 := (Char.isDigit_iff_toNat.mp h).2
  change c.toNat - 48 < 10
  omega

theorem natOfDigits?_eq {cs : List Char} (h : ∀ c ∈ cs, c.isDigit = true) :
    natOfDigits? 10 cs = some (Nat.ofDigitChars 10 cs 0) := by
  have hfold : ∀ n : Nat, cs.foldl (fun acc c => do
      let n ← acc
      let d ← digitValue? c
      if d < 10 then some (n * 10 + d) else none) (some n) = some (Nat.ofDigitChars 10 cs n) := by
    induction cs with
    | nil => exact fun n => rfl
    | cons c cs ih =>
      intro n
      obtain ⟨hc, hcs⟩ := List.forall_mem_cons.mp h
      obtain ⟨hvalue, hlt⟩ := digitValue?_of_isDigit hc
      rw [List.foldl_cons, Nat.ofDigitChars_cons, Nat.mul_comm 10 n, ← ih hcs]
      simp only [hvalue, Option.bind_eq_bind, Option.bind_some, if_pos hlt]
      rfl
  exact hfold 0

theorem isDigit_of_mem_digits {m : Nat} {c : Char} (h : c ∈ Nat.toDigits 10 m) :
    c.isDigit = true :=
  Nat.isDigit_of_mem_toDigits (by decide) (by decide) h

theorem natOfDigits?_toDigits (m : Nat) : natOfDigits? 10 (Nat.toDigits 10 m) = some m := by
  rw [natOfDigits?_eq fun c => isDigit_of_mem_digits,
    Nat.ofDigitChars_toDigits (by decide) (by decide)]

theorem takeSign_of_isDigit {c : Char} (hc : c.isDigit = true) (rest : List Char) :
    takeSign (c :: rest) = (false, c :: rest) := by
  unfold takeSign
  split
  · rename_i heq
    rw [(List.cons.inj heq).1] at hc
    cases hc
  · rename_i heq
    rw [(List.cons.inj heq).1] at hc
    cases hc
  · rfl

theorem takeSign_digits (m : Nat) : takeSign (Nat.toDigits 10 m) = (false, Nat.toDigits 10 m) := by
  cases hd : Nat.toDigits 10 m with
  | nil => rfl
  | cons c rest => exact takeSign_of_isDigit (isDigit_of_mem_digits (hd ▸ List.mem_cons_self)) rest

theorem inRange_of_readInt? {cs : List Char} {q : Int} (h : readInt? cs = some q) :
    Word.InRange q := by
  unfold readInt? at h
  simp only at h
  split at h
  · cases h
  · obtain ⟨n, -, hword⟩ := Option.bind_eq_some_iff.mp h
    unfold inWord? at hword
    split at hword
    · rename_i hrange
      exact Option.some.inj hword ▸ hrange
    · cases hword

/-- A word is read from its text. -/
theorem readInt?_toString {q : Int} (h : Word.InRange q) :
    readInt? (toString q).toList = some q := by
  have hread : ∀ (negative : Bool) (m : Nat), Word.InRange (signed negative m) →
      (natOfDigits? 10 (Nat.toDigits 10 m)).bind (fun n => inWord? (signed negative n)) =
        some (signed negative m) := by
    intro negative m hword
    rw [natOfDigits?_toDigits, Option.bind_some, inWord?, if_pos hword]
  cases q with
  | ofNat m =>
    change readInt? (toString m).toList = _
    rw [Nat.toString_eq_repr, Nat.toList_repr, readInt?, takeSign_digits]
    simp only [List.isEmpty_iff, Nat.toDigits_ne_nil, if_false]
    exact hread false m h
  | negSucc m =>
    change readInt? ("-" ++ Nat.repr (m + 1)).toList = _
    rw [String.toList_append, Nat.toList_repr, readInt?]
    change (if (Nat.toDigits 10 (m + 1)).isEmpty = true then none else _) = _
    rw [if_neg (by simp)]
    exact hread true (m + 1) h

theorem isNumeral_toString (q : Int) :
    (toString q).toList ≠ [] ∧ ∀ c ∈ (toString q).toList, isNumeral c = true := by
  have hdigits : ∀ m, ∀ c ∈ Nat.toDigits 10 m, isNumeral c = true :=
    fun m c hc => isNumeral_of_isDigit (isDigit_of_mem_digits hc)
  cases q with
  | ofNat m =>
    change (toString m).toList ≠ [] ∧ ∀ c ∈ (toString m).toList, _
    rw [Nat.toString_eq_repr, Nat.toList_repr]
    exact ⟨Nat.toDigits_ne_nil, hdigits m⟩
  | negSucc m =>
    change ("-" ++ Nat.repr (m + 1)).toList ≠ [] ∧ ∀ c ∈ ("-" ++ Nat.repr (m + 1)).toList, _
    rw [String.toList_append, Nat.toList_repr]
    exact ⟨by simp, List.forall_mem_append.mpr ⟨List.all_eq_true.mp (by decide), hdigits _⟩⟩

end DualRail.Decimal
