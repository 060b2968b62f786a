import DualRail.Proofs.ShortestDigits

/-!
The text of a double reads back as the double. Both notations spell the digits as a numeral: digits
around a point, and possibly a power of ten. A numeral is read as the double nearest to the number
it stands for, and the digits of a double stand for a number in its basin. The bit pattern is put
together from the parts it was taken apart into.
-/

namespace DualRail.Decimal

theorem foldl_digits (ds : List Char) (n : Nat) :
    (ds.map digit).foldl (fun n d => n * 10 + d) n = Nat.ofDigitChars 10 ds n := by
  induction ds generalizing n with
  | nil => rfl
  | cons c ds ih =>
    rw [List.map_cons, List.foldl_cons, ih, Nat.ofDigitChars_cons, Nat.mul_comm]
    rfl

def decimals : List Char → List Char
  | [] => []
  | back => '.' :: back

theorem decimals_of_ne_nil {back : List Char} (h : back ≠ []) : decimals back = '.' :: back := by
  cases back with
  | nil => exact absurd rfl h
  | cons c back => rfl

inductive Scales : List Char → Int → Prop where
  | none : Scales [] 0
  | power {cs : List Char} {e : Int} (h : readExponent? cs = some e) : Scales ('e' :: cs) e

namespace Mantissa

variable {ds rest : List Char}

theorem read_digits (h : ∀ c ∈ ds, c.isDigit = true) (acc : List Nat) (dotted : Bool) (places : Nat)
    (hplaces : dotted = false → places = 0) :
    read 10 ⟨acc, places, dotted, []⟩ (ds ++ rest) =
      read 10 ⟨(ds.map digit).reverse ++ acc, if dotted then places + ds.length else 0, dotted, []⟩
        rest := by
  induction ds generalizing acc places with
  | nil =>
    cases dotted with
    | false => rw [hplaces rfl]; rfl
    | true => rfl
  | cons c ds ih =>
    obtain ⟨hc, hds⟩ := List.forall_mem_cons.mp h
    obtain ⟨hvalue, hlt⟩ := digitValue?_of_isDigit hc
    have hpoint : (decide (c = '.') && !dotted) = false := by
      rw [decide_eq_false (ne_of_isDigit hc (by decide)), Bool.false_and]
    rw [List.cons_append, read, if_neg (ne_of_isDigit hc (by decide)), hpoint,
      if_neg Bool.false_ne_true, hvalue]
    simp only [if_pos hlt]
    rw [ih hds _ _ (by rintro rfl; rfl), List.map_cons, List.reverse_cons, List.append_assoc,
      List.length_cons]
    cases dotted with
    | false => rfl
    | true => simp only [if_true, Nat.add_right_comm places 1, Nat.add_assoc, List.singleton_append]

theorem read_point (acc : List Nat) :
    read 10 ⟨acc, 0, false, []⟩ ('.' :: rest) = read 10 ⟨acc, 0, true, []⟩ rest :=
  rfl

theorem read_end (m : Mantissa) {e : Int} (h : Scales rest e) :
    read 10 m rest = { m with digits := m.digits.reverse, rest := rest } := by
  cases h with
  | none => rfl
  | power h =>
    rw [read, if_neg (by decide), if_neg (by simp)]
    rfl

theorem read_numeral {front back : List Char} (hfront : ∀ c ∈ front, c.isDigit = true)
    (hback : ∀ c ∈ back, c.isDigit = true) {e : Int} (hrest : Scales rest e) :
    read 10 {} (front ++ (decimals back ++ rest)) =
      ⟨(front ++ back).map digit, back.length, decide (back ≠ []), rest⟩ := by
  rw [read_digits hfront [] false 0 fun _ => rfl]
  cases back with
  | nil =>
    change read 10 _ rest = _
    rw [read_end _ hrest]
    simp
  | cons c back =>
    change read 10 ⟨_, 0, false, []⟩ ('.' :: ((c :: back) ++ rest)) = _
    rw [read_point, read_digits hback _ true 0 (by intro h; cases h), read_end _ hrest]
    simp

end Mantissa

def unmarked (c : Char) : Bool := !(c.toLower == 'x') && c != '_'

theorem toLower_of_isDigit {c : Char} (h : c.isDigit = true) : c.toLower = c := by
  obtain ⟨hlow, hhigh⟩ := Char.isDigit_iff_toNat.mp h
  rw [← Char.ofNat_toNat c]
  generalize c.toNat = n at hlow hhigh
  change 48 ≤ n at hlow
  change n ≤ 57 at hhigh
  interval_cases n <;> rfl

theorem unmarked_of_isDigit {c : Char} (h : c.isDigit = true) : unmarked c = true := by
  rw [unmarked, toLower_of_isDigit h, Bool.and_eq_true, bne_iff_ne, Bool.not_eq_true',
    beq_eq_false_iff_ne]
  exact ⟨ne_of_isDigit h (by decide), ne_of_isDigit h (by decide)⟩

theorem readDigits?_of_read {cs : List Char} {m : Mantissa} {e : Int} (negative : Bool)
    (hmarks : ∀ c ∈ cs, unmarked c = true) (hread : Mantissa.read 10 {} cs = m)
    (hdigits : m.digits ≠ []) (hrest : Scales m.rest e) :
    readDigits? negative cs = decimal? negative (m.value 10) (e - m.places) := by
  have hplain : cs.contains '_' = false := by
    rw [List.contains_eq_mem, decide_eq_false_iff_not]
    exact fun hmem => absurd (hmarks _ hmem) (by decide)
  have hdecimal : ∀ x ∈ cs, (x.toLower == 'x') = false := by
    intro x hx
    have hx := hmarks x hx
    rw [unmarked, Bool.and_eq_true] at hx
    exact Bool.not_eq_true' _ ▸ hx.1
  have hempty : m.digits.isEmpty = false := by rwa [List.isEmpty_eq_false_iff]
  unfold readDigits?
  split
  -- Whether the test for a hexadecimal mark looks at a character or not, it fails.
  all_goals
    simp only [hdecimal, List.mem_cons, true_or, or_true, Bool.false_eq_true, if_false, hread,
      hplain, Bool.not_false, Bool.true_or, hempty, Bool.not_true, Bool.or_false]
    generalize m.rest = rest at hrest ⊢
    cases hrest with
    | none => rfl
    | power h => exact congrArg (Option.bind · _) h

/-- Digits around a point, scaled by a power of ten, and the number that they stand for. -/
inductive Numeral : List Char → ℚ → Prop where
  | intro {front back rest : List Char} {e : Int} (nonempty : front ≠ [])
      (front_digits : ∀ c ∈ front, c.isDigit = true) (back_digits : ∀ c ∈ back, c.isDigit = true)
      (scales : Scales rest e) (plain : ∀ c ∈ rest, unmarked c = true) :
      Numeral (front ++ (decimals back ++ rest))
        (Nat.ofDigitChars 10 (front ++ back) 0 * 10 ^ (e - back.length))

theorem Numeral.exists_digit {cs : List Char} {v : ℚ} (h : Numeral cs v) :
    ∃ c rest, cs = c :: rest ∧ c.isDigit = true := by
  cases h with
  | @intro front _ _ _ nonempty front_digits =>
    cases front with
    | nil => exact absurd rfl nonempty
    | cons c front => exact ⟨c, _, rfl, front_digits c List.mem_cons_self⟩

theorem Numeral.readDigits?_eq {cs : List Char} {v : ℚ} (h : Numeral cs v) :
    ∃ (m : Nat) (k : Int), (m : ℚ) * 10 ^ k = v ∧
      ∀ negative, readDigits? negative cs = decimal? negative m k := by
  cases h with
  | @intro front back rest e nonempty front_digits back_digits scales plain =>
    refine ⟨_, _, rfl, fun negative => ?_⟩
    have hplain : ∀ c ∈ front ++ (decimals back ++ rest), unmarked c = true := by
      simp only [List.forall_mem_append]
      refine ⟨fun c hc => unmarked_of_isDigit (front_digits c hc), ?_, plain⟩
      cases back with
      | nil => exact fun c hc => absurd hc List.not_mem_nil
      | cons d back =>
        exact List.forall_mem_cons.mpr
          ⟨by decide, fun c hc => unmarked_of_isDigit (back_digits c hc)⟩
    have hread := Mantissa.read_numeral front_digits back_digits scales
    rw [readDigits?_of_read negative hplain hread _ scales, Mantissa.value, foldl_digits]
    simp [nonempty]

theorem exponentValue_eq {cs : List Char} (h : ∀ c ∈ cs, c.isDigit = true)
    (hsmall : Nat.ofDigitChars 10 cs 0 < 100000) :
    exponentValue cs = Nat.ofDigitChars 10 cs 0 := by
  unfold exponentValue
  generalize 0 = n at hsmall ⊢
  induction cs generalizing n with
  | nil => rfl
  | cons c cs ih =>
    obtain ⟨hc, hcs⟩ := List.forall_mem_cons.mp h
    rw [Nat.ofDigitChars_cons] at hsmall ⊢
    -- What is read so far is at most the whole, so it has not saturated.
    have hle : 10 * n + (c.toNat - '0'.toNat) ≤
        Nat.ofDigitChars 10 cs (10 * n + (c.toNat - '0'.toNat)) := by
      rw [Nat.ofDigitChars_eq_ofDigitChars_zero]
      exact (Nat.le_mul_of_pos_left _ (Nat.pow_pos (by decide))).trans (Nat.le_add_right _ _)
    rw [List.foldl_cons, if_neg (ne_of_isDigit hc (by decide)), if_pos (by omega), Nat.mul_comm n]
    exact ih hcs _ hsmall

def padded (n : Nat) : List Char :=
  if (Nat.toDigits 10 n).length < 2 then '0' :: Nat.toDigits 10 n else Nat.toDigits 10 n

theorem padded_spec (n : Nat) :
    padded n ≠ [] ∧ (∀ c ∈ padded n, c.isDigit = true) ∧ Nat.ofDigitChars 10 (padded n) 0 = n := by
  unfold padded
  split
  · exact ⟨List.cons_ne_nil _ _,
      List.forall_mem_cons.mpr ⟨by decide, fun c => isDigit_of_mem_digits⟩,
      Nat.ofDigitChars_cons.trans Nat.ofDigitChars_ten_toDigits⟩
  · exact ⟨Nat.toDigits_ne_nil, fun c => isDigit_of_mem_digits, Nat.ofDigitChars_ten_toDigits⟩

theorem readExponent?_padded {e : Int} (h : e.natAbs < 100000) :
    readExponent? ((if e < 0 then '-' else '+') :: padded e.natAbs) = some e := by
  obtain ⟨hne, hdigits, hvalue⟩ := padded_spec e.natAbs
  have hexp : exponentValue (padded e.natAbs) = e.natAbs := by
    rw [exponentValue_eq hdigits (by rwa [hvalue]), hvalue]
  have hsign : takeSign ((if e < 0 then '-' else '+') :: padded e.natAbs) =
      (decide (e < 0), padded e.natAbs) := by
    split
    · rename_i hneg
      rw [decide_eq_true hneg]
      rfl
    · rename_i hneg
      rw [decide_eq_false hneg]
      rfl
  have hsigned : signed (decide (e < 0)) e.natAbs = e := by
    unfold signed
    split
    · rename_i hneg
      rw [decide_eq_true_eq] at hneg
      omega
    · rename_i hneg
      rw [decide_eq_true_eq] at hneg
      omega
  unfold readExponent?
  rw [hsign]
  cases hpad : padded e.natAbs with
  | nil => exact absurd hpad hne
  | cons c cs =>
    rw [hpad] at hdigits hexp
    simp only
    rw [if_pos, hexp, hsigned]
    rw [Bool.and_eq_true, List.all_eq_true]
    exact ⟨hdigits c List.mem_cons_self, fun d hd => by rw [hdigits d hd, Bool.true_or]⟩

theorem toList_exponentForm (first : Char) (rest : List Char) (e : Int) :
    (exponentForm ⟨first :: rest, e⟩).toList =
      [first] ++ (decimals rest ++ 'e' :: (if e < 0 then '-' else '+') :: padded e.natAbs) := by
  have hsign : (if e < 0 then "-" else "+").toList = [if e < 0 then '-' else '+'] := by
    split <;> rfl
  have hpower : (toString e.natAbs).toList = Nat.toDigits 10 e.natAbs := by
    rw [Nat.toString_eq_repr, Nat.toList_repr]
  have hpadded : (if (toString e.natAbs).length < 2 then "0" ++ toString e.natAbs
      else toString e.natAbs).toList = padded e.natAbs := by
    unfold padded
    rw [← hpower, String.length_toList]
    split
    · rw [String.toList_append]
      rfl
    · rfl
  unfold exponentForm
  simp only [String.toList_append, hsign, hpadded]
  cases rest with
  | nil => simp [decimals]
  | cons c rest => simp [decimals]

theorem numeral_exponentForm {d : Digits} {v : ℚ} (hd : d.Spells v)
    (hsmall : d.exponent.natAbs < 100000) : Numeral (exponentForm d).toList v := by
  obtain ⟨digits, e⟩ := d
  cases digits with
  | nil => exact absurd rfl hd.nonempty
  | cons first rest =>
    obtain ⟨hfirst, hrest⟩ := List.forall_mem_cons.mp hd.digits
    obtain ⟨-, hpad, -⟩ := padded_spec e.natAbs
    have hvalue : v = Nat.ofDigitChars 10 ([first] ++ rest) 0 * 10 ^ (e - rest.length) := by
      rw [← hd.value, Digits.value]
      congr 2
      push_cast [List.length_cons]
      ring
    rw [toList_exponentForm, hvalue]
    refine .intro (List.cons_ne_nil _ _) (by simpa using hfirst) hrest
      (.power (readExponent?_padded hsmall)) ?_
    refine List.forall_mem_cons.mpr ⟨by decide, List.forall_mem_cons.mpr ⟨?_, ?_⟩⟩
    · split <;> decide
    · exact fun c hc => unmarked_of_isDigit (hpad c hc)

theorem isDigit_of_mem_zeros {n : Nat} {c : Char} (h : c ∈ List.replicate n '0') :
    c.isDigit = true := by
  rw [(List.mem_replicate.mp h).2]
  decide

theorem numeral_positionalForm_of_neg {d : Digits} {v : ℚ} (hd : d.Spells v)
    (hneg : d.exponent < 0) : Numeral (positionalForm d).toList v := by
  have hne : List.replicate (d.exponent.natAbs - 1) '0' ++ d.digits ≠ [] :=
    List.append_ne_nil_of_right_ne_nil _ hd.nonempty
  have htext : (positionalForm d).toList =
      ['0'] ++ (decimals (List.replicate (d.exponent.natAbs - 1) '0' ++ d.digits) ++ []) := by
    rw [positionalForm, if_pos hneg, String.toList_ofList, decimals_of_ne_nil hne, List.append_nil]
    rfl
  have hvalue : v = Nat.ofDigitChars 10
      (['0'] ++ (List.replicate (d.exponent.natAbs - 1) '0' ++ d.digits)) 0 *
        10 ^ ((0 : Int) - (List.replicate (d.exponent.natAbs - 1) '0' ++ d.digits).length) := by
    rw [← hd.value, Digits.value, Nat.ofDigitChars_append, Nat.ofDigitChars_append,
      List.length_append, List.length_replicate]
    congr 2
    · rw [Nat.ofDigitChars_replicate_zero]
      rfl
    · omega
  rw [htext, hvalue]
  refine .intro (List.cons_ne_nil _ _) (fun c => @isDigit_of_mem_zeros 1 c) ?_ .none (by simp)
  exact List.forall_mem_append.mpr ⟨fun c => isDigit_of_mem_zeros, hd.digits⟩

theorem numeral_positionalForm_of_nonneg {d : Digits} {v : ℚ} (hd : d.Spells v)
    (hnonneg : 0 ≤ d.exponent) : Numeral (positionalForm d).toList v := by
  let whole := d.exponent.toNat + 1
  let front := d.digits.take whole ++ List.replicate (whole - (d.digits.take whole).length) '0'
  have htext : (positionalForm d).toList = front ++ (decimals (d.digits.drop whole) ++ []) := by
    rw [positionalForm, if_neg (not_lt.mpr hnonneg), List.append_nil]
    simp only
    split
    · rename_i hdrop
      rw [String.toList_ofList, hdrop]
      exact (List.append_nil _).symm
    · rename_i hdrop
      rw [String.toList_ofList, decimals_of_ne_nil hdrop]
  have hvalue : v = Nat.ofDigitChars 10 (front ++ d.digits.drop whole) 0 *
      10 ^ ((0 : Int) - (d.digits.drop whole).length) := by
    rw [← hd.value, Digits.value]
    rcases Nat.le_total d.digits.length whole with hshort | hlong
    · have hfront : front = d.digits ++ List.replicate (whole - d.digits.length) '0' := by
        simp only [front, List.take_of_length_le hshort]
      rw [List.drop_of_length_le hshort, List.append_nil, hfront, Nat.ofDigitChars_append,
        Nat.ofDigitChars_replicate_zero]
      have hpower : d.exponent - d.digits.length + 1 = ((whole - d.digits.length : Nat) : Int) := by
        omega
      rw [hpower, zpow_natCast, List.length_nil, Nat.cast_zero, Int.sub_zero, zpow_zero]
      push_cast
      ring
    · have hfront : front = d.digits.take whole := by
        simp only [front, List.length_take_of_le hlong, Nat.sub_self, List.replicate_zero,
          List.append_nil]
      rw [hfront, List.take_append_drop, List.length_drop]
      congr 2
      omega
  rw [htext, hvalue]
  refine .intro ?_ ?_ (fun c hc => hd.digits c (List.mem_of_mem_drop hc)) .none (by simp)
  · refine List.append_ne_nil_of_left_ne_nil ?_ _
    cases hdigits : d.digits with
    | nil => exact absurd hdigits hd.nonempty
    | cons c rest => exact List.cons_ne_nil _ _
  · exact List.forall_mem_append.mpr
      ⟨fun c hc => hd.digits c (List.mem_of_mem_take hc), fun c => isDigit_of_mem_zeros⟩

theorem numeral_windowed {d : Digits} {v : ℚ} (hd : d.Spells v) (limit : Int)
    (hsmall : d.exponent.natAbs < 100000) : Numeral (windowed limit d).toList v := by
  unfold windowed
  split
  · exact numeral_exponentForm hd hsmall
  · rcases lt_or_ge d.exponent 0 with hneg | hnonneg
    · exact numeral_positionalForm_of_neg hd hneg
    · exact numeral_positionalForm_of_nonneg hd hnonneg

section Magnitudes

variable {c : Nat} {e : Int} {v : ℚ}

theorem InBasin.range (hc : IsDouble c e) (h : InBasin c e v) :
    (10 : ℚ) ^ (-324 : Int) < v ∧ v < (10 : ℚ) ^ (309 : Int) := by
  have htwo : (0 : ℚ) < 2 ^ e := zpow_pos (by norm_num) e
  have hpos : (1 : ℚ) ≤ c := by exact_mod_cast hc.pos
  have hlt : (c : ℚ) + 1 ≤ 2 * hidden := by exact_mod_cast hc.lt
  have hleast : (2 : ℚ) ^ 1075 < 10 ^ 324 := by
    exact_mod_cast (by decide +kernel : 2 ^ 1075 < 10 ^ 324)
  have hgreatest : (2 : ℚ) ^ 1024 < 10 ^ 309 := by
    exact_mod_cast (by decide +kernel : 2 ^ 1024 < 10 ^ 309)
  constructor
  · calc (10 : ℚ) ^ (-324 : Int) < 2 ^ (-1075 : Int) := by
          rw [zpow_neg, zpow_neg]
          exact inv_strictAnti₀ (by positivity) hleast
      _ ≤ 2 ^ (e - 1) := zpow_le_zpow_right₀ (by norm_num) (by have := hc.low; omega)
      _ = 1 / 2 * 2 ^ e := by rw [zpow_sub_one₀ (by norm_num)]; ring
      _ ≤ v := by
          rw [← le_div_iff₀ htwo]
          have := h.half
          linarith
  · calc v < 2 * hidden * 2 ^ e := by
          rw [← div_lt_iff₀ htwo]
          have := h.high
          linarith
      _ = 2 ^ (e + 1 + 52) := by rw [zpow_add_fiftytwo, zpow_add_one₀ (by norm_num)]; ring
      _ ≤ 2 ^ (1024 : Int) := zpow_le_zpow_right₀ (by norm_num) (by have := hc.high; omega)
      _ < 10 ^ (309 : Int) := hgreatest

theorem InBasin.exponent_bounds (hc : IsDouble c e) (h : InBasin c e v) {d : Digits}
    (hd : d.Spells v) : -325 < d.exponent ∧ d.exponent < 309 := by
  obtain ⟨hlow, hhigh⟩ := h.range hc
  have hlow' := (zpow_lt_zpow_iff_right₀ (by norm_num : (1 : ℚ) < 10)).mp (hlow.trans hd.high)
  have hhigh' := (zpow_lt_zpow_iff_right₀ (by norm_num : (1 : ℚ) < 10)).mp (hd.low.trans_lt hhigh)
  omega

theorem decimal?_of_inBasin (hc : IsDouble c e) {m : Nat} {k : Int}
    (h : InBasin c e (m * 10 ^ k)) (negative : Bool) :
    decimal? negative m k = some (floatOfBits negative ((e + 1074).toNat * hidden + c)) := by
  have hm := h.coefficient_pos hc
  obtain ⟨hlow, hhigh⟩ := h.exponent_bounds hc (Digits.ofNat_spells hm k)
  change -325 < k + (Ratio.digitCount 10 m : Int) - 1 at hlow
  change k + (Ratio.digitCount 10 m : Int) - 1 < 309 at hhigh
  have hvalue := @Ratio.value_scale_nat 10 (by decide) k m
  unfold decimal?
  simp only
  rw [if_neg, if_neg (by omega), nearest?, nearestMagnitude_of_inBasin hc
    (Ratio.den_scale_pos (by decide) Nat.zero_lt_one k) (hvalue ▸ h), Option.map_some]
  rw [Bool.or_eq_true, decide_eq_true_eq, decide_eq_true_eq]
  omega

end Magnitudes

theorem floatOfBits_of_toBits {x : Float} {negative : Bool} {n : Nat}
    (h : signBit negative + n = x.toBits.toNat) : floatOfBits negative n = x := by
  rw [floatOfBits, h, UInt64.ofNat_toNat, Float.ofBits_toBits]

theorem toBits_split (x : Float) :
    signBit (decide (Nat.pow 2 63 ≤ x.toBits.toNat)) +
      (x.toBits.toNat / hidden % 2048 * hidden + x.toBits.toNat % hidden) = x.toBits.toNat := by
  have hlt := x.toBits.toNat_lt
  generalize x.toBits.toNat = bits at hlt ⊢
  have hpow : Nat.pow 2 63 = 9223372036854775808 := rfl
  rw [signBit, hpow, hidden_eq]
  by_cases hneg : 9223372036854775808 ≤ bits
  · rw [if_pos (decide_eq_true hneg)]
    omega
  · rw [if_neg (by rw [decide_eq_true_eq]; exact hneg)]
    omega

theorem finite_of_parts {x : Float} {negative : Bool} {c : Nat} {e : Int}
    (h : Parts.ofFloat x = .finite negative c e) :
    floatOfBits negative ((e + 1074).toNat * hidden + c) = x ∧
      (c = 0 ∧ e = -1074 ∨ IsDouble c e) := by
  have hbits := toBits_split x
  have hfraction : x.toBits.toNat % hidden < hidden := Nat.mod_lt _ (by decide)
  have hfield : x.toBits.toNat / hidden % 2048 < 2048 := Nat.mod_lt _ (by decide)
  simp only [Parts.ofFloat] at h
  split at h
  · split at h <;> cases h
  · rename_i hfinite
    split at h
    · rename_i hzero
      cases h
      refine ⟨floatOfBits_of_toBits ?_, ?_⟩
      · rwa [hzero, Nat.zero_mul] at hbits
      · rcases Nat.eq_zero_or_pos (x.toBits.toNat % hidden) with heq | hpos
        · exact .inl ⟨heq, rfl⟩
        · exact .inr ⟨hpos, by omega, by omega, by omega, .inr rfl⟩
    · rename_i hnormal
      cases h
      refine ⟨floatOfBits_of_toBits ?_,
        .inr ⟨by omega, by omega, by omega, by omega, .inl (by omega)⟩⟩
      obtain ⟨f, hf⟩ := Nat.exists_eq_succ_of_ne_zero hnormal
      have hexp : ((x.toBits.toNat / hidden % 2048 : Nat) - 1075 + 1074 : Int).toNat = f := by omega
      rw [hf, Nat.succ_mul, Nat.add_assoc] at hbits
      rwa [hexp]

theorem infinity_of_parts {x : Float} {negative : Bool} (h : Parts.ofFloat x = .infinite negative) :
    infinity negative = x := by
  have hbits := toBits_split x
  simp only [Parts.ofFloat] at h
  split at h
  · rename_i hfield
    split at h
    · rename_i hfraction
      cases h
      rw [hfield, hfraction, Nat.add_zero] at hbits
      exact floatOfBits_of_toBits hbits
    · cases h
  · split at h <;> cases h

theorem nan_of_parts {x : Float} (h : Parts.ofFloat x = .nan) : nan = x := by
  have hfields : x.toBits.toNat / hidden % 2048 = 2047 ∧ x.toBits.toNat % hidden ≠ 0 := by
    simp only [Parts.ofFloat] at h
    split at h
    · rename_i hfield
      split at h
      · cases h
      · rename_i hfraction
        exact ⟨hfield, hfraction⟩
    · split at h <;> cases h
  have heq : x.toBits.toBitVec =
      Float.Model.UnpackedFloat.packedNaN Float.Model.Format.binary64 := by
    apply x.toModel.valid.eq_packedNaN
    · rw [Float.Model.UnpackedFloat.unpackExponent_def]
      apply BitVec.eq_of_toNat_eq
      rw [BitVec.extractLsb'_toNat, Nat.shiftRight_eq_div_pow]
      exact hfields.1
    · rw [Float.Model.UnpackedFloat.unpackMantissa_def]
      intro hzero
      have hnat := congrArg BitVec.toNat hzero
      rw [BitVec.extractLsb'_toNat, Nat.shiftRight_zero] at hnat
      exact hfields.2 hnat
  have hbits : nan.toBits = x.toBits := by
    have hnan : nan.toBits.toBitVec =
        Float.Model.UnpackedFloat.packedNaN Float.Model.Format.binary64 := by decide +kernel
    exact UInt64.toBitVec_inj.mp (hnan.trans heq.symm)
  rw [← Float.ofBits_toBits nan, hbits, Float.ofBits_toBits]

theorem named?_of_isDigit {c : Char} {rest : List Char} (hc : c.isDigit = true)
    (negative signed : Bool) : named? negative signed (c :: rest) = none := by
  have hname (d : Char) (ds : List Char) (hd : d.isDigit = false) :
      String.ofList ((c :: rest).map Char.toLower) ≠ String.ofList (d :: ds) := by
    intro heq
    have hcons := List.cons.inj (String.ofList_injective heq)
    rw [toLower_of_isDigit hc] at hcons
    exact ne_of_isDigit hc hd hcons.1
  have hinf := hname 'i' ['n', 'f'] (by decide)
  have hinfinity := hname 'i' ['n', 'f', 'i', 'n', 'i', 't', 'y'] (by decide)
  have hnan := hname 'n' ['a', 'n'] (by decide)
  unfold named?
  simp only
  rw [if_neg, if_neg]
  · rw [Bool.and_eq_true, decide_eq_true_eq]
    exact fun h => hnan h.1
  · rw [Bool.or_eq_true, decide_eq_true_eq, decide_eq_true_eq]
    exact fun h => h.elim hinf hinfinity

theorem readFloat?_numeral {cs : List Char} {v : ℚ} (h : Numeral cs v) (negative : Bool) :
    readFloat? ((signText negative).toList ++ cs) = readDigits? negative cs := by
  obtain ⟨c, rest, rfl, hc⟩ := h.exists_digit
  have hsign : takeSign ((signText negative).toList ++ c :: rest) = (negative, c :: rest) := by
    cases negative with
    | true => rfl
    | false => exact takeSign_of_isDigit hc rest
  unfold readFloat?
  rw [hsign]
  simp only [named?_of_isDigit hc, Option.none_or]

/-- The text of a double reads back as the double. -/
theorem readFloat?_shortest (x : Float) : readFloat? (shortest x).toList = some x := by
  unfold shortest written
  split
  · rename_i hparts
    rw [← nan_of_parts hparts]
    rfl
  · rename_i negative hparts
    rw [← infinity_of_parts hparts]
    cases negative <;> rfl
  · rename_i negative c e hparts
    obtain ⟨hbits, ⟨rfl, rfl⟩ | hdouble⟩ := finite_of_parts hparts
    · rw [← hbits]
      cases negative <;> rfl
    · obtain ⟨v, hspells, hin⟩ := Digits.shortest_spells hdouble
      obtain ⟨hlow, hhigh⟩ := hin.exponent_bounds hdouble hspells
      have hnumeral := numeral_windowed hspells 6 (by omega)
      obtain ⟨m, k, rfl, hread⟩ := hnumeral.readDigits?_eq
      rw [if_neg hdouble.pos.ne', String.toList_append, readFloat?_numeral hnumeral, hread,
        decimal?_of_inBasin hdouble hin, hbits]

end DualRail.Decimal
