import DualRail.Proofs.NearestDouble
import DualRail.Proofs.NumberText

/-!
The digits written for a double. Whatever grid the search stops at, the number it writes lies in the
basin of the double, and seventeen digits always do, so the digits are rounded back to the double.
-/

namespace DualRail.Decimal

namespace Digits

def value (d : Digits) : ℚ :=
  (Nat.ofDigitChars 10 d.digits 0 : ℚ) * 10 ^ (d.exponent - d.digits.length + 1)

/-- The digits are those of the number, and its first one stands at the exponent. -/
structure Spells (d : Digits) (v : ℚ) : Prop where
  nonempty : d.digits ≠ []
  digits : ∀ c ∈ d.digits, c.isDigit = true
  value : d.value = v
  low : (10 : ℚ) ^ d.exponent ≤ v
  high : v < (10 : ℚ) ^ (d.exponent + 1)

theorem exists_zeros (ds : List Char) :
    ∃ k, ds = (ds.reverse.dropWhile (· == '0')).reverse ++ List.replicate k '0' := by
  refine ⟨(ds.reverse.takeWhile (· == '0')).length, ?_⟩
  have hzeros : ds.reverse.takeWhile (· == '0') =
      List.replicate (ds.reverse.takeWhile (· == '0')).length '0' :=
    List.eq_replicate_iff.mpr ⟨rfl, fun c hc => by simpa using List.mem_takeWhile_imp hc⟩
  have hsplit := congrArg List.reverse
    (@List.takeWhile_append_dropWhile _ (· == '0') ds.reverse)
  rw [List.reverse_append, List.reverse_reverse, hzeros, List.reverse_replicate] at hsplit
  exact hsplit.symm

theorem ofNat_spells {n : Nat} (hn : 0 < n) (shift : Int) :
    (ofNat n shift).Spells (n * 10 ^ shift) := by
  have hlength : (Nat.toDigits 10 n).length = Ratio.digitCount 10 n := rfl
  obtain ⟨hlow, hhigh⟩ := Ratio.digitCount_bounds (by decide : 1 < 10) hn
  have hpos : 0 < Ratio.digitCount 10 n := Nat.length_toDigits_pos
  obtain ⟨k, hk⟩ := exists_zeros (Nat.toDigits 10 n)
  have hdigits : Nat.ofDigitChars 10 (ofNat n shift).digits 0 * 10 ^ k = n := by
    have hall := @Nat.ofDigitChars_toDigits 10 n (by decide) (by decide)
    rw [hk, Nat.ofDigitChars_append, Nat.ofDigitChars_replicate_zero] at hall
    rwa [Nat.mul_comm] at hall
  have hcount : (ofNat n shift).digits.length + k = Ratio.digitCount 10 n := by
    have := congrArg List.length hk
    rwa [List.length_append, List.length_replicate, eq_comm] at this
  have hexp : (ofNat n shift).exponent = shift + Ratio.digitCount 10 n - 1 := rfl
  refine ⟨?_, fun c => isDigit_of_mem_ofNat, ?_, ?_, ?_⟩
  · intro hnil
    rw [hnil, Nat.ofDigitChars_nil, Nat.zero_mul] at hdigits
    omega
  · have hpower : (ofNat n shift).exponent - (ofNat n shift).digits.length + 1 = k + shift := by
      omega
    rw [value, hpower, zpow_add₀ (by norm_num), zpow_natCast, ← mul_assoc]
    exact_mod_cast congrArg (fun m : Nat => (m : ℚ) * 10 ^ shift) hdigits
  · have hpower : (ofNat n shift).exponent = ((Ratio.digitCount 10 n - 1 : Nat) : Int) + shift := by
      omega
    rw [hpower, zpow_add₀ (by norm_num), zpow_natCast]
    have hlow' : (10 : ℚ) ^ (Ratio.digitCount 10 n - 1) ≤ n := by exact_mod_cast hlow
    gcongr
  · have hpower : (ofNat n shift).exponent + 1 = (Ratio.digitCount 10 n : Int) + shift := by omega
    rw [hpower, zpow_add₀ (by norm_num), zpow_natCast]
    have hhigh' : (n : ℚ) < (10 : ℚ) ^ Ratio.digitCount 10 n := by exact_mod_cast hhigh
    gcongr

end Digits

section Basins

variable {c : Nat} {e : Int}

/-- A number that is off by less than half a unit in the seventeenth digit is in the basin. -/
theorem inBasin_of_near (hc : IsDouble c e) {v : ℚ}
    (h : |v - c * 2 ^ e| ≤ c * 2 ^ e / (2 * 10 ^ 16)) : InBasin c e v := by
  have htwo : (0 : ℚ) < 2 ^ e := zpow_pos (by norm_num) e
  have hlt : (c : ℚ) + 1 ≤ 2 * hidden := by exact_mod_cast hc.lt
  have hnear : |v / 2 ^ e - c| ≤ c / (2 * 10 ^ 16) := by
    have hsplit : v / 2 ^ e - c = (v - c * 2 ^ e) / 2 ^ e := by field_simp
    rw [hsplit, abs_div, abs_of_pos htwo, div_le_iff₀ htwo]
    calc |v - c * 2 ^ e| ≤ c * 2 ^ e / (2 * 10 ^ 16) := h
      _ = c / (2 * 10 ^ 16) * 2 ^ e := by ring
  obtain ⟨hlow, hhigh⟩ := abs_le.mp hnear
  rw [hidden_eq] at hlt
  have hsmall : (c : ℚ) / (2 * 10 ^ 16) < 1 / 2 := by
    norm_num at hlt ⊢
    linarith
  refine ⟨?_, by linarith, fun _ => ⟨by linarith, by linarith⟩⟩
  rcases lowerReach_cases c e with heq | ⟨heq, hcoef, -⟩
  · rw [heq]
    push_cast
    linarith
  · rw [heq]
    have hquarter : (c : ℚ) / (2 * 10 ^ 16) < 1 / 4 := by
      rw [hcoef, hidden_eq]
      norm_num
    push_cast
    linarith

theorem Ratio.round_eq_floor_or (r : Ratio) : r.round = r.floor ∨ r.round = r.floor + 1 := by
  unfold Ratio.round Ratio.floor
  simp only
  split
  · exact .inl rfl
  · split
    · exact .inr rfl
    · omega

namespace Digits

theorem inBasin_of_onGrid? (hc : 0 < c) {r : Ratio} {count : Nat} {d : Digits}
    (h : onGrid? r (basin c e) count = some d) :
    ∃ (n : Nat) (shift : Int), d = ofNat n shift ∧ InBasin c e (n * 10 ^ shift) := by
  obtain ⟨n, hpick, rfl⟩ := Option.map_eq_some_iff.mp h
  refine ⟨n, _, rfl, ?_⟩
  have hpoint (m : Nat) (shift : Int)
      (hm : (basin c e).contains (Ratio.scale 10 shift ⟨m, 1⟩) = true) :
      InBasin c e (m * 10 ^ shift) := by
    have hden := @Ratio.den_scale_pos ⟨m, 1⟩ 10 (by decide) Nat.zero_lt_one shift
    have hin := (contains_basin_iff hden hc).mp hm
    rwa [Ratio.value_scale_nat (by decide)] at hin
  split at hpick
  · rename_i hlow hhigh
    cases hpick
    rcases Ratio.round_eq_floor_or (r.scale 10 (-(r.magnitude 10 - (count - 1))))
      with hround | hround
    · rw [hround]
      exact hpoint _ _ hlow
    · rw [hround]
      exact hpoint _ _ hhigh
  · rename_i hlow _
    cases hpick
    exact hpoint _ _ hlow
  · rename_i _ hhigh
    cases hpick
    exact hpoint _ _ hhigh
  · cases hpick

theorem inBasin_rounded (hc : IsDouble c e) :
    ∃ (n : Nat) (shift : Int),
      rounded 17 (magnitudeOf c e) = ofNat n shift ∧ InBasin c e (n * 10 ^ shift) := by
  refine ⟨_, _, rfl, inBasin_of_near hc ?_⟩
  have hvalue := value_magnitudeOf c e
  have hden := den_magnitudeOf_pos c e
  have hnum : 0 < (magnitudeOf c e).num := by
    have hpos := hc.pos
    refine Ratio.num_pos ?_
    rw [hvalue]
    positivity
  obtain ⟨hmag, -⟩ := Ratio.magnitude_bounds (by decide : 1 < 10) hnum hden
  rw [hvalue] at hmag
  generalize (magnitudeOf c e).magnitude 10 = top at hmag ⊢
  obtain ⟨hlow, hhigh⟩ := Ratio.round_bounds
    (@Ratio.den_scale_pos (magnitudeOf c e) 10 (by decide) hden (-(top - ((17 : Nat) - 1 : Int))))
  rw [Ratio.value_scale (by decide), hvalue, zpow_neg, ← div_eq_mul_inv] at hlow hhigh
  push_cast at hmag hlow hhigh ⊢
  have hpos : (0 : ℚ) < 10 ^ (top - 16) := zpow_pos (by norm_num) _
  have hunit : (10 : ℚ) ^ (top - 16) * 10 ^ 16 ≤ c * 2 ^ e := by
    rw [zpow_sub₀ (by norm_num)]
    norm_num
    exact hmag
  generalize (10 : ℚ) ^ (top - 16) = unit at *
  rw [le_div_iff₀ hpos] at hlow
  rw [div_le_iff₀ hpos] at hhigh
  rw [abs_le]
  constructor <;> linarith

theorem shortest_spells (hc : IsDouble c e) : ∃ v, (shortest c e).Spells v ∧ InBasin c e v := by
  have hsome : ∃ (n : Nat) (shift : Int),
      shortest c e = ofNat n shift ∧ InBasin c e (n * 10 ^ shift) := by
    rcases shortest_cases c e with ⟨count, hgrid⟩ | hrounded
    · exact inBasin_of_onGrid? hc.pos hgrid
    · rw [hrounded]
      exact inBasin_rounded hc
  obtain ⟨n, shift, heq, hin⟩ := hsome
  exact ⟨_, heq ▸ ofNat_spells (hin.coefficient_pos hc) shift, hin⟩

end Digits

end Basins

end DualRail.Decimal
