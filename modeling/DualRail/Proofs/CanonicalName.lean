import Mathlib
import DualRail.Catalog.Registry

/-!
Canonical names are settled: lower-casing takes no letter to another upper-case letter or to a
blank, so a name that was trimmed and lower-cased once stays as it is.
-/

namespace DualRail.Text

/-- The numbers `lo, lo + step … hi` avoid every number a run covers: they lie on one side of it, or
both go in steps of two and differ in parity. -/
def CaseRun.avoids (s : CaseRun) (lo hi step : Nat) : Bool :=
  Nat.blt hi s.first || Nat.blt s.last lo ||
    (Nat.beq s.step 2 && (Nat.beq step 2 || Nat.beq lo hi) && Nat.beq ((lo + s.first) % 2) 1)

def blankRuns : List CaseRun :=
  [⟨9, 13, 1, 0⟩, ⟨0x20, 0x20, 1, 0⟩, ⟨0x85, 0x85, 1, 0⟩, ⟨0xa0, 0xa0, 1, 0⟩,
    ⟨0x1680, 0x1680, 1, 0⟩, ⟨0x2000, 0x200a, 1, 0⟩, ⟨0x2028, 0x2029, 1, 0⟩,
    ⟨0x202f, 0x202f, 1, 0⟩, ⟨0x205f, 0x205f, 1, 0⟩, ⟨0x3000, 0x3000, 1, 0⟩]

def CaseRun.imageAvoids (r : CaseRun) (runs : List CaseRun) : Bool :=
  let lo := (r.first + r.shift).toNat
  let hi := (r.last + r.shift).toNat
  runs.all fun s => s.avoids lo hi r.step

theorem images_avoid :
    upperCaseRuns.all (fun r => decide (0 ≤ r.first + r.shift) &&
      r.imageAvoids upperCaseRuns && r.imageAvoids blankRuns) = true := by
  decide +kernel

theorem CaseRun.covers_eq_false_of_avoids {s : CaseRun} {lo hi step k : Nat}
    (h : s.avoids lo hi step = true) (hk : lo + k * step ≤ hi) :
    s.covers (lo + k * step) = false := by
  simp only [avoids, Bool.or_eq_true, Bool.and_eq_true, Nat.blt_eq, Nat.beq_eq] at h
  rw [Bool.eq_false_iff]
  intro hc
  simp only [covers, Bool.and_eq_true, decide_eq_true_eq, beq_iff_eq] at hc
  obtain ⟨⟨hlo, hhi⟩, hmod⟩ := hc
  rcases h with (h | h) | ⟨⟨htwo, h | h⟩, hparity⟩
  · omega
  · have : lo ≤ lo + k * step := Nat.le_add_right _ _
    omega
  · rw [htwo] at hmod
    rw [h] at hmod hlo
    omega
  · rw [htwo] at hmod
    have hzero : lo + k * step = lo := by
      have : lo ≤ lo + k * step := Nat.le_add_right _ _
      omega
    rw [hzero] at hmod hlo
    omega

/-- The image of a covered number is covered by no run of a list the images avoid. -/
theorem CaseRun.covers_image {r : CaseRun} {runs : List CaseRun} {n : Nat}
    (hpos : 0 ≤ r.first + r.shift) (h : r.imageAvoids runs = true)
    (hn : r.covers n = true) : ∀ s ∈ runs, s.covers ((n : Int) + r.shift).toNat = false := by
  intro s hs
  simp only [covers, Bool.and_eq_true, decide_eq_true_eq, beq_iff_eq] at hn
  obtain ⟨⟨hlo, hhi⟩, hmod⟩ := hn
  have hdiv := Nat.div_add_mod (n - r.first) r.step
  rw [hmod, Nat.add_zero, Nat.mul_comm] at hdiv
  have himage : ((n : Int) + r.shift).toNat =
      (r.first + r.shift).toNat + (n - r.first) / r.step * r.step := by
    omega
  have havoids := List.all_eq_true.mp h s hs
  rw [himage]
  exact covers_eq_false_of_avoids havoids (by omega)

theorem isBlank_eq_true {c : Char} (h : isBlank c = true) :
    ∃ s ∈ blankRuns, s.covers c.toNat = true := by
  simp only [isBlank, Bool.or_eq_true, Bool.and_eq_true, decide_eq_true_eq, beq_iff_eq] at h
  simp only [blankRuns, List.mem_cons, List.not_mem_nil, or_false, exists_eq_or_imp,
    exists_eq_left, CaseRun.covers, Bool.and_eq_true, decide_eq_true_eq, beq_iff_eq, Nat.mod_one,
    and_true]
  omega

theorem lowerCase_eq_self {c : Char} (h : ∀ r ∈ upperCaseRuns, r.covers c.toNat = false) :
    lowerCase c = c := by
  unfold lowerCase
  simp only
  split_ifs with hascii
  · have hupper := h ⟨0x41, 0x5a, 1, 32⟩ List.mem_cons_self
    simp only [CaseRun.covers, Nat.mod_one, beq_self_eq_true, Bool.and_true, Bool.and_eq_false_iff,
      decide_eq_false_iff_not] at hupper
    unfold Char.toLower
    rw [dif_neg]
    intro hc
    have h₁ : 65 ≤ c.toNat := UInt32.le_iff_toNat_le.mp hc.1
    have h₂ : c.toNat ≤ 90 := UInt32.le_iff_toNat_le.mp hc.2
    omega
  · have hnone : upperCaseRuns.find? (·.covers c.toNat) = none :=
      List.find?_eq_none.mpr fun r hr => by simp [h r hr]
    rw [hnone]

theorem settled_ofNat {n : Nat} (hup : ∀ r ∈ upperCaseRuns, r.covers n = false)
    (hblank : ∀ s ∈ blankRuns, s.covers n = false) :
    lowerCase (Char.ofNat n) = Char.ofNat n ∧ isBlank (Char.ofNat n) = false := by
  by_cases hn : n.isValidChar
  · have hto : (Char.ofNat n).toNat = n := by
      unfold Char.ofNat
      rw [dif_pos hn]
      simp [Char.ofNatAux, Char.toNat]
    refine ⟨lowerCase_eq_self fun r hr => by rw [hto]; exact hup r hr, ?_⟩
    rw [Bool.eq_false_iff]
    intro hb
    obtain ⟨s, hs, hc⟩ := isBlank_eq_true hb
    rw [hto, hblank s hs] at hc
    cases hc
  · have hzero : Char.ofNat n = '\x00' := by
      unfold Char.ofNat
      rw [dif_neg hn]
      rfl
    rw [hzero]
    decide

theorem ascii_settled :
    (List.range 0x80).all (fun n =>
      let c := lowerCase (Char.ofNat n)
      lowerCase c == c && (isBlank (Char.ofNat n) || !isBlank c)) = true := by
  decide +kernel

/-- What was lower-cased once stays, and letters do not become blanks. -/
theorem lowerCase_settled (c : Char) :
    lowerCase (lowerCase c) = lowerCase c ∧
      (isBlank c = false → isBlank (lowerCase c) = false) := by
  by_cases hascii : c.toNat < 0x80
  · have h := List.all_eq_true.mp ascii_settled c.toNat (List.mem_range.mpr hascii)
    rw [Char.ofNat_toNat] at h
    simp only [Bool.and_eq_true, beq_iff_eq, Bool.or_eq_true, Bool.not_eq_true'] at h
    refine ⟨h.1, fun hb => ?_⟩
    rcases h.2 with h | h
    · rw [hb] at h
      cases h
    · exact h
  · cases hr : upperCaseRuns.find? (·.covers c.toNat) with
    | none =>
      have hlow : lowerCase c = c := by
        rw [lowerCase, if_neg hascii, hr]
      rw [hlow]
      exact ⟨hlow, id⟩
    | some r =>
      have hlow : lowerCase c = Char.ofNat (c.toNat + r.shift).toNat := by
        rw [lowerCase, if_neg hascii, hr]
      have hmem := List.mem_of_find?_eq_some hr
      have hcov := List.find?_some hr
      have h := List.all_eq_true.mp images_avoid r hmem
      simp only [Bool.and_eq_true, decide_eq_true_eq] at h
      obtain ⟨⟨hpos, hup⟩, hblank⟩ := h
      have hset := settled_ofNat (CaseRun.covers_image hpos hup hcov)
        (CaseRun.covers_image hpos hblank hcov)
      rw [hlow]
      exact ⟨hset.1, fun _ => hset.2⟩

theorem trim_eq_self {cs : List Char} (hhead : ∀ c, cs.head? = some c → isBlank c = false)
    (hlast : ∀ c, cs.getLast? = some c → isBlank c = false) : trim cs = cs := by
  have hdrop : ∀ l : List Char, (∀ c, l.head? = some c → isBlank c = false) →
      l.dropWhile isBlank = l := by
    intro l hl
    cases l with
    | nil => rfl
    | cons c rest => simp [hl c rfl]
  unfold trim
  rw [hdrop cs hhead, hdrop cs.reverse, List.reverse_reverse]
  intro c hc
  rw [List.head?_reverse] at hc
  exact hlast c hc

theorem head?_trim {cs : List Char} {c : Char} (h : (trim cs).head? = some c) :
    isBlank c = false := by
  have hpre : trim cs <+: cs.dropWhile isBlank := by
    unfold trim
    rw [← List.reverse_suffix, List.reverse_reverse]
    exact List.dropWhile_suffix _
  obtain ⟨rest, hrest⟩ := hpre
  have hd := List.head?_dropWhile_not isBlank cs
  rw [← hrest, List.head?_append, h] at hd
  simpa using hd

theorem getLast?_trim {cs : List Char} {c : Char} (h : (trim cs).getLast? = some c) :
    isBlank c = false := by
  unfold trim at h
  rw [List.getLast?_reverse] at h
  have hd := List.head?_dropWhile_not isBlank (cs.dropWhile isBlank).reverse
  rw [h] at hd
  simpa using hd

theorem trim_eq_rdropWhile (cs : List Char) :
    trim cs = (cs.dropWhile isBlank).rdropWhile isBlank := rfl

theorem trim_blank_append {lead : List Char} (h : ∀ c ∈ lead, isBlank c = true)
    (cs : List Char) : trim (lead ++ cs) = trim cs := by
  unfold trim
  rw [List.dropWhile_append_of_pos h]

theorem trim_append_blank {trail : List Char} (h : ∀ c ∈ trail, isBlank c = true)
    (cs : List Char) : trim (cs ++ trail) = trim cs := by
  have htrail : ∀ c ∈ trail.reverse, isBlank c = true := fun c hc => h c (List.mem_reverse.mp hc)
  unfold trim
  rw [List.dropWhile_append]
  split
  · rename_i hnone
    rw [List.isEmpty_iff.mp hnone, List.dropWhile_eq_nil_iff.mpr h]
  · rw [List.reverse_append, List.dropWhile_append_of_pos htrail]

theorem exists_trim (cs : List Char) : ∃ lead trail, (∀ c ∈ lead, isBlank c = true) ∧
    (∀ c ∈ trail, isBlank c = true) ∧ cs = lead ++ (trim cs ++ trail) := by
  refine ⟨cs.takeWhile isBlank, (cs.dropWhile isBlank).rtakeWhile isBlank,
    fun c => List.mem_takeWhile_imp, fun c => List.mem_rtakeWhile_imp, ?_⟩
  rw [trim_eq_rdropWhile, List.rdropWhile_append_rtakeWhile, List.takeWhile_append_dropWhile]

theorem trim_eq_nil_iff {cs : List Char} : trim cs = [] ↔ ∀ c ∈ cs, isBlank c = true := by
  constructor
  · intro h
    obtain ⟨lead, trail, hlead, htrail, hcs⟩ := exists_trim cs
    rw [h, List.nil_append] at hcs
    rw [hcs, List.forall_mem_append]
    exact ⟨hlead, htrail⟩
  · intro h
    have htrim := trim_blank_append h []
    rwa [List.append_nil] at htrim

end DualRail.Text

namespace DualRail

theorem canonicalName_idem (name : String) :
    canonicalName (canonicalName name) = canonicalName name := by
  have hkeep : ∀ l : List Char, (l.map Text.lowerCase).map Text.lowerCase =
      l.map Text.lowerCase := by
    intro l
    rw [List.map_map]
    exact List.map_congr_left fun c _ => (Text.lowerCase_settled c).1
  have htrim : Text.trim ((Text.trim name.toList).map Text.lowerCase) =
      (Text.trim name.toList).map Text.lowerCase := by
    apply Text.trim_eq_self
    · intro c hc
      rw [List.head?_map, Option.map_eq_some_iff] at hc
      obtain ⟨d, hd, rfl⟩ := hc
      exact (Text.lowerCase_settled d).2 (Text.head?_trim hd)
    · intro c hc
      rw [List.getLast?_map, Option.map_eq_some_iff] at hc
      obtain ⟨d, hd, rfl⟩ := hc
      exact (Text.lowerCase_settled d).2 (Text.getLast?_trim hd)
  unfold canonicalName
  rw [String.toList_ofList, htrim, hkeep]

end DualRail
