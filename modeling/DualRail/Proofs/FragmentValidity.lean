import Mathlib
import DualRail.Catalog.Fragment
import DualRail.Proofs.Checked
import DualRail.Proofs.Doubles

/-!
What validation says of a fragment. It passes exactly the fragments whose pairs of operand modes lie
apart within the circuit, with counts and a probability in range, and it refuses the others, with
one exception. The end of a pair is computed as a word, so for the two greatest offsets it wraps
around and passes for small; if nothing was wrong before such a pair, looking up its modes runs out
of the fragment.
-/

namespace DualRail.Fragment

variable {α R : Type}

/-- The pairs of modes that start at the offsets lie within `width` modes and have none in
common. -/
structure Apart (width : Nat) (offsets : List Int) : Prop where
  inside : ∀ off ∈ offsets, ({off, off + 1} : Finset Int) ⊆ Finset.Ico 0 (width : Int)
  disjoint : offsets.Pairwise fun a b => Disjoint ({a, a + 1} : Finset Int) {b, b + 1}

/-- A pair at `off` lies within the fragment and has no mode of an earlier pair. -/
def Fits (width : Nat) (earlier : List Int) (off : Int) : Prop :=
  0 ≤ off ∧ off + 2 ≤ width ∧ ∀ e ∈ earlier, e + 2 ≤ off ∨ off + 2 ≤ e

/-- A pair at `off` lies outside the fragment, and the word that stands for its end does not show
it. -/
def EndWraps (width : Nat) (off : Int) : Prop := (width : Int) < off + 2 ∧ Word.max < off + 2

theorem inside_iff {width : Nat} {off : Int} :
    ({off, off + 1} : Finset Int) ⊆ Finset.Ico 0 (width : Int) ↔ 0 ≤ off ∧ off + 2 ≤ width := by
  simp only [Finset.insert_subset_iff, Finset.singleton_subset_iff, Finset.mem_Ico]
  omega

theorem disjoint_iff {a b : Int} :
    Disjoint ({a, a + 1} : Finset Int) {b, b + 1} ↔ a + 2 ≤ b ∨ b + 2 ≤ a := by
  simp only [Finset.disjoint_insert_left, Finset.disjoint_singleton_left, Finset.mem_insert,
    Finset.mem_singleton]
  omega

theorem apart_append_iff {width : Nat} {before : List Int} {off : Int} :
    Apart width (before ++ [off]) ↔ Apart width before ∧ Fits width before off := by
  constructor
  · rintro ⟨hinside, hdisjoint⟩
    obtain ⟨hbefore, _, hcross⟩ := List.pairwise_append.mp hdisjoint
    obtain ⟨hlow, hhigh⟩ := inside_iff.mp (hinside off (by simp))
    exact ⟨⟨fun x hx => hinside x (List.mem_append_left _ hx), hbefore⟩, hlow, hhigh,
      fun e he => disjoint_iff.mp (hcross e he off (List.mem_singleton_self off))⟩
  · rintro ⟨⟨hinside, hdisjoint⟩, hlow, hhigh, hbeside⟩
    refine ⟨fun x hx => ?_, List.pairwise_append.mpr ⟨hdisjoint, List.pairwise_singleton _ _, ?_⟩⟩
    · rcases List.mem_append.mp hx with hx | hx
      · exact hinside x hx
      · rw [List.mem_singleton.mp hx]
        exact inside_iff.mpr ⟨hlow, hhigh⟩
    · intro e he x hx
      rw [List.mem_singleton.mp hx]
      exact disjoint_iff.mpr (hbeside e he)

theorem Apart.fits {width : Nat} {before after : List Int} {off : Int}
    (h : Apart width (before ++ off :: after)) : Fits width before off := by
  rw [List.append_cons] at h
  have hfront : Apart width (before ++ [off]) :=
    ⟨fun x hx => h.inside x (List.mem_append_left _ hx), (List.pairwise_append.mp h.disjoint).1⟩
  exact (apart_append_iff.mp hfront).2

theorem Apart.first_unique {width : Nat} {fine fine' rest rest' : List Int} {off off' : Int}
    (hfine : Apart width fine) (hfine' : Apart width fine') (hoff : ¬ Fits width fine off)
    (hoff' : ¬ Fits width fine' off') (h : fine ++ off :: rest = fine' ++ off' :: rest') :
    off = off' := by
  rcases List.append_eq_append_iff.mp h with ⟨more, rfl, hmore⟩ | ⟨more, rfl, hmore⟩
  · cases more with
    | nil => exact (List.cons.inj hmore).1
    | cons x more =>
      obtain ⟨rfl, _⟩ := List.cons.inj hmore
      exact absurd hfine'.fits hoff
  · cases more with
    | nil => exact (List.cons.inj hmore).1.symm
    | cons x more =>
      obtain ⟨rfl, _⟩ := List.cons.inj hmore
      exact absurd hfine.fits hoff'

section Offsets

variable {name : String} {width i : Nat} {earlier rest : List Int} {off : Int}

theorem any_overlap_eq_false (h : ∀ e ∈ earlier, e + 2 ≤ off ∨ off + 2 ≤ e) :
    earlier.any (overlap off) = false := by
  rw [List.any_eq_false]
  intro e he
  have hbeside := h e he
  simp only [overlap, Bool.or_eq_true, beq_iff_eq]
  omega

theorem exists_overlap (hrange : 0 ≤ off ∧ off + 2 ≤ width) (h : ¬ Fits width earlier off) :
    earlier.any (overlap off) = true := by
  by_contra hnone
  refine h ⟨hrange.1, hrange.2, fun e he => ?_⟩
  have hapart := List.any_eq_false.mp (Bool.eq_false_iff.mpr hnone) e he
  simp only [overlap, Bool.or_eq_true, beq_iff_eq] at hapart
  omega

theorem not_fits_of_endWraps (h : EndWraps width off) : ¬ Fits width earlier off := by
  rintro ⟨_, hhigh, _⟩
  exact absurd h.1 (Int.not_lt.mpr hhigh)

theorem checkOffsets_of_fits (h : Fits width earlier off) :
    checkOffsets name width i earlier (off :: rest) =
      checkOffsets name width (i + 1) (off :: earlier) rest := by
  obtain ⟨hlow, hhigh, hbeside⟩ := h
  have hend : Word.wrap (off + 2) ≤ off + 2 := Word.wrap_le (by omega)
  rw [checkOffsets, if_neg, if_neg (Int.not_lt.mpr hhigh), any_overlap_eq_false hbeside,
    if_neg Bool.false_ne_true]
  simp only [Bool.or_eq_true, decide_eq_true_eq]
  omega

theorem fits_of_checkOffsets (h : checkOffsets name width i earlier (off :: rest) = .ok ()) :
    Fits width earlier off := by
  by_contra hfits
  rw [checkOffsets] at h
  by_cases hrange : 0 ≤ off ∧ off + 2 ≤ width
  · rw [exists_overlap hrange hfits, if_pos rfl, if_neg (Int.not_lt.mpr hrange.2), ite_self] at h
    cases h
  · split at h
    · cases h
    · rename_i hcheck
      rw [if_pos] at h
      · cases h
      · simp only [Bool.or_eq_true, decide_eq_true_eq, not_or, Int.not_lt] at hcheck
        omega

theorem checkOffsets_of_endWraps (hword : Word.InRange off) (h : EndWraps width off) :
    checkOffsets name width i earlier (off :: rest) = .error (.overrun (.index off width)) := by
  obtain ⟨houtside, hwraps⟩ := h
  have hend : Word.wrap (off + 2) < 0 := by
    refine Word.wrap_neg hwraps (Int.add_le_add hword.2 ?_)
    decide
  rw [checkOffsets, if_neg, if_pos houtside]
  unfold Word.max at hwraps
  simp only [Bool.or_eq_true, decide_eq_true_eq]
  omega

theorem checkOffsets_of_not_fits (hfits : ¬ Fits width earlier off)
    (hwraps : ¬ EndWraps width off) :
    checkOffsets name width i earlier (off :: rest) =
      refuse .invalidFragment [.operandOffset name i off] := by
  rw [checkOffsets]
  by_cases hrange : 0 ≤ off ∧ off + 2 ≤ width
  · rw [exists_overlap hrange hfits, if_pos rfl, if_neg (Int.not_lt.mpr hrange.2), ite_self]
  · -- An end that is a word is compared as it is.
    have hend : 0 ≤ off → Word.wrap (off + 2) = off + 2 := by
      intro hlow
      refine Word.wrap_of_inRange ⟨?_, ?_⟩
      · unfold Word.min
        omega
      · by_contra hmax
        exact hwraps ⟨by omega, by omega⟩
    rw [if_pos]
    simp only [Bool.or_eq_true, decide_eq_true_eq]
    omega

/-- All offsets after some that lie apart: either they lie apart as well, or the first that does not
fit decides how the check ends. -/
theorem checkOffsets_outcome {before offs : List Int} (hbefore : Apart width before)
    (hwords : ∀ off ∈ offs, Word.InRange off) :
    (Apart width (before ++ offs) ∧ checkOffsets name width i before.reverse offs = .ok ()) ∨
    ∃ fine off rest, offs = fine ++ off :: rest ∧ Apart width (before ++ fine) ∧
      ¬ Fits width (before ++ fine) off ∧
      (EndWraps width off ∧ checkOffsets name width i before.reverse offs =
          .error (.overrun (.index off width)) ∨
        ¬ EndWraps width off ∧ checkOffsets name width i before.reverse offs =
          refuse .invalidFragment [.operandOffset name (i + fine.length) off]) := by
  induction offs generalizing before i with
  | nil =>
    rw [List.append_nil]
    exact .inl ⟨hbefore, rfl⟩
  | cons off rest ih =>
    obtain ⟨hword, hrest⟩ := List.forall_mem_cons.mp hwords
    have hreverse : Fits width before.reverse off ↔ Fits width before off := by
      simp only [Fits, List.mem_reverse]
    by_cases hfits : Fits width before off
    · have hstep := @checkOffsets_of_fits name width i _ rest off (hreverse.mpr hfits)
      have hnext := @ih (i + 1) (before ++ [off]) (apart_append_iff.mpr ⟨hbefore, hfits⟩) hrest
      rw [List.reverse_append, List.reverse_singleton, List.singleton_append, ← hstep,
        List.append_assoc, List.singleton_append] at hnext
      rcases hnext with hok | ⟨fine, off', rest', rfl, hfine, hbad, hend⟩
      · exact .inl hok
      · rw [List.append_assoc, List.singleton_append] at hfine hbad
        refine .inr ⟨off :: fine, off', rest', rfl, hfine, hbad, ?_⟩
        rwa [List.length_cons, Nat.add_comm fine.length, ← Nat.add_assoc]
    · refine .inr ⟨[], off, rest, rfl, by rwa [List.append_nil], by rwa [List.append_nil], ?_⟩
      by_cases hwraps : EndWraps width off
      · exact .inl ⟨hwraps, checkOffsets_of_endWraps hword hwraps⟩
      · exact .inr ⟨hwraps, checkOffsets_of_not_fits (mt hreverse.mp hfits) hwraps⟩

end Offsets

theorem checkAncillas_outcome {name : String} {i : Nat} (ancillas : List Ancilla) :
    ((∀ a ∈ ancillas, 0 ≤ a.photons ∧ 0 ≤ a.herald) ∧ checkAncillas name i ancillas = .ok ()) ∨
    (¬ (∀ a ∈ ancillas, 0 ≤ a.photons ∧ 0 ≤ a.herald) ∧
      ∃ notes, checkAncillas name i ancillas = .error (.of .invalidFragment notes)) := by
  induction ancillas generalizing i with
  | nil => exact .inl ⟨by simp, rfl⟩
  | cons a rest ih =>
    rw [List.forall_mem_cons, checkAncillas]
    by_cases ha : 0 ≤ a.photons ∧ 0 ≤ a.herald
    · have hcheck : ¬ ((a.photons < 0 || a.herald < 0) = true) := by
        simp only [Bool.or_eq_true, decide_eq_true_eq]
        omega
      rw [if_neg hcheck]
      rcases @ih (i + 1) with ⟨hrest, hok⟩ | ⟨hrest, hrefused⟩
      · exact .inl ⟨⟨ha, hrest⟩, hok⟩
      · exact .inr ⟨fun h => hrest h.2, hrefused⟩
    · have hcheck : (a.photons < 0 || a.herald < 0) = true := by
        simp only [Bool.or_eq_true, decide_eq_true_eq]
        omega
      rw [if_pos hcheck]
      exact .inr ⟨fun h => ha h.1, _, rfl⟩

structure Framed (f : Fragment α R) (arity : Int) : Prop where
  circuit : f.circuit.isSome = true
  operands : (f.qubitOffsets.length : Int) = arity
  even : f.ancillas.length % 2 = 0
  width : (f.width : Int) = 2 * arity + f.ancillas.length

/-- A fragment for `arity` operands as it should be. -/
structure WellLaid (f : Fragment α Float) (arity : Int) : Prop extends f.Framed arity where
  pairs : Apart f.width f.qubitOffsets
  counts : ∀ a ∈ f.ancillas, 0 ≤ a.photons ∧ 0 ≤ a.herald
  success : 0 < f.success ∧ f.success ≤ 1

/-- Nothing is wrong before the pair at `off`, and the end of that pair wraps around. -/
structure WrapsAt (f : Fragment α R) (arity off : Int) : Prop extends f.Framed arity where
  first : ∃ before after, f.qubitOffsets = before ++ off :: after ∧ Apart f.width before
  wraps : EndWraps f.width off

section Whole

variable {f : Fragment α Float} {arity : Int}

theorem validate_of_not_framed (h : ¬ f.Framed arity) :
    ∃ notes, f.validate arity = .error (.of .invalidFragment notes) := by
  unfold validate
  split
  · exact ⟨_, rfl⟩
  · rename_i c hc
    split
    · exact ⟨_, rfl⟩
    · rename_i hoperands
      split
      · exact ⟨_, rfl⟩
      · rename_i heven
        simp only
        split
        · exact ⟨_, rfl⟩
        · rename_i hwidth
          refine absurd ⟨by rw [hc]; rfl, by omega, by omega, ?_⟩ h
          have hc' : f.width = c.width := by simp [width, hc]
          omega

theorem validate_of_framed (h : f.Framed arity) :
    f.validate arity = do
      checkOffsets f.name f.width 0 [] f.qubitOffsets
      checkAncillas f.name 0 f.ancillas
      if Quantity.le f.success 0 || Quantity.lt 1 f.success then
        refuse .invalidFragment [.fragmentSuccess f.name (Quantity.shortest f.success)]
      else return () := by
  obtain ⟨hsome, hoperands, heven, hwidth⟩ := h
  obtain ⟨c, hc⟩ := Option.isSome_iff_exists.mp hsome
  have hname : f.name = c.name := by simp [name, hc]
  have hc' : f.width = c.width := by simp [width, hc]
  rw [hname, hc']
  unfold validate
  rw [hc]
  simp only
  rw [if_neg (by omega), if_neg (by omega), if_neg (by omega)]

theorem validate_of_apart (hframe : f.Framed arity) (hnumber : f.success.isNaN = false)
    (hoffsets : checkOffsets f.name f.width 0 [] f.qubitOffsets = .ok ())
    (hpairs : Apart f.width f.qubitOffsets) :
    f.WellLaid arity ∧ f.validate arity = .ok () ∨
    ¬ f.WellLaid arity ∧ ∃ notes, f.validate arity = .error (.of .invalidFragment notes) := by
  rw [validate_of_framed hframe, hoffsets, ok_bind]
  rcases @checkAncillas_outcome f.name 0 f.ancillas with
    ⟨hcounts, hok⟩ | ⟨hcounts, notes, hrefused⟩
  · rw [hok, ok_bind]
    cases hcheck : Quantity.le f.success 0 || Quantity.lt 1 f.success with
    | false =>
      have hsuccess := (Double.inRange_iff hnumber).mp (Double.check_eq_false_iff.mp hcheck)
      exact .inl ⟨⟨hframe, hpairs, hcounts, hsuccess⟩, rfl⟩
    | true =>
      refine .inr ⟨fun h => ?_, _, rfl⟩
      rw [Double.check_eq_false_iff.mpr ((Double.inRange_iff hnumber).mpr h.success)] at hcheck
      cases hcheck
  · rw [hrefused]
    exact .inr ⟨fun h => hcounts h.counts, notes, rfl⟩

/-- Every fragment is passed, runs over at one of its pairs, or is refused. -/
theorem validate_outcome (hwords : ∀ off ∈ f.qubitOffsets, Word.InRange off)
    (hnumber : f.success.isNaN = false) :
    f.WellLaid arity ∧ f.validate arity = .ok () ∨
    (∃ off, f.WrapsAt arity off ∧
      f.validate arity = .error (.overrun (.index off f.width))) ∨
    ¬ f.WellLaid arity ∧ (∀ off, ¬ f.WrapsAt arity off) ∧
      ∃ notes, f.validate arity = .error (.of .invalidFragment notes) := by
  by_cases hframe : f.Framed arity
  · have hnil : Apart f.width [] := ⟨by simp, .nil⟩
    rcases @checkOffsets_outcome f.name f.width 0 _ _ hnil hwords with
      ⟨hpairs, hok⟩ | ⟨fine, off, rest, hsplit, hfine, hfits, hend⟩
    · have hnone : ∀ off, ¬ f.WrapsAt arity off := by
        rintro off ⟨_, ⟨before, after, hsplit, _⟩, hwraps⟩
        have hoff := hpairs.inside off (by simp [hsplit])
        exact absurd hwraps.1 (Int.not_lt.mpr (inside_iff.mp hoff).2)
      rcases validate_of_apart hframe hnumber hok hpairs with h | ⟨hnot, hrefused⟩
      · exact .inl h
      · exact .inr (.inr ⟨hnot, hnone, hrefused⟩)
    · have hsame : ∀ off', f.WrapsAt arity off' → off = off' := by
        rintro off' ⟨_, ⟨before, after, hsplit', hbefore⟩, hwraps⟩
        exact hfine.first_unique hbefore hfits (not_fits_of_endWraps hwraps)
          (hsplit.symm.trans hsplit')
      have hnot : ¬ f.WellLaid arity := by
        intro h
        have hpairs := h.pairs
        rw [hsplit] at hpairs
        exact hfits hpairs.fits
      rw [validate_of_framed hframe]
      rcases hend with ⟨hwraps, hoverrun⟩ | ⟨hwraps, hrefused⟩
      · refine .inr (.inl ⟨off, ⟨hframe, ⟨fine, rest, hsplit, hfine⟩, hwraps⟩, ?_⟩)
        exact congrArg (· >>= _) hoverrun
      · refine .inr (.inr ⟨hnot, fun off' h => ?_, _, congrArg (· >>= _) hrefused⟩)
        exact hwraps (hsame off' h ▸ h.wraps)
  · exact .inr (.inr ⟨fun h => hframe h.toFramed, fun off h => hframe h.toFramed,
      validate_of_not_framed hframe⟩)

theorem WrapsAt.not_wellLaid {off : Int} (h : f.WrapsAt arity off) : ¬ f.WellLaid arity := by
  obtain ⟨_, ⟨before, after, hsplit, _⟩, hwraps⟩ := h
  intro hlaid
  have hpairs := hlaid.pairs
  rw [hsplit] at hpairs
  exact not_fits_of_endWraps hwraps hpairs.fits

theorem WrapsAt.unique {off off' : Int} (h : f.WrapsAt arity off) (h' : f.WrapsAt arity off') :
    off = off' := by
  obtain ⟨_, ⟨before, after, hsplit, hbefore⟩, hwraps⟩ := h
  obtain ⟨_, ⟨before', after', hsplit', hbefore'⟩, hwraps'⟩ := h'
  exact hbefore.first_unique hbefore' (not_fits_of_endWraps hwraps) (not_fits_of_endWraps hwraps')
    (hsplit.symm.trans hsplit')

theorem not_wrapsAt_of_le (h : ∀ off ∈ f.qubitOffsets, off + 2 ≤ Word.max) (off : Int) :
    ¬ f.WrapsAt arity off := by
  rintro ⟨_, ⟨before, after, hsplit, _⟩, hwraps⟩
  exact absurd hwraps.2 (Int.not_lt.mpr (h off (by simp [hsplit])))

/-- Validation passes a fragment exactly if it is as it should be. It runs out of the fragment
exactly at the first pair that does not fit, if the end of that pair wraps around, and never without
an offset so near the greatest word. It refuses every other fragment as invalid. -/
theorem validate_decides_layout (f : Fragment α Float) (arity : Int)
    (hwords : ∀ off ∈ f.qubitOffsets, Word.InRange off) (hnumber : f.success.isNaN = false) :
    (f.validate arity = .ok () ↔ f.WellLaid arity) ∧
    (∀ o, f.validate arity = .error (.overrun o) ↔
      ∃ off, f.WrapsAt arity off ∧ o = .index off f.width) ∧
    ((∀ off ∈ f.qubitOffsets, off + 2 ≤ Word.max) → ∀ off, ¬ f.WrapsAt arity off) ∧
    (¬ f.WellLaid arity → (∀ off, ¬ f.WrapsAt arity off) →
      ∃ notes, f.validate arity = .error (.of .invalidFragment notes)) := by
  rcases @validate_outcome _ _ arity hwords hnumber with
    ⟨hlaid, hok⟩ | ⟨off, hwraps, hoverrun⟩ | ⟨hnot, hnone, notes, hrefused⟩
  · refine ⟨iff_of_true hok hlaid, fun o => ?_, not_wrapsAt_of_le, fun h => absurd hlaid h⟩
    rw [hok]
    refine iff_of_false (by intro h; cases h) ?_
    rintro ⟨off, hwraps, _⟩
    exact hwraps.not_wellLaid hlaid
  · refine ⟨?_, fun o => ?_, not_wrapsAt_of_le, fun _ h => absurd hwraps (h off)⟩
    · rw [hoverrun]
      exact iff_of_false (by intro h; cases h) hwraps.not_wellLaid
    · rw [hoverrun]
      constructor
      · intro h
        cases h
        exact ⟨off, hwraps, rfl⟩
      · rintro ⟨off', hwraps', rfl⟩
        rw [hwraps.unique hwraps']
  · refine ⟨?_, fun o => ?_, not_wrapsAt_of_le, fun _ _ => ⟨notes, hrefused⟩⟩
    · rw [hrefused]
      exact iff_of_false (by intro h; cases h) hnot
    · rw [hrefused]
      refine iff_of_false (by intro h; cases h) ?_
      rintro ⟨off, hwraps, _⟩
      exact hnone off hwraps

end Whole

def blank (width : Nat) (offsets : List Int) (ancillas : List Ancilla) :
    Fragment (Device Float) Float where
  circuit := some ⟨"blank", width, []⟩
  qubitOffsets := offsets
  ancillas := ancillas
  heralded := false
  postSelect := false
  success := 0.5

theorem validate_decides_layout_samples :
    ((blank 6 [3, 0] [⟨0, 0⟩, ⟨1, 1⟩]).validate 2 = .ok () ∧
      (blank 6 [3, 0] [⟨0, 0⟩, ⟨1, 1⟩]).WellLaid 2) ∧
    (¬ (blank 4 [1, 2] []).WellLaid 2 ∧
      ∃ notes, (blank 4 [1, 2] []).validate 2 = .error (.of .invalidFragment notes)) ∧
    (blank 2 [9223372036854775806] []).WrapsAt 1 9223372036854775806 := by
  obtain ⟨hok, -, -, -⟩ := validate_decides_layout (blank 6 [3, 0] [⟨0, 0⟩, ⟨1, 1⟩]) 2
    (by decide) (by decide)
  obtain ⟨hshared, -, hnear, hrefused⟩ := validate_decides_layout (blank 4 [1, 2] []) 2
    (by decide) (by decide)
  obtain ⟨-, hwraps, -, -⟩ := validate_decides_layout (blank 2 [9223372036854775806] []) 1
    (by decide) (by decide)
  have hpassed : (blank 6 [3, 0] [⟨0, 0⟩, ⟨1, 1⟩]).validate 2 = .ok () := by decide +kernel
  have hnot : ¬ (blank 4 [1, 2] []).WellLaid 2 := mt hshared.mpr (by decide +kernel)
  obtain ⟨off, hoff, heq⟩ := (hwraps (.index 9223372036854775806 2)).mp (by decide +kernel)
  cases heq
  exact ⟨⟨hpassed, hok.mp hpassed⟩, ⟨hnot, hrefused hnot (hnear (by decide))⟩, hoff⟩

/-- A pair far outside the fragment is not refused: looking up its modes fails. -/
theorem far_pair_overruns :
    (∀ off ∈ (blank 2 [9223372036854775806] []).qubitOffsets, Word.InRange off) ∧
    (blank 2 [9223372036854775806] []).success.isNaN = false ∧
    ¬ (blank 2 [9223372036854775806] []).WellLaid 1 ∧
    (blank 2 [9223372036854775806] []).validate 1 =
      .error (.overrun (.index 9223372036854775806 2)) ∧
    ¬ ∃ notes, (blank 2 [9223372036854775806] []).validate 1 =
      .error (.of .invalidFragment notes) := by
  have hoverrun : (blank 2 [9223372036854775806] []).validate 1 =
      .error (.overrun (.index 9223372036854775806 2)) := by decide +kernel
  refine ⟨by decide, by decide, fun h => ?_, hoverrun, ?_⟩
  · exact absurd (inside_iff.mp (h.pairs.inside 9223372036854775806 (by decide))).2 (by decide)
  · rw [hoverrun]
    rintro ⟨notes, h⟩
    cases h

end DualRail.Fragment
