/-!
Signed 64-bit words. Offsets, widths and photon counts come from outside as 64-bit words and their
sums wrap around; the mathematics of the library is done in `Int` and `Nat`, and `wrap` stands
exactly where a sum of words is formed.
-/

namespace DualRail.Word

def count : Nat := 18446744073709551616

def max : Int := 9223372036854775807

def min : Int := -9223372036854775808

/-- The word congruent to `x` modulo `2 ^ 64`. -/
def wrap (x : Int) : Int := Int.bmod x count

def InRange (x : Int) : Prop := min ≤ x ∧ x ≤ max

instance (x : Int) : Decidable (InRange x) := inferInstanceAs (Decidable (_ ∧ _))

theorem wrap_of_inRange {x : Int} (h : InRange x) : wrap x = x := by
  unfold InRange min max at h
  unfold wrap count
  exact Int.bmod_eq_of_le (by omega) (by omega)

theorem wrap_add_count_mul (x t : Int) : wrap (x + count * t) = wrap x :=
  Int.add_mul_bmod_self_left x count t

/-- A word never stands for more than the natural number it comes from. -/
theorem wrap_le {x : Int} (h : 0 ≤ x) : wrap x ≤ x := by
  unfold wrap count Int.bmod
  simp only
  split <;> omega

theorem wrap_neg {x : Int} (h : max < x) (h' : x ≤ max + max) : wrap x < 0 := by
  unfold max at h h'
  unfold wrap count Int.bmod
  simp only
  split <;> omega

end DualRail.Word
