import DualRail.Failure
import DualRail.Matrix.Dense
import DualRail.Permutation.Scatter
import DualRail.Word

/-!
Permutations of modes. A permutation is the array of images of the modes `0, 1, …`, checked once
when it is read from a vector; every operation gives a permutation again. The images are the view:
`p.apply i` is where mode `i` goes.
-/

namespace DualRail

structure Permutation where
  images : Array Nat
  nonempty : 0 < images.size
  bijective : images.toList.Perm (List.range images.size)

namespace Permutation

@[ext] theorem ext {p q : Permutation} (h : p.images = q.images) : p = q := by
  cases p
  cases q
  cases h
  rfl

instance : DecidableEq Permutation := fun p q =>
  if h : p.images = q.images then .isTrue (ext h) else .isFalse fun e => h (e ▸ rfl)

def width (p : Permutation) : Nat := p.images.size

/-- The image of a mode; modes outside the permutation stay where they are. -/
def apply (p : Permutation) (i : Nat) : Nat := p.images.getD i i

/-- The image of a mode given as a word, `-1` outside the permutation. -/
def image (p : Permutation) (i : Int) : Int :=
  if 0 ≤ i && i < p.width then p.apply i.toNat else -1

def vector (p : Permutation) : List Nat := p.images.toList

theorem nodup (p : Permutation) : p.images.toList.Nodup :=
  p.bijective.nodup_iff.mpr List.nodup_range

theorem lt_of_mem {p : Permutation} {v : Nat} (h : v ∈ p.images.toList) : v < p.images.size :=
  List.mem_range.mp (p.bijective.mem_iff.mp h)

theorem map_range_getD (a : Array Nat) (f : Nat → Nat) :
    (List.range a.size).map (fun i => a.getD i (f i)) = a.toList := by
  apply List.ext_getElem
  · simp
  · intro i _ h
    have : i < a.size := by simpa using h
    simp [Array.getD, this]

def fault? (n : Nat) : Nat → Array Bool → List Int → Option Note
  | _, _, [] => none
  | i, seen, v :: rest =>
    if v < 0 || (n : Int) ≤ v then some (.position i v (n - 1))
    else if seen.getD v.toNat false then some (.outputTwice v)
    else fault? n (i + 1) (seen.setIfInBounds v.toNat true) rest

theorem fault?_eq_none {n i : Nat} {seen : Array Bool} {l : List Int} (size : seen.size = n)
    (h : fault? n i seen l = none) :
    (∀ v ∈ l, 0 ≤ v ∧ v < n ∧ seen.getD v.toNat false = false) ∧ (l.map Int.toNat).Nodup := by
  induction l generalizing i seen with
  | nil => simp
  | cons v rest ih =>
    rw [fault?] at h
    split at h
    · simp at h
    · rename_i range
      split at h
      · simp at h
      · rename_i fresh
        simp only [Bool.or_eq_true, decide_eq_true_eq, not_or, Int.not_lt, Int.not_le] at range
        have tail := ih (by simpa using size) h
        have bound : v.toNat < seen.size := by omega
        have later : ∀ w ∈ rest, w.toNat ≠ v.toNat := by
          intro w hw eq
          have := (tail.1 w hw).2.2
          rw [eq] at this
          simp [Array.getD, bound] at this
        refine ⟨fun w hw => ?_, ?_⟩
        · rcases List.mem_cons.mp hw with rfl | hw
          · exact ⟨range.1, range.2, by simpa using fresh⟩
          · have := tail.1 w hw
            refine ⟨this.1, this.2.1, ?_⟩
            have ne := later w hw
            have step := this.2.2
            rw [Array.getD_eq_getD_getElem?,
              Array.getElem?_setIfInBounds_ne (fun e => ne e.symm)] at step
            rwa [Array.getD_eq_getD_getElem?]
        · rw [List.map_cons, List.nodup_cons]
          refine ⟨fun mem => ?_, tail.2⟩
          obtain ⟨w, hw, eq⟩ := List.mem_map.mp mem
          exact later w hw eq

def vectorFault? (vector : List Int) : Option Note :=
  if vector.isEmpty then some .emptyVector
  else fault? vector.length 0 (Array.replicate vector.length false) vector

theorem perm_of_vectorFault?_eq_none {vector : List Int} (h : vectorFault? vector = none) :
    0 < (vector.map Int.toNat).toArray.size ∧
      (vector.map Int.toNat).toArray.toList.Perm
        (List.range (vector.map Int.toNat).toArray.size) := by
  unfold vectorFault? at h
  split at h
  · simp at h
  · rename_i nonempty
    have facts := fault?_eq_none (by simp) h
    refine ⟨?_, ?_⟩
    · cases vector with
      | nil => simp at nonempty
      | cons => simp
    · have := perm_range_of_nodup facts.2 fun x hx => by
        obtain ⟨v, hv, rfl⟩ := List.mem_map.mp hx
        have := facts.1 v hv
        simp only [List.length_map]
        omega
      simpa using this

/-- Checks that a vector is a bijection of its positions. -/
def ofVector (vector : List Int) : Except Failure Permutation :=
  match h : vectorFault? vector with
  | some note => refuse .notPermutation [note]
  | none =>
    .ok ⟨(vector.map Int.toNat).toArray, (perm_of_vectorFault?_eq_none h).1,
      (perm_of_vectorFault?_eq_none h).2⟩

def one (n : Nat) : Permutation where
  images := Array.range (n + 1)
  nonempty := by simp
  bijective := by simp

def identity (m : Int) : Except Failure Permutation :=
  if m ≤ 0 then refuse .invalidWidth []
  else do
    let count ← Storage.reserve m 8
    return one (count - 1)

def isIdentity (p : Permutation) : Bool := p.images == Array.range p.width

def inverseImages (images : Array Nat) : Array Nat :=
  scatter (images.toList.zipIdx) (Array.replicate images.size 0)

theorem getD_inverseImages (p : Permutation) {i : Nat} (h : i < p.images.size) :
    (inverseImages p.images).getD (p.images.getD i 0) 0 = i := by
  have mem : (p.images[i], i) ∈ p.images.toList.zipIdx := by
    rw [List.mk_mem_zipIdx_iff_getElem?]
    simp [h]
  have distinct : (p.images.toList.zipIdx.map (·.1)).Nodup := by
    simpa using p.nodup
  have bound : p.images[i] < p.images.size := lt_of_mem (by simp)
  have := @getElem?_scatter_of_mem _ _ (Array.replicate p.images.size 0) _ distinct mem
    (by simpa using bound)
  simp only [Array.getD_eq_getD_getElem?, Array.getElem?_eq_getElem h, Option.getD_some]
  unfold inverseImages
  rw [this]
  rfl

theorem inverseImages_perm (p : Permutation) :
    (inverseImages p.images).toList.Perm (List.range (inverseImages p.images).size) := by
  have size : (inverseImages p.images).size = p.images.size := by simp [inverseImages]
  let f := fun i => (inverseImages p.images).getD i 0
  have forth : p.images.toList.map f = List.range p.images.size := by
    rw [← map_range_getD p.images fun _ => 0, List.map_map]
    conv => rhs; rw [← List.map_id (List.range p.images.size)]
    apply List.map_congr_left
    intro i hi
    exact getD_inverseImages p (List.mem_range.mp hi)
  have back : (List.range p.images.size).map f = (inverseImages p.images).toList := by
    rw [← size]
    exact map_range_getD _ fun _ => 0
  have := p.bijective.map f
  rw [forth, back] at this
  rw [size]
  exact this.symm

def inverse (p : Permutation) : Permutation where
  images := inverseImages p.images
  nonempty := by simpa [inverseImages] using p.nonempty
  bijective := inverseImages_perm p

def comp (p q : Permutation) (h : p.width = q.width) : Permutation where
  images := p.images.map fun v => q.images.getD v 0
  nonempty := by simpa using p.nonempty
  bijective := by
    have := p.bijective.map fun v => q.images.getD v 0
    have size : p.images.size = q.images.size := h
    rw [size, map_range_getD] at this
    rw [Array.toList_map, Array.size_map, size]
    exact this.trans q.bijective

def andThen (p q : Permutation) : Except Failure Permutation :=
  if h : p.width = q.width then .ok (comp p q h)
  else refuse .invalidWidth [.composing p.width q.width]

def liftImages (p : Permutation) (offset rest : Nat) : Array Nat :=
  (List.range offset ++ p.images.toList.map (offset + ·) ++
    List.range' (offset + p.width) rest).toArray

theorem range_split (a b c : Nat) :
    List.range (a + b + c) =
      List.range a ++ (List.range b).map (a + ·) ++ List.range' (a + b) c := by
  rw [List.range_eq_range', List.range_eq_range', List.range_eq_range', List.map_add_range',
    ← List.range'_append_1, ← List.range'_append_1]
  simp

def raise (p : Permutation) (offset rest : Nat) : Permutation where
  images := liftImages p offset rest
  nonempty := by
    have := p.nonempty
    simp [liftImages]
    omega
  bijective := by
    have size : (liftImages p offset rest).size = offset + p.images.size + rest := by
      simp [liftImages]
      omega
    rw [size, range_split]
    unfold liftImages width
    simp only
    apply List.Perm.append_right
    apply List.Perm.append_left
    exact p.bijective.map _

/-- The permutation of `m` modes that moves the modes from `offset` on as `p` does. -/
def lift (p : Permutation) (m offset : Int) : Except Failure Permutation :=
  if offset < 0 || m < Word.wrap (offset + p.width) then
    refuse .componentRange [.lifting p.width offset m]
  else if m ≤ 0 then refuse .invalidWidth []
  else do
    let _ ← Storage.reserve m 8
    if offset + p.width ≤ m then
      return raise p offset.toNat (m.toNat - (offset.toNat + p.width))
    else .error (.overrun (.index offset m.toNat))

/-- The modes that do not stay where they are, ascending. -/
def moved (p : Permutation) : List Nat := (List.range p.width).filter fun i => p.apply i != i

theorem mem_moved {p : Permutation} {i : Nat} : i ∈ p.moved ↔ i < p.width ∧ p.apply i ≠ i := by
  simp [moved]

theorem moved_ascending (p : Permutation) : p.moved.Pairwise (· < ·) :=
  List.Pairwise.filter _ List.pairwise_lt_range

theorem getElem_toList (p : Permutation) {i : Nat} (h : i < p.images.toList.length) :
    p.images.toList[i] = p.apply i := by
  have : i < p.images.size := by simpa using h
  simp [apply, Array.getD, this]

def coreImages (p : Permutation) (lo count : Nat) : Array Nat :=
  (((p.images.toList.drop lo).take count).map (· - lo)).toArray

theorem coreImages_perm (p : Permutation) {lo count : Nat} (inside : lo + count ≤ p.width)
    (fixed : ∀ i, i < p.width → i < lo ∨ lo + count ≤ i → p.apply i = i) :
    (coreImages p lo count).toList.Perm (List.range (coreImages p lo count).size) := by
  have length : p.images.toList.length = p.width := by simp [width]
  have front : p.images.toList.take lo = List.range lo := by
    apply List.ext_getElem
    · simp [length]
      omega
    · intro i h _
      have : i < lo := by simp [length] at h; omega
      rw [List.getElem_take, getElem_toList, List.getElem_range]
      exact fixed i (by omega) (.inl this)
  have back : p.images.toList.drop (lo + count) =
      List.range' (lo + count) (p.width - (lo + count)) := by
    apply List.ext_getElem
    · simp [length]
    · intro i h _
      have : lo + count + i < p.width := by simp [length] at h; omega
      rw [List.getElem_drop, getElem_toList, List.getElem_range', Nat.one_mul]
      exact fixed _ this (.inr (by omega))
  have split : p.images.toList = List.range lo ++ (p.images.toList.drop lo).take count ++
      List.range' (lo + count) (p.width - (lo + count)) := by
    rw [← front, ← back, List.append_assoc, ← List.drop_drop, List.take_append_drop,
      List.take_append_drop]
  have whole := p.bijective
  have size : p.images.size = lo + count + (p.width - (lo + count)) := by
    have : p.images.size = p.width := rfl
    omega
  rw [split, size, range_split] at whole
  have middle := (List.perm_append_left_iff _).mp ((List.perm_append_right_iff _).mp whole)
  have lowered := middle.map (· - lo)
  rw [List.map_map] at lowered
  have cancel : (List.range count).map ((· - lo) ∘ (lo + ·)) = List.range count := by
    conv => rhs; rw [← List.map_id (List.range count)]
    apply List.map_congr_left
    intro i _
    simp
  rw [cancel] at lowered
  have count_eq : (coreImages p lo count).size = count := by
    have : p.images.size = p.width := rfl
    simp [coreImages]
    omega
  rw [count_eq]
  exact lowered

def narrow (p : Permutation) (lo count : Nat) (some : 0 < count) (inside : lo + count ≤ p.width)
    (fixed : ∀ i, i < p.width → i < lo ∨ lo + count ≤ i → p.apply i = i) : Permutation where
  images := coreImages p lo count
  nonempty := by
    have : p.images.size = p.width := rfl
    simp [coreImages]
    omega
  bijective := coreImages_perm p inside fixed

theorem head_le_of_ascending {a : Nat} {l : List Nat} (h : (a :: l).Pairwise (· < ·)) :
    ∀ x ∈ a :: l, a ≤ x := by
  intro x hx
  rcases List.mem_cons.mp hx with rfl | hx
  · exact Nat.le_refl _
  · exact Nat.le_of_lt (List.rel_of_pairwise_cons h hx)

theorem le_getLast_of_ascending {l : List Nat} (h : l.Pairwise (· < ·)) (ne : l ≠ []) :
    ∀ x ∈ l, x ≤ l.getLast ne := by
  induction l with
  | nil => exact absurd rfl ne
  | cons a l ih =>
    intro x hx
    cases l with
    | nil => simp at hx; simp [hx]
    | cons b l =>
      rw [List.getLast_cons (by simp)]
      have last := List.getLast_mem (l := b :: l) (by simp)
      rcases List.mem_cons.mp hx with rfl | hx
      · exact Nat.le_of_lt (List.rel_of_pairwise_cons h last)
      · exact ih (List.pairwise_cons.mp h).2 (by simp) x hx

/-- The moving part: its first mode and the permutation of the smallest interval that holds every
moved mode. Nothing for the identity. -/
def trim (p : Permutation) : Option (Nat × Permutation) :=
  match h : p.moved with
  | [] => none
  | lo :: more =>
    have ascending : (lo :: more).Pairwise (· < ·) := h ▸ p.moved_ascending
    let hi := (lo :: more).getLast (by simp)
    have low : lo ≤ hi := le_getLast_of_ascending ascending (by simp) lo List.mem_cons_self
    have top : hi < p.width :=
      (mem_moved.mp (h ▸ List.getLast_mem (l := lo :: more) (by simp))).1
    some (lo, narrow p lo (hi - lo + 1) (by omega) (by omega) fun i bound outside =>
      Decidable.byContradiction fun ne => by
        have mem : i ∈ lo :: more := h ▸ mem_moved.mpr ⟨bound, ne⟩
        have := head_le_of_ascending ascending i mem
        have := le_getLast_of_ascending ascending (by simp) i mem
        omega)

/-- Column `i` has its one in row `p i`. -/
def matrix {K : Type} [Scalar K] (p : Permutation) : Dense K :=
  Dense.build p.width p.width fun i j => if p.apply j = i then 1 else 0

/-- The matrix in a store of its own: a blank one, into which a one is written for each mode. -/
def storedMatrix {K : Type} [Scalar K] (p : Permutation) : Except Failure (Dense K) := do
  let blank ← Dense.zeros p.width p.width
  p.vector.zipIdx.foldlM (fun u w => u.write w.1 w.2 1) blank

def name : String := "PERM"

def text (p : Permutation) : String :=
  name ++ "[" ++ ",".intercalate (p.vector.map toString) ++ "]"

end Permutation

end DualRail
