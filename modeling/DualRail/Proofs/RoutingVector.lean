import DualRail.Proofs.Routing

/-!
The forward vector of a route. There is one exactly for a block of distinct modes below `m`, and
what it does determines it: it is a bijection of the modes, it gathers the block from its least mode
on in the order of the block, and it keeps all other modes in their order. The modes before the
block and those after its greatest mode then stay where they are. A route is planned whenever there
is a forward vector.
-/

namespace DualRail

/-- The vector takes the modes below `m` to the places below `m`, one to each, the modes of the
block to consecutive places from `start` on, and keeps the order of the other modes. -/
structure Gathers (m : Nat) (block : List Nat) (start : Nat) (vec : List Nat) : Prop where
  bijective : vec.Perm (List.range m)
  gathered : ∀ j x : Nat, block[j]? = some x → vec[x]? = some (start + j)
  ordered : ∀ u v a b : Nat, u ∉ block → v ∉ block → u < v → vec[u]? = some a →
    vec[v]? = some b → a < b

section Others

variable {m u : Nat} {block : List Nat}

theorem mem_otherModes : u ∈ otherModes m block ↔ u < m ∧ u ∉ block := by
  simp [otherModes]

theorem otherModes_split (hu : u < m) (hout : u ∉ block) :
    ∃ rest, otherModes m block = otherModes u block ++ u :: rest := by
  have hrange : List.range m = List.range u ++ u :: List.range' (u + 1) (m - (u + 1)) := by
    have hm : m = u + 1 + (m - (u + 1)) := by omega
    conv_lhs => rw [hm, List.range_eq_range', ← List.range'_append_1]
    rw [← List.range_eq_range', List.range_succ, Nat.zero_add, List.append_assoc,
      List.singleton_append]
  refine ⟨(List.range' (u + 1) (m - (u + 1))).filter fun v => !block.contains v, ?_⟩
  unfold otherModes
  rw [hrange, List.filter_append, List.filter_cons_of_pos (by simpa using hout)]

theorem getElem?_otherModes (hu : u < m) (hout : u ∉ block) :
    (otherModes m block)[(otherModes u block).length]? = some u := by
  obtain ⟨rest, hsplit⟩ := otherModes_split hu hout
  rw [hsplit]
  simp

theorem length_otherModes_lt {v : Nat} (hout : u ∉ block) (h : u < v) :
    (otherModes u block).length < (otherModes v block).length := by
  obtain ⟨rest, hsplit⟩ := otherModes_split h hout
  rw [hsplit, List.length_append, List.length_cons]
  omega

theorem length_otherModes_of_le (h : ∀ x ∈ block, u ≤ x) : (otherModes u block).length = u := by
  have hall : otherModes u block = List.range u := by
    refine List.filter_eq_self.mpr fun v hv => ?_
    have hout : v ∉ block := fun hmem =>
      absurd (h v hmem) (Nat.not_le.mpr (List.mem_range.mp hv))
    simpa using hout
  rw [hall, List.length_range]

end Others

section Forward

variable {m start : Nat} {block : List Nat}

/-- The outside mode with `r` outside modes below it goes to place `r`, or to the place `r` counted
past the block. -/
theorem getElem?_forward_other (start : Nat) {u : Nat} (hnd : block.Nodup)
    (hlt : ∀ x ∈ block, x < m) (hu : u < m) (hout : u ∉ block) :
    (scatter (forwardWrites m block start) (Array.replicate m 0))[u]? =
      some (if (otherModes u block).length < start then (otherModes u block).length
        else (otherModes u block).length + block.length) := by
  have hcells : ((forwardWrites m block start).map (·.1)).Nodup := by
    rw [forwardWrites_cells]
    exact (append_otherModes_perm hnd hlt).nodup_iff.mpr List.nodup_range
  refine getElem?_scatter_of_mem (w := (u, _)) hcells ?_ (by simpa using hu)
  unfold forwardWrites
  refine List.mem_append_right _ (List.mem_map.mpr ⟨(u, (otherModes u block).length), ?_, rfl⟩)
  exact List.mk_mem_zipIdx_iff_getElem?.mpr (getElem?_otherModes hu hout)

theorem gathers_forward (hnd : block.Nodup) (hlt : ∀ x ∈ block, x < m)
    (hend : start + block.length ≤ m) :
    Gathers m block start
      (scatter (forwardWrites m block start) (Array.replicate m 0)).toList := by
  refine ⟨forwardVector_perm hnd hlt hend, fun j x hj => ?_, ?_⟩
  · rw [Array.getElem?_toList]
    exact getElem?_forward start hnd hlt hj
  · intro u v a b hu hv huv ha hb
    have hvm : v < m := by
      have := (List.getElem?_eq_some_iff.mp hb).1
      simpa using this
    have hrank := length_otherModes_lt (v := v) hu huv
    rw [Array.getElem?_toList, getElem?_forward_other start hnd hlt (huv.trans hvm) hu,
      Option.some.injEq] at ha
    rw [Array.getElem?_toList, getElem?_forward_other start hnd hlt hvm hv,
      Option.some.injEq] at hb
    split at ha <;> split at hb <;> omega

theorem forward_fixes (hnd : block.Nodup) (hlt : ∀ x ∈ block, x < m)
    (hleast : ∀ x ∈ block, start ≤ x) {u : Nat} (hu : u < m)
    (hoff : u < start ∨ ∀ x ∈ block, x < u) :
    (scatter (forwardWrites m block start) (Array.replicate m 0)).toList[u]? = some u := by
  have hout : u ∉ block := by
    intro hmem
    rcases hoff with h | h
    · exact absurd (hleast u hmem) (Nat.not_le.mpr h)
    · exact absurd (h u hmem) (Nat.lt_irrefl u)
  rw [Array.getElem?_toList, getElem?_forward_other start hnd hlt hu hout, Option.some.injEq]
  by_cases hlow : u < start
  · rw [length_otherModes_of_le fun x hx => hlow.le.trans (hleast x hx), if_pos hlow]
  · -- the block lies between `start` and `u`, so all its modes are among those below `u`
    have habove : ∀ x ∈ block, x < u := hoff.resolve_left hlow
    have hcount := length_otherModes hnd habove
    have hroom := start_add_length_le hnd habove hleast (Nat.not_lt.mp hlow)
    rw [if_neg (by omega)]
    omega

end Forward

namespace Gathers

variable {m start : Nat} {block vec vec' : List Nat}

theorem length_eq (h : Gathers m block start vec) : vec.length = m := by
  rw [h.bijective.length_eq, List.length_range]

theorem map_range (h : Gathers m block start vec) :
    (List.range m).map (fun u => vec[u]?) = vec.map some := by
  apply List.ext_getElem
  · simp [h.length_eq]
  · intro i hi _
    simp

theorem map_block (h : Gathers m block start vec) :
    block.map (fun x => vec[x]?) = (List.range' start block.length).map some := by
  apply List.ext_getElem
  · simp
  · intro j hj _
    have hj' : j < block.length := by simpa using hj
    rw [List.getElem_map, List.getElem_map, List.getElem_range', Nat.one_mul]
    exact h.gathered j block[j] (List.getElem?_eq_getElem hj')

theorem places_perm (h : Gathers m block start vec) (hnd : block.Nodup)
    (hlt : ∀ x ∈ block, x < m) :
    ((List.range' start block.length).map some ++
      (otherModes m block).map fun u => vec[u]?).Perm ((List.range m).map some) := by
  rw [← h.map_block, ← List.map_append]
  refine ((append_otherModes_perm hnd hlt).map _).trans ?_
  rw [h.map_range]
  exact h.bijective.map some

theorem pairwise_others (h : Gathers m block start vec) :
    ((otherModes m block).map fun u => vec[u]?).Pairwise
      fun p q => ∀ a b, p = some a → q = some b → a < b := by
  refine List.pairwise_map.mpr (List.Pairwise.imp_of_mem ?_
    (List.Pairwise.filter _ List.pairwise_lt_range))
  intro u v hu hv huv a b ha hb
  exact h.ordered u v a b (mem_otherModes.mp hu).2 (mem_otherModes.mp hv).2 huv ha hb

/-- The other modes fill the places beside the block in their order, which leaves no choice. -/
theorem unique (h : Gathers m block start vec) (h' : Gathers m block start vec')
    (hnd : block.Nodup) (hlt : ∀ x ∈ block, x < m) : vec' = vec := by
  have hperm : ((otherModes m block).map fun u => vec'[u]?).Perm
      ((otherModes m block).map fun u => vec[u]?) :=
    (List.perm_append_left_iff _).mp
      ((h'.places_perm hnd hlt).trans (h.places_perm hnd hlt).symm)
  have hfound : ∀ w, Gathers m block start w → ∀ p ∈ (otherModes m block).map (fun u => w[u]?),
      ∃ a, p = some a := by
    intro w hw p hp
    obtain ⟨u, hu, rfl⟩ := List.mem_map.mp hp
    have hlen : u < w.length := by
      rw [hw.length_eq]
      exact (mem_otherModes.mp hu).1
    exact ⟨w[u], List.getElem?_eq_getElem hlen⟩
  have hothers : (otherModes m block).map (fun u => vec'[u]?) =
      (otherModes m block).map fun u => vec[u]? := by
    refine hperm.eq_of_pairwise ?_ h'.pairwise_others h.pairwise_others
    intro p q hp hq hpq hqp
    obtain ⟨a, rfl⟩ := hfound _ h' p hp
    obtain ⟨b, rfl⟩ := hfound _ h q hq
    exact absurd (hqp b a rfl rfl) (hpq a b rfl rfl).asymm
  have hall : ∀ u ∈ block ++ otherModes m block, vec'[u]? = vec[u]? := by
    refine List.forall_mem_append.mpr ⟨?_, List.map_inj_left.mp hothers⟩
    exact List.map_inj_left.mp (h'.map_block.trans h.map_block.symm)
  apply List.ext_getElem?
  intro u
  by_cases hu : u < m
  · exact hall u ((append_otherModes_perm hnd hlt).mem_iff.mpr (List.mem_range.mpr hu))
  · rw [List.getElem?_eq_none (by rw [h'.length_eq]; omega),
      List.getElem?_eq_none (by rw [h.length_eq]; omega)]

end Gathers

section Blocks

variable {m : Nat} {block : List Int} {f : Failure}

theorem badBlockMode?_eq_none {m : Int} {earlier block : List Int}
    (h : badBlockMode? m earlier block = none) :
    (∀ x ∈ block, 0 ≤ x ∧ x < m ∧ x ∉ earlier) ∧ block.Nodup := by
  induction block generalizing earlier with
  | nil => exact ⟨List.forall_mem_nil _, List.nodup_nil⟩
  | cons x rest ih =>
    rw [badBlockMode?] at h
    split at h
    · cases h
    · rename_i hok
      simp only [Bool.or_eq_true, decide_eq_true_eq, List.contains_iff_mem, not_or, Int.not_lt,
        Int.not_le] at hok
      obtain ⟨hrest, hnd⟩ := ih h
      refine ⟨List.forall_mem_cons.mpr ⟨⟨hok.1.1, hok.1.2, hok.2⟩, fun y hy => ?_⟩, ?_⟩
      · obtain ⟨hlow, hhigh, hnew⟩ := hrest y hy
        exact ⟨hlow, hhigh, fun hmem => hnew (List.mem_cons_of_mem _ hmem)⟩
      · exact List.nodup_cons.mpr ⟨fun hmem => (hrest x hmem).2.2 List.mem_cons_self, hnd⟩

theorem mem_of_badBlockMode? {m x : Int} {earlier block : List Int}
    (h : badBlockMode? m earlier block = some x) : x ∈ block := by
  induction block generalizing earlier with
  | nil => cases h
  | cons y rest ih =>
    rw [badBlockMode?] at h
    split at h
    · obtain rfl := Option.some.inj h
      exact List.mem_cons_self
    · exact List.mem_cons_of_mem _ (ih h)

structure IsModeBlock (m : Nat) (block : List Int) : Prop where
  nonempty : block ≠ []
  inside : ∀ x ∈ block, 0 ≤ x ∧ x < m
  nodup : block.Nodup

theorem not_isModeBlock_iff :
    ¬ IsModeBlock m block ↔ block = [] ∨ (∃ x ∈ block, x < 0 ∨ (m : Int) ≤ x) ∨ ¬ block.Nodup := by
  have hiff : IsModeBlock m block ↔
      block ≠ [] ∧ (∀ x ∈ block, 0 ≤ x ∧ x < m) ∧ block.Nodup :=
    ⟨fun h => ⟨h.nonempty, h.inside, h.nodup⟩, fun h => ⟨h.1, h.2.1, h.2.2⟩⟩
  rw [hiff]
  simp only [not_and_or, not_not, not_forall, exists_prop, Int.not_le, Int.not_lt]

theorem IsModeBlock.modes (h : IsModeBlock m block) :
    (block.map Int.toNat).map Int.ofNat = block ∧ block.map Int.toNat ≠ [] ∧
      (block.map Int.toNat).Nodup ∧ ∀ x ∈ block.map Int.toNat, x < m := by
  refine ⟨?_, fun hnil => h.nonempty (List.map_eq_nil_iff.mp hnil), ?_, ?_⟩
  · rw [List.map_map]
    conv_rhs => rw [← List.map_id block]
    exact List.map_congr_left fun x hx => Int.toNat_of_nonneg (h.inside x hx).1
  · refine h.nodup.map_on fun x hx y hy he => ?_
    have := (h.inside x hx).1
    have := (h.inside y hy).1
    omega
  · rw [List.forall_mem_map]
    intro x hx
    have := h.inside x hx
    omega

theorem IsModeBlock.pos (h : IsModeBlock m block) : 0 < m := by
  obtain ⟨x, hx⟩ := List.exists_mem_of_ne_nil block h.nonempty
  have := h.inside x hx
  omega

theorem IsModeBlock.forwardVector_eq (h : IsModeBlock m block) :
    ∃ start ∈ block.map Int.toNat, (∀ x ∈ block.map Int.toNat, start ≤ x) ∧
      start + block.length ≤ m ∧ forwardVector m block = .ok
        ⟨(scatter (forwardWrites m (block.map Int.toNat) start) (Array.replicate m 0)).toList,
          start⟩ := by
  obtain ⟨hback, hne, hnd, hlt⟩ := h.modes
  obtain ⟨start, vec, hf, hend, hmem, hleast, rfl⟩ := DualRail.forwardVector_eq hne hnd hlt
  rw [hback] at hf
  rw [List.length_map] at hend
  exact ⟨start, hmem, hleast, hend, hf⟩

theorem isModeBlock_of_checks
    (hsize : ¬ (block.isEmpty || decide ((m : Int) < block.length)) = true)
    (hmodes : badBlockMode? m [] block = none) : IsModeBlock m block := by
  obtain ⟨hin, hnd⟩ := badBlockMode?_eq_none hmodes
  refine ⟨?_, fun x hx => ⟨(hin x hx).1, (hin x hx).2.1⟩, hnd⟩
  rintro rfl
  exact hsize rfl

/-- Whatever is not a block of modes is refused for its size or for one of its modes. -/
theorem forwardVector_of_not_isModeBlock (h : ¬ IsModeBlock m block) :
    forwardVector m block = refuse .routeInvariant [.block block.length m] ∨
      ∃ mode ∈ block, forwardVector m block = refuse .routeInvariant [.blockMode mode m] := by
  by_cases hsize : (block.isEmpty || decide ((m : Int) < block.length)) = true
  · rw [forwardVector, blockStart, if_pos hsize]
    exact .inl rfl
  · cases hmodes : badBlockMode? m [] block with
    | none => exact absurd (isModeBlock_of_checks hsize hmodes) h
    | some mode =>
      refine .inr ⟨mode, mem_of_badBlockMode? hmodes, ?_⟩
      rw [forwardVector, blockStart, if_neg hsize, hmodes]
      rfl

theorem exists_forwardVector_error_iff :
    (∃ f, forwardVector m block = .error f) ↔ ¬ IsModeBlock m block := by
  constructor
  · rintro ⟨f, hf⟩ hblock
    obtain ⟨start, _, _, _, hok⟩ := hblock.forwardVector_eq
    cases hok.symm.trans hf
  · intro h
    rcases forwardVector_of_not_isModeBlock h with hf | ⟨mode, _, hf⟩
    · exact ⟨_, hf⟩
    · exact ⟨_, hf⟩

theorem isModeBlock_of_forwardVector {fwd : Forward} (h : forwardVector m block = .ok fwd) :
    IsModeBlock m block := by
  by_contra hblock
  obtain ⟨f, hf⟩ := exists_forwardVector_error_iff.mpr hblock
  cases h.symm.trans hf

theorem planRoute_eq_error_iff :
    planRoute m block = .error f ↔ forwardVector m block = .error f := by
  constructor
  · intro h
    cases hf : forwardVector m block with
    | error g =>
      unfold planRoute at h
      rw [hf, error_bind] at h
      exact congrArg _ (Except.error.inj h)
    | ok fwd =>
      have hblock := isModeBlock_of_forwardVector hf
      obtain ⟨start, _, _, hend, hok⟩ := hblock.forwardVector_eq
      obtain ⟨_, _, hnd, hlt⟩ := hblock.modes
      obtain ⟨p, _, hplan⟩ := planRoute_of_forwardVector hok hblock.pos
        (forwardVector_perm hnd hlt (by rwa [List.length_map]))
      cases hplan.symm.trans h
  · intro h
    unfold planRoute
    rw [h]
    rfl

/-- The forward vector of a block. It is refused exactly if the block is empty, has a number that is
no mode below `m`, or has a mode twice, always as a broken invariant of routes and never for the end
of the block. Otherwise the block starts at its least mode and ends below `m`, the vector gathers
the block there, it moves no mode before the block or after all of it, and it is the only vector
that gathers. Then there is a route with this vector: planning fails for no other reason. -/
theorem forwardVector_gathers (m : Nat) (block : List Int) :
    ((∃ f, forwardVector m block = .error f) ↔
      block = [] ∨ (∃ x ∈ block, x < 0 ∨ (m : Int) ≤ x) ∨ ¬ block.Nodup) ∧
    (∀ f, forwardVector m block = .error f → f = .of .routeInvariant [.block block.length m] ∨
      ∃ mode ∈ block, f = .of .routeInvariant [.blockMode mode m]) ∧
    (∀ f, planRoute m block = .error f ↔ forwardVector m block = .error f) ∧
    ∀ vec start, forwardVector m block = .ok ⟨vec, start⟩ →
      ((start : Int) ∈ block ∧ ∀ x ∈ block, (start : Int) ≤ x) ∧ start + block.length ≤ m ∧
      Gathers m (block.map Int.toNat) start vec ∧
      (∀ u < m, (u < start ∨ ∀ x ∈ block, x < u) → vec[u]? = some u) ∧
      (∀ vec', Gathers m (block.map Int.toNat) start vec' → vec' = vec) ∧
      ∃ r, planRoute m block = .ok r ∧ r.block = block ∧ r.start = start ∧
        r.forward.vector = vec ∧ r.inverse = r.forward.inverse := by
  refine ⟨exists_forwardVector_error_iff.trans not_isModeBlock_iff, fun f hf => ?_,
    fun f => planRoute_eq_error_iff, fun vec start hf => ?_⟩
  · rcases forwardVector_of_not_isModeBlock (exists_forwardVector_error_iff.mp ⟨f, hf⟩) with
      h | ⟨mode, hmode, h⟩
    · exact .inl (Except.error.inj (hf.symm.trans h))
    · exact .inr ⟨mode, hmode, Except.error.inj (hf.symm.trans h)⟩
  · have hblock := isModeBlock_of_forwardVector hf
    obtain ⟨_, _, hnd, hlt⟩ := hblock.modes
    obtain ⟨first, hmem, hleast, hend, hok⟩ := hblock.forwardVector_eq
    obtain ⟨rfl, rfl⟩ := Forward.mk.inj (Except.ok.inj (hok.symm.trans hf))
    have hroom : first + (block.map Int.toNat).length ≤ m := by rwa [List.length_map]
    have hgathers := gathers_forward hnd hlt hroom
    obtain ⟨p, himages, hplan⟩ := planRoute_of_forwardVector hf hblock.pos hgathers.bijective
    refine ⟨⟨?_, fun x hx => ?_⟩, hend, hgathers, fun u hu hoff => ?_,
      fun vec' h' => hgathers.unique h' hnd hlt, _, hplan, rfl, rfl, ?_, rfl⟩
    · obtain ⟨x, hx, rfl⟩ := List.mem_map.mp hmem
      rwa [Int.toNat_of_nonneg (hblock.inside x hx).1]
    · have := hleast _ (List.mem_map_of_mem hx)
      have := (hblock.inside x hx).1
      omega
    · refine forward_fixes hnd hlt hleast hu (hoff.imp_right fun h => ?_)
      rw [List.forall_mem_map]
      intro x hx
      have := h x hx
      have := (hblock.inside x hx).1
      omega
    · rw [Permutation.vector, himages]

/-- A block with a gap that is not in order: its modes go to the places from 2 on, mode 4 makes
room, and the modes on both sides stay. -/
theorem forwardVector_gathers_scattered :
    Gathers 7 [5, 2, 3] 2 [0, 1, 3, 4, 5, 2, 6] ∧
      (∀ vec, Gathers 7 [5, 2, 3] 2 vec → vec = [0, 1, 3, 4, 5, 2, 6]) ∧
      (∃ r, planRoute 7 [5, 2, 3] = .ok r ∧ r.forward.vector = [0, 1, 3, 4, 5, 2, 6]) ∧
      ∃ f, planRoute 7 [5, 2, 5] = .error f := by
  have hforward : forwardVector (7 : Nat) [5, 2, 3] = .ok ⟨[0, 1, 3, 4, 5, 2, 6], 2⟩ := rfl
  obtain ⟨_, _, _, hvector⟩ := forwardVector_gathers 7 [5, 2, 3]
  obtain ⟨_, _, hgathers, _, hunique, r, hplan, _, _, hr, _⟩ := hvector _ _ hforward
  obtain ⟨hrefused, _, hsame, _⟩ := forwardVector_gathers 7 [5, 2, 5]
  obtain ⟨f, hf⟩ := hrefused.mpr (.inr (.inr (by decide)))
  exact ⟨hgathers, hunique, ⟨r, hplan, hr⟩, f, (hsame f).mpr hf⟩

end Blocks

end DualRail
