import DualRail.Proofs.BuiltRegistry

/-!
What makes a list of entries a registry, and what the registry then is. The conditions are about the
entries one by one and about all their canonical names together, so the order of the list does not
matter: the entries come out in ascending order of their kinds, and there is only one such order.
Every name leads to the one entry that has it.
-/

namespace DualRail

def Text.AllBlank (s : String) : Prop := ∀ c ∈ s.toList, Text.isBlank c = true

variable {α R : Type}

/-- The entry can be looked up and built: it has a kind, operands, a count of parameters, a builder,
and no alias without a letter. -/
structure GateEntry.Acceptable (e : GateEntry α R) : Prop where
  kind : ¬ Text.AllBlank e.kind
  arity : 0 < e.arity
  params : 0 ≤ e.params
  build : e.build.isSome = true
  aliases : ∀ a ∈ e.aliases, ¬ Text.AllBlank a

section Names

theorem canonicalName_eq_empty {name : String} : canonicalName name = "" ↔ Text.AllBlank name := by
  rw [canonicalName, String.ofList_eq_empty_iff, List.map_eq_nil_iff]
  exact Text.trim_eq_nil_iff

theorem GateEntry.acceptable_iff {e : GateEntry α R} :
    e.Acceptable ↔ e.canonical.isUsable = true ∧ ∀ x ∈ e.canonical.names, x ≠ "" := by
  have husable : e.canonical.isUsable = true ↔ ¬ Text.AllBlank e.kind ∧ 0 < e.arity ∧
      0 ≤ e.params ∧ e.build.isSome = true := by
    rw [← canonicalName_eq_empty]
    simp only [isUsable, Bool.and_eq_true, bne_iff_ne, decide_eq_true_eq, and_assoc]
    rfl
  have hnames : (∀ x ∈ e.canonical.names, x ≠ "") ↔
      ¬ Text.AllBlank e.kind ∧ ∀ a ∈ e.aliases, ¬ Text.AllBlank a := by
    simp only [names, canonical, List.forall_mem_cons, List.forall_mem_map, ne_eq,
      canonicalName_eq_empty]
  rw [husable, hnames]
  constructor
  · rintro ⟨hkind, harity, hparams, hbuild, haliases⟩
    exact ⟨⟨hkind, harity, hparams, hbuild⟩, hkind, haliases⟩
  · rintro ⟨⟨hkind, harity, hparams, hbuild⟩, _, haliases⟩
    exact ⟨hkind, harity, hparams, hbuild, haliases⟩

theorem nameBefore_iff {s t : List Char} : nameBefore s t = true ↔ s < t := by
  induction s generalizing t with
  | nil => cases t <;> simp [nameBefore]
  | cons a s ih =>
    cases t with
    | nil => simp [nameBefore]
    | cons b t =>
      rw [nameBefore, List.cons_lt_cons_iff]
      by_cases hab : a = b
      · subst hab
        rw [if_pos rfl, ih]
        simp
      · rw [if_neg hab, Nat.blt_eq]
        simp only [hab, false_and, or_false]
        exact Iff.rfl

end Names

namespace Registry

theorem ne_empty_of_claim {kind : String} {index result : NameIndex} {names : List String}
    (h : claim kind index names = .ok result) : ∀ x ∈ names, x ≠ "" := by
  induction names generalizing index with
  | nil =>
    intro x hx
    cases hx
  | cons name rest ih =>
    rw [claim] at h
    split at h
    · cases h
    · rename_i hne
      split at h
      · cases h
      · exact List.forall_mem_cons.mpr ⟨hne, ih h⟩

theorem Draft.acceptable_of_insert {d d' : Draft α R} {e : GateEntry α R}
    (h : d.insert e = .ok d') : e.Acceptable ∧ d'.entries = d.entries ++ [e.canonical] := by
  obtain ⟨husable, byName, hclaim, rfl⟩ := insert_eq_ok h
  exact ⟨GateEntry.acceptable_iff.mpr ⟨husable, ne_empty_of_claim hclaim⟩, rfl⟩

theorem Draft.insertAll_eq_ok {d d' : Draft α R} {entries : List (GateEntry α R)}
    (h : entries.foldlM insert d = .ok d') :
    (∀ e ∈ entries, e.Acceptable) ∧ d'.entries = d.entries ++ entries.map GateEntry.canonical := by
  induction entries generalizing d with
  | nil =>
    obtain rfl := Except.ok.inj (show (Except.ok d : Except Failure (Draft α R)) = .ok d' from h)
    exact ⟨List.forall_mem_nil _, (List.append_nil _).symm⟩
  | cons e rest ih =>
    rw [List.foldlM_cons] at h
    obtain ⟨next, hnext, h⟩ := bind_eq_ok h
    obtain ⟨haccept, hnext⟩ := acceptable_of_insert hnext
    obtain ⟨hrest, hentries⟩ := ih h
    refine ⟨List.forall_mem_cons.mpr ⟨haccept, hrest⟩, ?_⟩
    rw [hentries, hnext, List.append_assoc]
    rfl

variable {entries : List (GateEntry α R)} {r : Registry α R}

theorem ofEntries_eq_ok (h : ofEntries entries = .ok r) :
    (∀ e ∈ entries, e.Acceptable) ∧ (entries.flatMap fun e => e.canonical.names).Nodup ∧
      r.entries = sorted (entries.map GateEntry.canonical) := by
  unfold ofEntries at h
  obtain ⟨d, hd, h⟩ := bind_eq_ok h
  obtain rfl := Except.ok.inj h
  have hentries : d.entries = entries.map GateEntry.canonical := (Draft.insertAll_eq_ok hd).2
  refine ⟨(Draft.insertAll_eq_ok hd).1, ?_, congrArg sorted hentries⟩
  have hnodup := d.distinct
  rwa [hentries, List.flatMap_map] at hnodup

/-- Behind a registry is a draft with all names taken, whose index was filled in after sorting. -/
theorem exists_draft (h : ofEntries entries = .ok r) :
    ∃ d : Draft α R, entries.foldlM Draft.insert .empty = .ok d ∧
      d.entries = entries.map GateEntry.canonical ∧
      (∀ e ∈ d.entries, ∀ name ∈ e.names, d.byName name = some (-1)) ∧
      r.byName = reindex 0 d.byName r.entries := by
  unfold ofEntries at h
  obtain ⟨d, hd, h⟩ := bind_eq_ok h
  obtain rfl := Except.ok.inj h
  refine ⟨d, hd, (Draft.insertAll_eq_ok hd).2, fun e he name hname => ?_, rfl⟩
  rw [d.taken, if_pos (List.mem_flatMap.mpr ⟨e, he, hname⟩)]

theorem exists_ofEntries_iff :
    (∃ r, ofEntries entries = .ok r) ↔
      (∀ e ∈ entries, e.Acceptable) ∧ (entries.flatMap fun e => e.canonical.names).Nodup := by
  constructor
  · rintro ⟨r, hr⟩
    obtain ⟨haccept, hnodup, _⟩ := ofEntries_eq_ok hr
    exact ⟨haccept, hnodup⟩
  · rintro ⟨haccept, hnodup⟩
    obtain ⟨r, hr, _⟩ := ofEntries_of_nodup
      (fun e he => (GateEntry.acceptable_iff.mp (haccept e he)).1)
      (fun e he => (GateEntry.acceptable_iff.mp (haccept e he)).2) hnodup
    exact ⟨r, hr⟩

theorem entries_perm (h : ofEntries entries = .ok r) :
    r.entries.Perm (entries.map GateEntry.canonical) := by
  rw [(ofEntries_eq_ok h).2.2]
  exact List.mergeSort_perm _ _

theorem pairwise_sorted (es : List (GateEntry α R)) :
    (sorted es).Pairwise fun a b => a.kind ≤ b.kind := by
  have hle : ∀ a b : GateEntry α R,
      (!nameBefore b.kind.toList a.kind.toList) = true ↔ a.kind ≤ b.kind := by
    intro a b
    rw [Bool.not_eq_true', Bool.eq_false_iff, ne_eq, nameBefore_iff, ← String.lt_iff, not_lt]
  have htotal : ∀ a b : GateEntry α R, (!nameBefore b.kind.toList a.kind.toList ||
      !nameBefore a.kind.toList b.kind.toList) = true := by
    intro a b
    rw [Bool.or_eq_true, hle, hle]
    exact le_total _ _
  have hsorted : (sorted es).Pairwise fun a b =>
      (!nameBefore b.kind.toList a.kind.toList) = true :=
    List.pairwise_mergeSort
      (fun a b c hab hbc => (hle a c).mpr (((hle a b).mp hab).trans ((hle b c).mp hbc))) htotal es
  exact hsorted.imp fun h => (hle _ _).mp h

theorem pairwise_entries (h : ofEntries entries = .ok r) :
    r.entries.Pairwise fun a b => a.kind < b.kind := by
  obtain ⟨_, hnodup, hentries⟩ := ofEntries_eq_ok h
  have hnames : (r.entries.flatMap GateEntry.names).Nodup := by
    rw [((entries_perm h).flatMap_right _).nodup_iff, List.flatMap_map]
    exact hnodup
  have hne : r.entries.Pairwise fun a b => a.kind ≠ b.kind := by
    refine (List.nodup_flatMap.mp hnames).2.imp fun hdisjoint heq => ?_
    exact hdisjoint List.mem_cons_self (heq ▸ List.mem_cons_self)
  have hle := pairwise_sorted (entries.map GateEntry.canonical)
  rw [← hentries] at hle
  exact (hle.and hne).imp fun h => lt_of_le_of_ne h.1 h.2

/-- The order in which entries are given does not show. -/
theorem ofEntries_of_perm {entries' : List (GateEntry α R)} (hperm : entries.Perm entries')
    (h : ofEntries entries = .ok r) : ofEntries entries' = .ok r := by
  obtain ⟨haccept, hnodup⟩ := exists_ofEntries_iff.mp ⟨r, h⟩
  obtain ⟨r', h'⟩ : ∃ r', ofEntries entries' = .ok r' := by
    refine exists_ofEntries_iff.mpr ⟨fun e he => haccept e (hperm.mem_iff.mpr he), ?_⟩
    exact (hperm.flatMap_right _).nodup_iff.mp hnodup
  have hsame : r.entries.Perm r'.entries :=
    (entries_perm h).trans ((hperm.map _).trans (entries_perm h').symm)
  have heq : r.entries = r'.entries := by
    refine hsame.eq_of_pairwise ?_ (pairwise_entries h) (pairwise_entries h')
    intro a b _ _ hab hba
    exact absurd hba hab.asymm
  rwa [eq_of_entries heq]

/-- Registries by the names of their entries. A list of entries makes a registry if and only if each
of them is acceptable and all their canonical names differ. Its order makes no difference to that or
to the registry. The registry holds the entries in canonical form, in strictly ascending order of
kinds. In its index every name stands at the sorted place of its entry, in place of the `-1` it had
while entries were collected, and no other name stands anywhere. A lookup, which goes through the
index, finds what a search through the names of all entries finds: the one entry that has the
canonical form of the name among its names, and none if there is no such entry. -/
theorem ofEntries_by_names (entries : List (GateEntry α R)) :
    ((∃ r, ofEntries entries = .ok r) ↔ (∀ e ∈ entries, e.Acceptable) ∧
      (entries.flatMap fun e => e.names.map canonicalName).Nodup) ∧
    (∀ entries', entries.Perm entries' → ∀ r,
      ofEntries entries = .ok r ↔ ofEntries entries' = .ok r) ∧
    ∀ r, ofEntries entries = .ok r →
      r.entries.Perm (entries.map GateEntry.canonical) ∧ r.kinds.Pairwise (· < ·) ∧
      (∃ d : Draft α R, entries.foldlM Draft.insert .empty = .ok d ∧
        d.entries = entries.map GateEntry.canonical ∧
        (∀ e ∈ d.entries, ∀ name ∈ e.names, d.byName name = some (-1)) ∧
        r.byName = reindex 0 d.byName r.entries) ∧
      (∀ (i : Nat) (e : GateEntry α R), r.entries[i]? = some e →
        ∀ name ∈ e.names, r.byName name = some (i : Int)) ∧
      (∀ name, (∀ e ∈ r.entries, name ∉ e.names) → r.byName name = none) ∧
      ∀ name, (r.find? name = r.entries.find? fun e => e.names.contains (canonicalName name)) ∧
        (∀ e, r.find? name = some e ↔ (e ∈ r.entries ∧ canonicalName name ∈ e.names) ∧
          ∀ e' ∈ r.entries, canonicalName name ∈ e'.names → e' = e) ∧
        (r.find? name = none ↔ ∀ e ∈ r.entries, canonicalName name ∉ e.names) := by
  refine ⟨exists_ofEntries_iff, fun entries' hperm r => ?_, fun r h => ?_⟩
  · exact ⟨ofEntries_of_perm hperm, ofEntries_of_perm hperm.symm⟩
  · refine ⟨entries_perm h, List.pairwise_map.mpr (pairwise_entries h), exists_draft h,
      fun i e he name hname => byName_of_getElem? he hname, fun name => byName_eq_none,
      fun name => ⟨find?_eq_search r name, fun e => ?_, find?_eq_none_iff⟩⟩
    rw [find?_eq_some_iff]
    constructor
    · intro he
      exact ⟨he, fun e' he' hname => eq_of_shared_name he' he.1 hname he.2⟩
    · exact And.left

def blankEntry (kind : String) (aliases : List String) : GateEntry Unit Unit :=
  { kind, aliases, arity := 1, params := 0, summary := ""
    build := some fun _ => refuse .invalidFragment [] }

/-- Two entries in either order: the kinds are sorted, an alias is found however it is written, and
an unknown name is not. -/
theorem ofEntries_by_names_pair :
    ∃ r, ofEntries [blankEntry " X" ["NOT"], blankEntry "h" []] = .ok r ∧
      ofEntries [blankEntry "h" [], blankEntry " X" ["NOT"]] = .ok r ∧
      r.kinds.Pairwise (· < ·) ∧ r.find? "Not " = some (blankEntry "x" ["not"]) ∧
      r.find? "y" = none := by
  obtain ⟨hok, horder, hregistry⟩ :=
    ofEntries_by_names [blankEntry " X" ["NOT"], blankEntry "h" []]
  have hfilled : ∀ {name : String}, canonicalName name ≠ "" → ¬ Text.AllBlank name :=
    fun h hblank => h (canonicalName_eq_empty.mpr hblank)
  have haccept : ∀ e ∈ [blankEntry " X" ["NOT"], blankEntry "h" []], e.Acceptable := by
    refine List.forall_mem_cons.mpr ⟨?_, List.forall_mem_singleton.mpr ?_⟩
    · exact ⟨hfilled (by decide), by decide, by decide, rfl,
        List.forall_mem_singleton.mpr (hfilled (by decide))⟩
    · exact ⟨hfilled (by decide), by decide, by decide, rfl, List.forall_mem_nil _⟩
  obtain ⟨r, hr⟩ := hok.mpr ⟨haccept, by decide⟩
  obtain ⟨hperm, hkinds, _, _, _, hfind⟩ := hregistry r hr
  have hx : (blankEntry " X" ["NOT"]).canonical = blankEntry "x" ["not"] := rfl
  have hh : (blankEntry "h" []).canonical = blankEntry "h" [] := rfl
  rw [List.map_cons, List.map_singleton, hx, hh] at hperm
  have hmem : ∀ e, e ∈ r.entries ↔ e = blankEntry "x" ["not"] ∨ e = blankEntry "h" [] := by
    intro e
    rw [hperm.mem_iff, List.mem_cons, List.mem_singleton]
  refine ⟨r, hr, (horder _ (List.Perm.swap _ _ _) r).mp hr, hkinds, ?_, ?_⟩
  · refine ((hfind "Not ").2.1 _).mpr ⟨⟨(hmem _).mpr (.inl rfl), by decide⟩, ?_⟩
    intro e he hname
    rcases (hmem e).mp he with rfl | rfl
    · rfl
    · exact absurd hname (by decide)
  · refine (hfind "y").2.2.mpr fun e he => ?_
    rcases (hmem e).mp he with rfl | rfl
    · decide
    · decide

end Registry

end DualRail
