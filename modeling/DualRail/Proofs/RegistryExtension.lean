import DualRail.Proofs.RegistryNames
import DualRail.Catalog.Standard

/-!
Extensions of registries. A registry keeps its entries in canonical form and sorted, and an
extension reads them again together with further ones. Canonical forms are settled and the order of
entries does not show, so nothing of the past is lost: a registry that was built in several steps is
the one that all its entries make at once. Hence an extension keeps every name with its entry, adds
the names of the new entries and no others, and two extensions amount to one.
-/

namespace DualRail

variable {α R : Type}

theorem GateEntry.canonical_idem (e : GateEntry α R) : e.canonical.canonical = e.canonical := by
  have haliases : (e.aliases.map canonicalName).map canonicalName =
      e.aliases.map canonicalName := by
    rw [List.map_map]
    exact List.map_congr_left fun a _ => canonicalName_idem a
  unfold canonical
  simp only [canonicalName_idem, haliases]

namespace Registry

variable {entries extra : List (GateEntry α R)} {r s : Registry α R}

/-- The registry was built from a list of entries and then extended any number of times; `entries`
lists all that was given, in the order and the spelling in which it was given. -/
inductive Grown : List (GateEntry α R) → Registry α R → Prop where
  | new {entries : List (GateEntry α R)} {r : Registry α R} : ofEntries entries = .ok r →
      Grown entries r
  | extend {entries extra : List (GateEntry α R)} {r s : Registry α R} : Grown entries r →
      r.extend extra = .ok s → Grown (entries ++ extra) s

theorem Draft.insert_canonical (d : Draft α R) (e : GateEntry α R) :
    d.insert e.canonical = d.insert e := by
  unfold insert
  rw [GateEntry.canonical_idem]

theorem ofEntries_canonical_append (entries extra : List (GateEntry α R)) :
    ofEntries (entries.map GateEntry.canonical ++ extra) = ofEntries (entries ++ extra) := by
  have hfront : (entries.map GateEntry.canonical).foldlM Draft.insert .empty =
      entries.foldlM (m := Except Failure) Draft.insert .empty := by
    rw [List.foldlM_map]
    simp only [Draft.insert_canonical]
  unfold ofEntries
  rw [List.foldlM_append, List.foldlM_append, hfront]

/-- A registry together with further entries is what its own entries, as they were given, make
together with them. -/
theorem extend_eq_ok_iff (h : ofEntries entries = .ok r) :
    r.extend extra = .ok s ↔ ofEntries (entries ++ extra) = .ok s := by
  have hperm : (r.entries ++ extra).Perm (entries.map GateEntry.canonical ++ extra) :=
    (entries_perm h).append_right extra
  rw [← ofEntries_canonical_append entries extra]
  exact ⟨ofEntries_of_perm hperm, ofEntries_of_perm hperm.symm⟩

/-- However many steps it took, a registry is the one that all its entries make at once. -/
theorem Grown.ofEntries_eq (h : r.Grown entries) : ofEntries entries = .ok r := by
  induction h with
  | new h => exact h
  | extend _ hs ih => exact (extend_eq_ok_iff ih).mp hs

theorem mem_extend (h : r.extend extra = .ok s) (hr : ofEntries entries = .ok r)
    {e : GateEntry α R} :
    e ∈ s.entries ↔ e ∈ r.entries ∨ ∃ x ∈ extra, x.canonical = e := by
  have hs := (extend_eq_ok_iff hr).mp h
  rw [(entries_perm hs).mem_iff, (entries_perm hr).mem_iff, List.map_append, List.mem_append,
    List.mem_map (l := extra)]

theorem find?_extend (h : r.extend extra = .ok s) (hr : ofEntries entries = .ok r) {name : String}
    {e : GateEntry α R} :
    s.find? name = some e ↔ r.find? name = some e ∨
      ∃ x ∈ extra, canonicalName name ∈ x.canonical.names ∧ x.canonical = e := by
  rw [find?_eq_some_iff, find?_eq_some_iff, mem_extend h hr]
  constructor
  · rintro ⟨he | ⟨x, hx, rfl⟩, hname⟩
    · exact .inl ⟨he, hname⟩
    · exact .inr ⟨x, hx, hname, rfl⟩
  · rintro (⟨he, hname⟩ | ⟨x, hx, hname, rfl⟩)
    · exact ⟨.inl he, hname⟩
    · exact ⟨.inr ⟨x, hx, rfl⟩, hname⟩

variable [Quantity R]

/-- Extension is conservative and associative. Extending a registry, however it was built, succeeds
exactly if all its entries and the new ones make a registry at once, and gives that registry. The
names it leads from are those from before, each with its entry, and those of the new entries; a name
from before is built as before for every request. A second extension is the same as one by both
lists: it gives the same registry or fails with it. -/
theorem extension_is_conservative (hr : r.Grown entries) (xs ys : List (GateEntry α R)) :
    (∀ s, r.extend xs = .ok s ↔ ofEntries (entries ++ xs) = .ok s) ∧
    ∀ s, r.extend xs = .ok s →
      (∀ name e, s.find? name = some e ↔ r.find? name = some e ∨
        ∃ x ∈ xs, canonicalName name ∈ x.names.map canonicalName ∧ x.canonical = e) ∧
      (∀ name e, r.find? name = some e → ∀ req, s.lookup name req = r.lookup name req) ∧
      ∀ t, s.extend ys = .ok t ↔ r.extend (xs ++ ys) = .ok t := by
  have hentries := hr.ofEntries_eq
  refine ⟨fun s => extend_eq_ok_iff hentries, fun s hs => ⟨fun name e => ?_, ?_, fun t => ?_⟩⟩
  · exact find?_extend hs hentries
  · intro name e he req
    have hkept : s.find? name = some e := (find?_extend hs hentries).mpr (.inl he)
    unfold lookup
    rw [hkept, he]
  · rw [extend_eq_ok_iff ((extend_eq_ok_iff hentries).mp hs), extend_eq_ok_iff hentries,
      List.append_assoc]

def exchangeEntry (kind : String) (aliases : List String) : GateEntry (Device Float) Float :=
  Standard.double kind aliases "" Standard.swap

theorem exists_of_exchangeEntries (names : List (String × List String))
    (hfilled : ∀ x ∈ names, ∀ name ∈ x.1 :: x.2, canonicalName name ≠ "")
    (hnodup : (names.flatMap fun x => (x.1 :: x.2).map canonicalName).Nodup) :
    ∃ r, ofEntries (names.map fun x => exchangeEntry x.1 x.2) = .ok r := by
  refine exists_ofEntries_iff.mpr ⟨?_, by rwa [List.flatMap_map]⟩
  rw [List.forall_mem_map]
  intro x hx
  have hblank : ∀ name ∈ x.1 :: x.2, ¬ Text.AllBlank name := fun name hname hall =>
    hfilled x hx name hname (canonicalName_eq_empty.mpr hall)
  exact ⟨hblank x.1 List.mem_cons_self, two_pos, le_refl 0, rfl,
    fun a ha => hblank a (List.mem_cons_of_mem _ ha)⟩

theorem extension_is_conservative_steps :
    ∃ r s t u : Registry (Device Float) Float,
      ofEntries [exchangeEntry " CX" ["CNOT"]] = .ok r ∧
      r.extend [exchangeEntry "Swap" []] = .ok s ∧
      s.extend [exchangeEntry "h" ["Had"]] = .ok t ∧
      ofEntries [exchangeEntry " CX" ["CNOT"], exchangeEntry "Swap" [],
        exchangeEntry "h" ["Had"]] = .ok t ∧
      t.find? "Cnot" = some (exchangeEntry "cx" ["cnot"]) ∧
      t.find? "HAD" = some (exchangeEntry "h" ["had"]) ∧
      (∀ req, t.lookup "Cnot" req = s.lookup "Cnot" req) ∧
      t.extend [exchangeEntry "X" []] = .ok u ∧
      s.extend [exchangeEntry "h" ["Had"], exchangeEntry "X" []] = .ok u ∧
      ¬ ∃ v, s.extend [exchangeEntry "sWAP " []] = .ok v := by
  obtain ⟨r, hr⟩ := exists_of_exchangeEntries [(" CX", ["CNOT"])] (by decide) (by decide)
  obtain ⟨s, hs⟩ := exists_of_exchangeEntries [(" CX", ["CNOT"]), ("Swap", [])]
    (by decide) (by decide)
  obtain ⟨t, ht⟩ := exists_of_exchangeEntries
    [(" CX", ["CNOT"]), ("Swap", []), ("h", ["Had"])] (by decide) (by decide)
  obtain ⟨u, hu⟩ := exists_of_exchangeEntries
    [(" CX", ["CNOT"]), ("Swap", []), ("h", ["Had"]), ("X", [])] (by decide) (by decide)
  have hstep : r.extend [exchangeEntry "Swap" []] = .ok s := (extend_eq_ok_iff hr).mpr hs
  have hgrown : s.Grown [exchangeEntry " CX" ["CNOT"], exchangeEntry "Swap" []] :=
    .extend (.new hr) hstep
  obtain ⟨hone, hnames⟩ := extension_is_conservative hgrown [exchangeEntry "h" ["Had"]]
    [exchangeEntry "X" []]
  have hnext := (hone t).mpr ht
  obtain ⟨hfind, hlookup, htwice⟩ := hnames t hnext
  have hcnot : s.find? "Cnot" = some (exchangeEntry "cx" ["cnot"]) := by
    refine find?_of_mem ((entries_perm hs).mem_iff.mpr ?_) (by decide)
    exact List.mem_cons_self
  have hboth : s.extend [exchangeEntry "h" ["Had"], exchangeEntry "X" []] = .ok u :=
    (extend_eq_ok_iff hs).mpr hu
  refine ⟨r, s, t, u, hr, hstep, hnext, ht, (hfind _ _).mpr (.inl hcnot), ?_,
    hlookup _ _ hcnot, (htwice u).mpr hboth, hboth, ?_⟩
  · exact (hfind _ _).mpr (.inr ⟨_, List.mem_singleton_self _, by decide, rfl⟩)
  · rintro ⟨v, hv⟩
    obtain ⟨_, hnodup⟩ := exists_ofEntries_iff.mp ⟨v, (extend_eq_ok_iff hs).mp hv⟩
    revert hnodup
    decide

end Registry

end DualRail
