import DualRail.Proofs.CanonicalName
import DualRail.Proofs.FragmentBlock

/-!
Registries as they are built from entries. The index of a registry leads every name to the one entry
that has it, so a lookup is a search through the names. The kinds of a built registry are canonical
and lead back to their entries, and a fragment that a lookup gives is valid for the arity of the
entry that was found.
-/

namespace DualRail.Registry

variable {α R : Type}

/-- The registry came about from a list of entries. -/
def Built (r : Registry α R) : Prop := ∃ entries, ofEntries entries = .ok r

section Lookups

variable {r : Registry α R} {name : String} {e : GateEntry α R}

theorem eq_of_entries {r s : Registry α R} (h : r.entries = s.entries) : r = s := by
  obtain ⟨entries, byName, hr⟩ := r
  obtain ⟨_, byName', hs⟩ := s
  obtain rfl : entries = _ := h
  have hindex : byName = byName' := by
    funext name
    refine Option.ext fun place => ?_
    rw [hr, hs]
  subst hindex
  rfl

theorem byName_of_getElem? {i : Nat} (he : r.entries[i]? = some e) (hn : name ∈ e.names) :
    r.byName name = some (i : Int) := (r.indexed name i).mpr ⟨i, e, rfl, he, hn⟩

theorem byName_of_mem (he : e ∈ r.entries) (hn : name ∈ e.names) :
    ∃ i : Nat, r.byName name = some (i : Int) ∧ r.entries[i]? = some e := by
  obtain ⟨i, hi⟩ := List.mem_iff_getElem?.mp he
  exact ⟨i, byName_of_getElem? hi hn, hi⟩

theorem byName_eq_none (h : ∀ e ∈ r.entries, name ∉ e.names) : r.byName name = none := by
  cases hplace : r.byName name with
  | none => rfl
  | some place =>
    obtain ⟨i, e, _, he, hn⟩ := (r.indexed name place).mp hplace
    exact absurd hn (h e (List.mem_of_getElem? he))

theorem eq_of_shared_name {e' : GateEntry α R} (he : e ∈ r.entries) (he' : e' ∈ r.entries)
    (hn : name ∈ e.names) (hn' : name ∈ e'.names) : e = e' := by
  obtain ⟨i, hi, hei⟩ := byName_of_mem he hn
  obtain ⟨j, hj, hej⟩ := byName_of_mem he' hn'
  obtain rfl : i = j := Int.ofNat.inj (Option.some.inj (hi.symm.trans hj))
  exact Option.some.inj (hei.symm.trans hej)

theorem find?_eq_some (h : r.find? name = some e) :
    e ∈ r.entries ∧ canonicalName name ∈ e.names := by
  unfold find? at h
  split at h
  · cases h
  · rename_i place hplace
    obtain ⟨i, e', rfl, he', hname⟩ := (r.indexed _ place).mp hplace
    obtain rfl := Option.some.inj h
    have hget : r.entries.get ⟨(i : Int).toNat, r.toNat_lt_of_byName hplace⟩ = e' :=
      (List.getElem?_eq_some_iff.mp he').2
    rw [hget]
    exact ⟨List.mem_of_getElem? he', hname⟩

theorem find?_of_mem (he : e ∈ r.entries) (hn : canonicalName name ∈ e.names) :
    r.find? name = some e := by
  cases hf : r.find? name with
  | none =>
    obtain ⟨i, hi, _⟩ := byName_of_mem he hn
    unfold find? at hf
    split at hf
    · rename_i hnone
      rw [hi] at hnone
      cases hnone
    · cases hf
  | some e' =>
    obtain ⟨he', hn'⟩ := find?_eq_some hf
    rw [eq_of_shared_name he' he hn' hn]

theorem find?_eq_some_iff :
    r.find? name = some e ↔ e ∈ r.entries ∧ canonicalName name ∈ e.names :=
  ⟨find?_eq_some, fun h => find?_of_mem h.1 h.2⟩

/-- A lookup by the index is a search through the names of all entries. -/
theorem find?_eq_search (r : Registry α R) (name : String) :
    r.find? name = r.entries.find? fun e => e.names.contains (canonicalName name) := by
  cases hs : r.entries.find? fun e => e.names.contains (canonicalName name) with
  | none =>
    cases hf : r.find? name with
    | none => rfl
    | some e =>
      obtain ⟨he, hn⟩ := find?_eq_some hf
      exact absurd (List.contains_iff_mem.mpr hn) (List.find?_eq_none.mp hs e he)
  | some e =>
    have hn := List.find?_some hs
    exact find?_of_mem (List.mem_of_find?_eq_some hs) (List.contains_iff_mem.mp hn)

theorem find?_eq_none_iff :
    r.find? name = none ↔ ∀ e ∈ r.entries, canonicalName name ∉ e.names := by
  simp [find?_eq_search]

end Lookups

namespace Draft

theorem insert_eq_ok {d d' : Draft α R} {e : GateEntry α R} (h : d.insert e = .ok d') :
    e.canonical.isUsable = true ∧ ∃ byName hclaim, d' = d.push e.canonical byName hclaim := by
  unfold insert at h
  simp only at h
  split at h
  · rename_i husable
    split at h
    · cases h
    · rename_i byName hclaim
      exact ⟨husable, byName, hclaim, (Except.ok.inj h).symm⟩
  · cases h

theorem insert_of_claim {d : Draft α R} {e : GateEntry α R} (hu : e.canonical.isUsable = true)
    {byName : NameIndex} (hclaim : claim e.canonical.kind d.byName e.canonical.names = .ok byName) :
    d.insert e = .ok (d.push e.canonical byName hclaim) := by
  unfold insert
  simp only
  rw [if_pos hu]
  split
  · rename_i hf
    rw [hclaim] at hf
    cases hf
  · rename_i byName' hok
    obtain rfl := Except.ok.inj (hclaim.symm.trans hok)
    rfl

structure Sound (d : Draft α R) : Prop where
  usable : ∀ e ∈ d.entries, e.isUsable = true
  canonical : ∀ e ∈ d.entries, canonicalName e.kind = e.kind

theorem sound_insert {d d' : Draft α R} {e : GateEntry α R} (hd : d.Sound)
    (h : d.insert e = .ok d') : d'.Sound := by
  obtain ⟨husable, byName, hclaim, rfl⟩ := insert_eq_ok h
  refine ⟨fun x hx => ?_, fun x hx => ?_⟩
  · rcases List.mem_append.mp hx with hx | hx
    · exact hd.usable x hx
    · obtain rfl := List.mem_singleton.mp hx
      exact husable
  · rcases List.mem_append.mp hx with hx | hx
    · exact hd.canonical x hx
    · obtain rfl := List.mem_singleton.mp hx
      exact canonicalName_idem e.kind

theorem sound_insertAll {d d' : Draft α R} {entries : List (GateEntry α R)} (hd : d.Sound)
    (h : entries.foldlM insert d = .ok d') : d'.Sound := by
  induction entries generalizing d with
  | nil =>
    obtain rfl := Except.ok.inj (show (Except.ok d : Except Failure (Draft α R)) = .ok d' from h)
    exact hd
  | cons e rest ih =>
    rw [List.foldlM_cons] at h
    obtain ⟨next, hnext, h⟩ := bind_eq_ok h
    exact ih (sound_insert hd hnext) h

end Draft

theorem claim_of_nodup (kind : String) {index : NameIndex} {names : List String}
    (hne : ∀ x ∈ names, x ≠ "") (hnew : ∀ x ∈ names, index x = none) (hnd : names.Nodup) :
    ∃ result, claim kind index names = .ok result := by
  induction names generalizing index with
  | nil => exact ⟨index, rfl⟩
  | cons name rest ih =>
    obtain ⟨hname, hrest⟩ := List.nodup_cons.mp hnd
    rw [claim, if_neg (hne name List.mem_cons_self), hnew name List.mem_cons_self,
      if_neg (by simp)]
    refine ih (fun x hx => hne x (List.mem_cons_of_mem _ hx)) (fun x hx => ?_) hrest
    have hother : x ≠ name := fun heq => hname (heq ▸ hx)
    rw [NameIndex.put, if_neg hother]
    exact hnew x (List.mem_cons_of_mem _ hx)

theorem Draft.insertAll_of_nodup {entries : List (GateEntry α R)} {d : Draft α R}
    (hu : ∀ e ∈ entries, e.canonical.isUsable = true)
    (hne : ∀ e ∈ entries, ∀ x ∈ e.canonical.names, x ≠ "")
    (hnd : ((d.entries ++ entries.map GateEntry.canonical).flatMap GateEntry.names).Nodup) :
    ∃ d', entries.foldlM Draft.insert d = .ok d' ∧
      d'.entries = d.entries ++ entries.map GateEntry.canonical := by
  induction entries generalizing d with
  | nil => exact ⟨d, rfl, by simp⟩
  | cons e rest ih =>
    rw [List.map_cons, List.append_cons] at hnd ⊢
    have hfront := (List.nodup_append.mp (by rwa [List.flatMap_append] at hnd)).1
    rw [List.flatMap_append, List.flatMap_singleton, List.nodup_append] at hfront
    obtain ⟨_, hown, hnew⟩ := hfront
    have hfree : ∀ x ∈ e.canonical.names, d.byName x = none := by
      intro x hx
      rw [d.taken, if_neg fun hmem => hnew x hmem x hx rfl]
    obtain ⟨byName, hclaim⟩ :=
      claim_of_nodup e.canonical.kind (hne e List.mem_cons_self) hfree hown
    obtain ⟨d', hd', hentries⟩ := ih (d := d.push e.canonical byName hclaim)
      (fun x hx => hu x (List.mem_cons_of_mem _ hx))
      (fun x hx => hne x (List.mem_cons_of_mem _ hx)) hnd
    refine ⟨d', ?_, hentries⟩
    rw [List.foldlM_cons, insert_of_claim (hu e List.mem_cons_self) hclaim]
    exact hd'

/-- Usable entries with distinct names make a registry of just these entries. -/
theorem ofEntries_of_nodup {entries : List (GateEntry α R)}
    (hu : ∀ e ∈ entries, e.canonical.isUsable = true)
    (hne : ∀ e ∈ entries, ∀ x ∈ e.canonical.names, x ≠ "")
    (hnd : (entries.flatMap fun e => e.canonical.names).Nodup) :
    ∃ r, ofEntries entries = .ok r ∧ r.entries.Perm (entries.map GateEntry.canonical) := by
  rw [← List.flatMap_map] at hnd
  obtain ⟨d, hd, hentries⟩ := Draft.insertAll_of_nodup (d := .empty) hu hne hnd
  refine ⟨d.finish, ?_, ?_⟩
  · unfold ofEntries
    rw [hd]
    rfl
  · exact (sorted_perm _).trans (.of_eq hentries)

theorem exists_of_entry {e : GateEntry α R} (hcanonical : e.canonical = e)
    (hu : e.isUsable = true) (hne : ∀ x ∈ e.names, x ≠ "") (hnd : e.names.Nodup) :
    ∃ r : Registry α R, r.Built ∧ e ∈ r.entries := by
  obtain ⟨r, hr, hperm⟩ : ∃ r, ofEntries [e] = .ok r ∧
      r.entries.Perm ([e].map GateEntry.canonical) :=
    ofEntries_of_nodup (by simpa [hcanonical] using hu) (by simpa [hcanonical] using hne)
      (by simpa [hcanonical] using hnd)
  refine ⟨r, ⟨[e], hr⟩, hperm.mem_iff.mpr ?_⟩
  rw [List.map_singleton, hcanonical]
  exact List.mem_singleton_self e

variable {r : Registry α R}

theorem Built.draft (h : r.Built) : ∃ d : Draft α R, d.Sound ∧ r.entries.Perm d.entries := by
  obtain ⟨entries, h⟩ := h
  unfold ofEntries at h
  obtain ⟨d, hd, h⟩ := bind_eq_ok h
  obtain rfl := Except.ok.inj h
  exact ⟨d, Draft.sound_insertAll ⟨List.forall_mem_nil _, List.forall_mem_nil _⟩ hd, sorted_perm _⟩

theorem Built.arity_pos (h : r.Built) {e : GateEntry α R} (he : e ∈ r.entries) : 0 < e.arity := by
  obtain ⟨d, hd, hperm⟩ := h.draft
  have hu := hd.usable e (hperm.mem_iff.mp he)
  simp only [GateEntry.isUsable, Bool.and_eq_true, decide_eq_true_eq] at hu
  exact hu.1.1.2

theorem Built.find?_kind (h : r.Built) {e : GateEntry α R} (he : e ∈ r.entries) :
    r.find? e.kind = some e := by
  obtain ⟨d, hd, hperm⟩ := h.draft
  apply find?_of_mem he
  rw [hd.canonical e (hperm.mem_iff.mp he)]
  exact List.mem_cons_self

variable [Quantity R]

theorem Built.lookup_kind (h : r.Built) {e : GateEntry α R} (he : e ∈ r.entries)
    (req : Request R) : r.lookup e.kind req = buildFragment e req := by
  unfold lookup
  rw [h.find?_kind he]

theorem buildFragment_eq_ok {e : GateEntry α R} {req : Request R} {f : Fragment α R} :
    buildFragment e req = .ok f ↔ (req.params.length : Int) = e.params ∧
      ∃ build, e.build = some build ∧ build req = .ok f ∧ f.validate e.arity = .ok () := by
  unfold buildFragment
  constructor
  · intro h
    split at h
    · cases h
    · rename_i hparams
      split at h
      · cases h
      · rename_i build hbuild
        obtain ⟨g, hg, h⟩ := bind_eq_ok (noting_eq_ok h)
        obtain ⟨_, hv, h⟩ := bind_eq_ok h
        obtain rfl := Except.ok.inj h
        exact ⟨not_not.mp hparams, build, hbuild, hg, hv⟩
  · rintro ⟨hparams, build, hbuild, hg, hv⟩
    rw [if_neg (not_not.mpr hparams), hbuild]
    simp only
    rw [hg, ok_bind, hv]
    rfl

theorem valid_of_buildFragment {e : GateEntry α R} {req : Request R} {f : Fragment α R}
    (h : buildFragment e req = .ok f) :
    ∃ c, f.Valid c ∧ (f.qubitOffsets.length : Int) = e.arity := by
  obtain ⟨_, _, _, _, hv⟩ := buildFragment_eq_ok.mp h
  exact Fragment.valid_of_validate hv

end DualRail.Registry
