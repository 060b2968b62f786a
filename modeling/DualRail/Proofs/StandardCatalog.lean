import Mathlib
import DualRail.Compiler.Settings
import DualRail.Proofs.BuiltRegistry

/-!
The standard catalog as a registry: every name of a standard gate, in any case and with blanks
around it, leads to its entry, and what a lookup gives is what the entry's builder gives.
-/

namespace DualRail.Standard

variable {R : Type} [Quantity R]

def allNames : List String :=
  ["id", "h", "x", "y", "z", "s", "sdg", "t", "tdg", "sx", "p", "phase", "rz", "rx", "ry", "u",
    "u3", "cx", "cnot", "cz", "swap"]

theorem names_entries :
    (entries : List (GateEntry (Device R) R)).flatMap GateEntry.names = allNames := rfl

theorem canonical_allNames : ∀ x ∈ allNames, canonicalName x = x ∧ x ≠ "" := by
  decide +kernel

theorem canonical_of_mem {e : GateEntry (Device R) R} (h : e ∈ entries) :
    e.canonical = e ∧ ∀ x ∈ e.names, x ≠ "" := by
  have hall : ∀ x ∈ e.names, canonicalName x = x ∧ x ≠ "" := fun x hx =>
    canonical_allNames x (names_entries (R := R) ▸ List.mem_flatMap.mpr ⟨e, h, hx⟩)
  refine ⟨?_, fun x hx => (hall x hx).2⟩
  have haliases : e.aliases.map canonicalName = e.aliases := by
    rw [List.map_congr_left fun x hx => (hall x (List.mem_cons_of_mem _ hx)).1, List.map_id']
  unfold GateEntry.canonical
  rw [(hall e.kind List.mem_cons_self).1, haliases]

theorem isUsable_of_mem {e : GateEntry (Device R) R} (h : e ∈ entries) : e.isUsable = true := by
  have hkind : e.kind ≠ "" := (canonical_of_mem h).2 _ List.mem_cons_self
  have hall : ∀ e ∈ (entries : List (GateEntry (Device R) R)),
      0 < e.arity ∧ 0 ≤ e.params ∧ e.build.isSome = true := by
    simp [entries, single, double]
  simp [GateEntry.isUsable, hkind, hall e h]

theorem ofEntries_entries :
    Registry.ofEntries (entries : List (GateEntry (Device R) R)) = .ok registry ∧
      (registry : Registry (Device R) R).entries.Perm entries := by
  have hflat : ((entries : List (GateEntry (Device R) R)).flatMap fun e => e.canonical.names) =
      allNames := by
    rw [← names_entries (R := R)]
    exact List.flatMap_congr fun e he => by rw [(canonical_of_mem he).1]
  have hmap : (entries : List (GateEntry (Device R) R)).map GateEntry.canonical = entries := by
    rw [List.map_congr_left fun e he => (canonical_of_mem he).1, List.map_id']
  obtain ⟨r, hr, hperm⟩ := Registry.ofEntries_of_nodup (R := R) (α := Device R)
    (fun e he => by
      rw [(canonical_of_mem he).1]
      exact isUsable_of_mem he)
    (fun e he x hx => (canonical_of_mem he).2 x (by rwa [(canonical_of_mem he).1] at hx))
    (by
      rw [hflat]
      decide)
  have hreg : (registry : Registry (Device R) R) = r := by
    unfold registry
    rw [hr]
  rw [hreg]
  exact ⟨hr, hmap ▸ hperm⟩

theorem registry_built : (registry : Registry (Device R) R).Built :=
  ⟨entries, ofEntries_entries.1⟩

theorem standard_built : (Settings.standard : Settings (Device R) R).registry.Built := by
  simp only [Settings.standard, Settings.ofRegistry]
  exact registry_built

theorem mem_registry {e : GateEntry (Device R) R} : e ∈ registry.entries ↔ e ∈ entries :=
  ofEntries_entries.2.mem_iff

theorem find?_registry {name : String} {e : GateEntry (Device R) R} :
    registry.find? name = some e ↔ e ∈ entries ∧ canonicalName name ∈ e.names := by
  constructor
  · intro h
    obtain ⟨he, hn⟩ := Registry.find?_eq_some h
    exact ⟨mem_registry.mp he, hn⟩
  · rintro ⟨he, hn⟩
    exact Registry.find?_of_mem (mem_registry.mpr he) hn

theorem lookup_registry {e : GateEntry (Device R) R} (he : e ∈ entries) (req : Request R) :
    registry.lookup e.kind req = Registry.buildFragment e req :=
  registry_built.lookup_kind (mem_registry.mpr he) req

end DualRail.Standard
