import DualRail.Catalog.Fragment
import DualRail.Text.Blank
import DualRail.Text.LowerCase

/-!
Registries of gates. An entry names a gate, its aliases, how many qubits and parameters it takes,
and how its fragment is built. Names are compared after trimming and lower-casing. A registry keeps
its entries sorted by kind, and an index of all their names; no name belongs to two entries. While
entries come in, the index only holds which names are taken. The places are put in once the entries
are sorted.
-/

namespace DualRail

structure Request (R : Type) where
  heralded : Bool
  params : List R

structure GateEntry (α R : Type) where
  kind : String
  aliases : List String
  arity : Int
  params : Int
  summary : String
  build : Option (Request R → Except Failure (Fragment α R))

def canonicalName (name : String) : String :=
  String.ofList ((Text.trim name.toList).map Text.lowerCase)

namespace GateEntry

variable {α R : Type}

def names (e : GateEntry α R) : List String := e.kind :: e.aliases

def canonical (e : GateEntry α R) : GateEntry α R :=
  { e with kind := canonicalName e.kind, aliases := e.aliases.map canonicalName }

def isUsable (e : GateEntry α R) : Bool :=
  e.kind != "" && 0 < e.arity && 0 ≤ e.params && e.build.isSome

end GateEntry

def nameBefore : List Char → List Char → Bool
  | _, [] => false
  | [], _ :: _ => true
  | a :: as, b :: bs => if a = b then nameBefore as bs else Nat.blt a.toNat b.toNat

/-- Where the entries of names stand. While entries are collected every name stands at `-1`. -/
abbrev NameIndex := String → Option Int

namespace NameIndex

def put (index : NameIndex) (name : String) (place : Int) : NameIndex :=
  fun other => if other = name then some place else index other

def putAll (index : NameIndex) (names : List String) (place : Int) : NameIndex :=
  names.foldl (fun index name => index.put name place) index

theorem putAll_apply (index : NameIndex) (names : List String) (place : Int) (name : String) :
    index.putAll names place name = if name ∈ names then some place else index name := by
  induction names generalizing index with
  | nil => rfl
  | cons first rest ih =>
    rw [putAll, List.foldl_cons, ← putAll, ih]
    by_cases hrest : name ∈ rest
    · rw [if_pos hrest, if_pos (List.mem_cons_of_mem _ hrest)]
    · simp only [hrest, if_false, put, List.mem_cons, or_false]

end NameIndex

/-- A registry with the index of its names: each name stands at the place of the entry that has
it. -/
structure Registry (α R : Type) where
  entries : List (GateEntry α R)
  byName : NameIndex
  indexed : ∀ name place, byName name = some place ↔
    ∃ (i : Nat) (e : GateEntry α R), place = i ∧ entries[i]? = some e ∧ name ∈ e.names

namespace Registry

variable {α R : Type}

/-- Takes up the names of an entry one by one; each must be new and not empty. -/
def claim (kind : String) (index : NameIndex) : List String → Except Failure NameIndex
  | [] => .ok index
  | name :: rest =>
    if name = "" then refuse .invalidEntry [.emptyAlias kind]
    else if (index name).isSome then refuse .duplicateKind [.gateName name]
    else claim kind (index.put name (-1)) rest

theorem claim_eq_ok {kind : String} {index result : NameIndex} {names : List String}
    (h : claim kind index names = .ok result) :
    names.Nodup ∧ (∀ name ∈ names, index name = none) ∧ result = index.putAll names (-1) := by
  induction names generalizing index with
  | nil =>
    obtain rfl := Except.ok.inj h
    exact ⟨List.nodup_nil, fun _ hname => (nomatch hname), rfl⟩
  | cons first rest ih =>
    rw [claim] at h
    split at h
    · cases h
    · split at h
      · cases h
      · rename_i hnew
        obtain ⟨hnodup, hnone, hresult⟩ := ih h
        have hfirst : index first = none := Option.not_isSome_iff_eq_none.mp hnew
        have hput : ∀ name ∈ rest, name ≠ first ∧ index name = none := by
          intro name hname
          have hnone := hnone name hname
          rw [NameIndex.put] at hnone
          split at hnone
          · cases hnone
          · exact ⟨by assumption, hnone⟩
        refine ⟨List.nodup_cons.mpr ⟨fun hmem => (hput first hmem).1 rfl, hnodup⟩, ?_, hresult⟩
        intro name hname
        rcases List.mem_cons.mp hname with rfl | hname
        · exact hfirst
        · exact (hput name hname).2

/-- The entries collected so far. All their names are taken, and no name twice. -/
structure Draft (α R : Type) where
  entries : List (GateEntry α R)
  byName : NameIndex
  taken : ∀ name, byName name =
    if name ∈ entries.flatMap GateEntry.names then some (-1) else none
  distinct : (entries.flatMap GateEntry.names).Nodup

namespace Draft

def empty : Draft α R := ⟨[], fun _ => none, fun _ => rfl, List.nodup_nil⟩

def push (d : Draft α R) (e : GateEntry α R) (byName : NameIndex)
    (h : claim e.kind d.byName e.names = .ok byName) : Draft α R where
  entries := d.entries ++ [e]
  byName
  taken := by
    intro name
    rw [(claim_eq_ok h).2.2, NameIndex.putAll_apply, d.taken, List.flatMap_append,
      List.flatMap_singleton]
    by_cases hname : name ∈ e.names
    · rw [if_pos hname, if_pos (List.mem_append_right _ hname)]
    · simp only [hname, if_false, List.mem_append, or_false]
  distinct := by
    obtain ⟨hnodup, hnone, _⟩ := claim_eq_ok h
    rw [List.flatMap_append, List.flatMap_singleton, List.nodup_append]
    refine ⟨d.distinct, hnodup, fun a ha b hb hab => ?_⟩
    have hold := hnone b hb
    rw [d.taken, if_pos (hab ▸ ha)] at hold
    cases hold

def insert (d : Draft α R) (e : GateEntry α R) : Except Failure (Draft α R) :=
  let e := e.canonical
  if e.isUsable then
    match h : claim e.kind d.byName e.names with
    | .error f => .error f
    | .ok byName => .ok (d.push e byName h)
  else refuse .invalidEntry [.catalogEntry e.kind]

end Draft

def sorted (entries : List (GateEntry α R)) : List (GateEntry α R) :=
  entries.mergeSort fun a b => !nameBefore b.kind.toList a.kind.toList

theorem sorted_perm (entries : List (GateEntry α R)) : (sorted entries).Perm entries :=
  List.mergeSort_perm _ _

/-- Puts every name at the place of its entry, the first entry being at `place`. -/
def reindex (place : Nat) (index : NameIndex) : List (GateEntry α R) → NameIndex
  | [] => index
  | e :: rest => reindex (place + 1) (index.putAll e.names place) rest

/-- With distinct names no place is put over another, and only names of no entry stand where they
stood. -/
theorem reindex_eq_some {entries : List (GateEntry α R)}
    (h : (entries.flatMap GateEntry.names).Nodup) {start : Nat} {index : NameIndex} {name : String}
    {place : Int} :
    reindex start index entries name = some place ↔
      (∃ (i : Nat) (e : GateEntry α R), place = (start + i : Nat) ∧ entries[i]? = some e ∧
        name ∈ e.names) ∨
      name ∉ entries.flatMap GateEntry.names ∧ index name = some place := by
  induction entries generalizing start index with
  | nil => simp [reindex]
  | cons first rest ih =>
    rw [List.flatMap_cons, List.nodup_append] at h
    obtain ⟨_, hrest, hdisjoint⟩ := h
    rw [reindex, ih hrest, NameIndex.putAll_apply, List.flatMap_cons, List.mem_append]
    constructor
    · rintro (⟨i, e, rfl, he, hname⟩ | ⟨hnot, hplace⟩)
      · exact .inl ⟨i + 1, e, by rw [Nat.add_right_comm, Nat.add_assoc], he, hname⟩
      · split at hplace
        · rename_i hname
          obtain rfl := Option.some.inj hplace
          exact .inl ⟨0, first, rfl, rfl, hname⟩
        · rename_i hname
          exact .inr ⟨fun hor => hor.elim hname hnot, hplace⟩
    · rintro (⟨i, e, rfl, he, hname⟩ | ⟨hnot, hplace⟩)
      · cases i with
        | zero =>
          obtain rfl := Option.some.inj he
          refine .inr ⟨fun hmem => hdisjoint name hname name hmem rfl, ?_⟩
          rw [if_pos hname]
          rfl
        | succ i => exact .inl ⟨i, e, by rw [Nat.add_right_comm, Nat.add_assoc], he, hname⟩
      · refine .inr ⟨fun hmem => hnot (.inr hmem), ?_⟩
        rw [if_neg fun hmem => hnot (.inl hmem), hplace]

def Draft.finish (d : Draft α R) : Registry α R where
  entries := sorted d.entries
  byName := reindex 0 d.byName (sorted d.entries)
  indexed := by
    intro name place
    have hperm := (sorted_perm d.entries).flatMap_right GateEntry.names
    rw [reindex_eq_some (hperm.nodup_iff.mpr d.distinct), d.taken, hperm.mem_iff]
    constructor
    · rintro (⟨i, e, rfl, he, hname⟩ | ⟨hnot, hplace⟩)
      · exact ⟨i, e, by rw [Nat.zero_add], he, hname⟩
      · rw [if_neg hnot] at hplace
        cases hplace
    · rintro ⟨i, e, rfl, he, hname⟩
      exact .inl ⟨i, e, by rw [Nat.zero_add], he, hname⟩

def empty : Registry α R := Draft.empty.finish

def ofEntries (entries : List (GateEntry α R)) : Except Failure (Registry α R) := do
  let draft ← entries.foldlM Draft.insert .empty
  return draft.finish

def extend (r : Registry α R) (extra : List (GateEntry α R)) : Except Failure (Registry α R) :=
  ofEntries (r.entries ++ extra)

theorem toNat_lt_of_byName (r : Registry α R) {name : String} {place : Int}
    (h : r.byName name = some place) : place.toNat < r.entries.length := by
  obtain ⟨i, e, rfl, he, _⟩ := (r.indexed name place).mp h
  exact (List.getElem?_eq_some_iff.mp he).1

def find? (r : Registry α R) (name : String) : Option (GateEntry α R) :=
  match h : r.byName (canonicalName name) with
  | none => none
  | some place => some (r.entries.get ⟨place.toNat, r.toNat_lt_of_byName h⟩)

def kinds (r : Registry α R) : List String := r.entries.map (·.kind)

variable [Quantity R]

def buildFragment (e : GateEntry α R) (req : Request R) : Except Failure (Fragment α R) :=
  if (req.params.length : Int) ≠ e.params then
    refuse .parameterCount [.parameters e.kind e.params req.params.length]
  else
    match e.build with
    | none => .error (.overrun .absent)
    | some build => noting (.building e.kind) do
      let f ← build req
      f.validate e.arity
      return f

def lookup (r : Registry α R) (name : String) (req : Request R) :
    Except Failure (Fragment α R) :=
  match r.find? name with
  | none => refuse .unsupportedGate [.gateName name]
  | some e => buildFragment e req

end Registry

end DualRail
