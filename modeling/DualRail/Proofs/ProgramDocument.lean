import Mathlib
import DualRail.Program.Document
import DualRail.Proofs.GateText

/-!
Programs written to a document and read again. If the document returns every text and number as it
was written, reading gives back the program exactly if every kind is readable.
-/

namespace DualRail

namespace Yaml

/-- The node means what was written: a text reads as that text, a number stands as it is, and a list
holds its items in order. -/
inductive Content.ReadAs : Content → Node → Prop where
  | text {s : String} {line : Nat} {tag : Option Tag} {style : ScalarStyle} :
      scalarValue? tag s style = some (.text s) → ReadAs (.text s) (.scalar line tag s style)
  | bare {s : String} {line : Nat} : ReadAs (.bare s) (.scalar line none s .plain)
  | list {items : List Content} {line : Nat} {tag : Option Tag} {nodes : List Node} :
      List.Forall₂ ReadAs items nodes → ReadAs (.list items) (.sequence line tag nodes)

/-- The document returns the fields of a record, each under its name. -/
def Document.Returns (d : Document) (fields : List (String × Content)) : Prop :=
  ∃ line tag pairs, d.root = .mapping line tag pairs ∧
    List.Forall₂ (fun field pair => (Content.text field.1).ReadAs pair.1 ∧ field.2.ReadAs pair.2)
      fields pairs

mutual

def Content.readsAs : Content → Node → Bool
  | .text s, .scalar _ tag written style =>
    written == s &&
      match scalarValue? tag s style with
      | some (.text value) => value == s
      | _ => false
  | .bare s, .scalar _ tag written style => tag == none && written == s && style == .plain
  | .list items, .sequence _ _ nodes => readsAsAll items nodes
  | _, _ => false

def Content.readsAsAll : List Content → List Node → Bool
  | [], [] => true
  | item :: items, node :: nodes => item.readsAs node && readsAsAll items nodes
  | _, _ => false

end

theorem Content.readAsAll_of_check {items : List Content} {nodes : List Node}
    (hitem : ∀ item ∈ items, ∀ n, item.readsAs n = true → item.ReadAs n)
    (h : Content.readsAsAll items nodes = true) : List.Forall₂ Content.ReadAs items nodes := by
  induction items generalizing nodes with
  | nil =>
    cases nodes with
    | nil => exact .nil
    | cons node nodes => cases h
  | cons item items ih =>
    cases nodes with
    | nil => cases h
    | cons node nodes =>
      rw [Content.readsAsAll, Bool.and_eq_true] at h
      obtain ⟨hfirst, hrest⟩ := List.forall_mem_cons.mp hitem
      exact .cons (hfirst node h.1) (ih hrest h.2)

theorem Content.readAs_of_check {c : Content} {n : Node} (h : c.readsAs n = true) : c.ReadAs n := by
  match c, n with
  | .text s, .scalar line tag written style =>
    rw [Content.readsAs, Bool.and_eq_true, beq_iff_eq] at h
    obtain ⟨rfl, h⟩ := h
    split at h
    · rename_i value hvalue
      obtain rfl := beq_iff_eq.mp h
      exact .text hvalue
    · cases h
  | .bare s, .scalar line tag written style =>
    rw [Content.readsAs, Bool.and_eq_true, Bool.and_eq_true, beq_iff_eq, beq_iff_eq,
      beq_iff_eq] at h
    obtain ⟨⟨rfl, rfl⟩, rfl⟩ := h
    exact .bare
  | .list items, .sequence line tag nodes =>
    rw [Content.readsAs] at h
    exact .list (Content.readAsAll_of_check (fun _ _ _ => Content.readAs_of_check) h)

def returnsFields (text : String) (fields : List (String × Content)) : Bool :=
  match Document.parse text with
  | .ok ⟨.mapping _ _ pairs, _, _⟩ =>
    fields.length == pairs.length &&
      (fields.zip pairs).all fun (field, pair) =>
        (Content.text field.1).readsAs pair.1 && field.2.readsAs pair.2
  | _ => false

theorem returns_of_check {text : String} {fields : List (String × Content)}
    (h : returnsFields text fields = true) :
    ∃ d, Document.parse text = .ok d ∧ d.Returns fields := by
  unfold returnsFields at h
  split at h
  · rename_i line tag pairs anchored extent hparse
    rw [Bool.and_eq_true, beq_iff_eq, List.all_eq_true] at h
    refine ⟨_, hparse, line, tag, pairs, rfl, List.forall₂_iff_zip.mpr ⟨h.1, fun hmem => ?_⟩⟩
    have hpair := h.2 _ hmem
    rw [Bool.and_eq_true] at hpair
    exact ⟨Content.readAs_of_check hpair.1, Content.readAs_of_check hpair.2⟩
  · cases h

end Yaml

namespace Program

open Yaml (Content Document Node ScalarStyle Value)

section Scalars

variable (d : Document)

theorem readScalar_text {s : String} {n : Node} (h : (Content.text s).ReadAs n) :
    readScalar d asString n = pure (some s) := by
  cases h with
  | text hs =>
    unfold readScalar follow
    simp only [Document.target, pure_bind, hs]
    rfl

theorem tag_ne_null_of_text {s : String} {tag : Option Yaml.Tag} {style : ScalarStyle}
    (h : Yaml.scalarValue? tag s style = some (.text s)) : tag ≠ some .null := by
  rintro rfl
  simp only [Yaml.scalarValue?] at h
  split at h
  · rename_i hv
    rw [Option.some.inj h] at hv
    cases hv
  · cases h

theorem readGate_text {s : String} {n : Node} (h : (Content.text s).ReadAs n) :
    (∀ g, Gate.parse s = .ok g → readGate d n = pure (some g)) ∧
      ∀ e, Gate.parse s = .error e → readGate d n = throw (e.noted (.line n.line)) := by
  cases h with
  | @text s line tag style hs =>
    unfold readGate follow
    simp only [Document.target, pure_bind]
    rw [if_neg]
    · constructor
      · intro g hg
        rw [hg, noting_ok]
      · intro e he
        rw [he]
        rfl
    · cases tag with
      | none =>
        simp only [Bool.and_eq_true, decide_eq_true_eq, beq_iff_eq, not_and]
        intro hstyle
        rw [Yaml.scalarValue?, if_pos hstyle] at hs
        rw [Option.some.inj hs]
        nofun
      | some t =>
        simp only [beq_iff_eq]
        rintro rfl
        exact tag_ne_null_of_text hs rfl

end Scalars

section Digits

open Decimal (readPrefixedNat? readPrefixedInt? isDigit_of_mem_digits)

theorem exists_digits {m : Nat} (hpos : 0 < m) :
    ∃ c rest, Nat.toDigits 10 m = c :: rest ∧ c.isDigit = true ∧ c ≠ '0' := by
  induction m using Nat.strongRecOn with
  | ind m ih =>
    by_cases hlt : m < 10
    · rw [Nat.toDigits_of_lt_base hlt]
      have hdigit : ∀ k < 10, 0 < k → k.digitChar.isDigit = true ∧ k.digitChar ≠ '0' := by decide
      exact ⟨_, [], rfl, hdigit m hlt hpos⟩
    · rw [Nat.toDigits_of_base_le (by decide) (Nat.not_lt.mp hlt)]
      obtain ⟨c, rest, hdigits, hc⟩ := ih (m / 10) (by omega) (by omega)
      exact ⟨c, rest ++ [(m % 10).digitChar], by rw [hdigits]; rfl, hc⟩

theorem ofWord?_eq_none {s : String} {c : Char} {rest : List Char} (hs : s.toList = c :: rest)
    (hc : c.isDigit = true) : Value.ofWord? s = none := by
  have hfree : ∀ ws : List String, (∀ w ∈ ws, w.toList.head?.any Char.isDigit = false) →
      ¬ ws.contains s = true := by
    intro ws hws hmem
    have hfirst := hws s (List.contains_iff_mem.mp hmem)
    rw [hs, List.head?_cons, Option.any_some, hc] at hfirst
    cases hfirst
  unfold Value.ofWord?
  rw [if_neg (hfree _ (by decide)), if_neg (hfree _ (by decide)), if_neg (hfree _ (by decide)),
    if_neg (hfree _ (by decide)), if_neg (hfree _ (by decide)), if_neg (hfree _ (by decide))]

theorem readPrefixedInt?_digits {m : Nat} (hpos : 0 < m) :
    readPrefixedInt? (Nat.toDigits 10 m) = some (m : Int) := by
  have hread : readPrefixedNat? (Nat.toDigits 10 m) = some m := by
    have hnat := Decimal.natOfDigits?_toDigits m
    obtain ⟨c, rest, hdigits, _, hzero⟩ := exists_digits hpos
    rw [hdigits] at hnat ⊢
    unfold readPrefixedNat?
    split
    · cases ‹c :: rest = []›
    · rename_i heq
      exact absurd (List.cons.inj heq).1 hzero
    · rename_i heq
      exact absurd (List.cons.inj heq).1 hzero
    · exact hnat
  unfold readPrefixedInt?
  rw [Decimal.takeSign_digits]
  simp only [hread, Option.map_some]
  rfl

theorem isTimestamp_digits (m : Nat) : Yaml.Timestamp.isTimestamp (Nat.toDigits 10 m) = false := by
  have hall : (Nat.toDigits 10 m).takeWhile Char.isDigit = Nat.toDigits 10 m :=
    List.takeWhile_eq_self_iff.mpr fun c hc => isDigit_of_mem_digits hc
  unfold Yaml.Timestamp.isTimestamp Yaml.Timestamp.takeDate
  simp only [hall]
  split
  · rfl
  · rename_i hlen
    have hdrop : (Nat.toDigits 10 m).drop 4 = [] :=
      List.drop_eq_nil_of_le (by omega)
    simp only [hdrop, Yaml.Timestamp.takeChar, Option.bind_eq_bind, Option.bind_none,
      Option.bind_fun_none, Option.any_none]

theorem ofPlain_digits {m : Nat} (hpos : 0 < m) (hm : (m : Int) ≤ Word.max) :
    Value.ofPlain true (toString m) = .int m := by
  obtain ⟨c, rest, hdigits, hc, _⟩ := exists_digits hpos
  have htext : (toString m).toList = Nat.toDigits 10 m := by
    rw [Nat.toString_eq_repr, Nat.toList_repr]
  have hword : Value.ofWord? (toString m) = none := ofWord?_eq_none (htext.trans hdigits) hc
  have hfilter : (Nat.toDigits 10 m).filter (· != '_') = Nat.toDigits 10 m := by
    refine List.filter_eq_self.mpr fun c hc => ?_
    rw [bne_iff_ne]
    rintro rfl
    exact absurd (isDigit_of_mem_digits hc) (by decide)
  have hnumber : Value.readNumber? (Nat.toDigits 10 m) = some (.int m) := by
    have hplus : ((Nat.toDigits 10 m).head? == some '+') = false := by
      rw [hdigits, List.head?_cons]
      have hne : c ≠ '+' := by
        rintro rfl
        cases hc
      simpa using hne
    have hrange : Word.InRange (m : Int) := ⟨by unfold Word.min; omega, hm⟩
    unfold Value.readNumber? Value.readInteger?
    simp only [hfilter, readPrefixedInt?_digits hpos, Option.bind_some, hplus, Value.integer?]
    simp [hrange]
  have hdot : (c == '.') = false := by
    have hne : c ≠ '.' := by
      rintro rfl
      cases hc
    simpa using hne
  unfold Value.ofPlain
  rw [hword, htext]
  have htime := isTimestamp_digits m
  rw [hdigits] at htime hnumber ⊢
  simp [hdot, hc, htime, hnumber]

end Digits

section Programs

variable {d : Document} {p : Program Float}

theorem readScalar_int {q : Int} {n : Node} (hpos : 0 < q) (hq : q ≤ Word.max)
    (h : (Content.int q).ReadAs n) : readScalar d asInt n = pure (some q) := by
  obtain ⟨m, rfl⟩ := Int.eq_ofNat_of_zero_le (Int.le_of_lt hpos)
  have hvalue : Value.ofPlain true (toString (m : Int)) = .int m :=
    ofPlain_digits (by omega) hq
  have hword : Decimal.inWord? (m : Int) = some (m : Int) :=
    if_pos ⟨by unfold Word.min; omega, hq⟩
  cases h with
  | bare =>
    unfold readScalar follow
    simp only [Document.target, pure_bind, Yaml.scalarValue?, if_true, hvalue, asInt, hword]

theorem mapM_readGate {gates : List (Gate Float)} {nodes : List Node}
    (h : List.Forall₂ Content.ReadAs (gates.map fun g => .text g.text) nodes) {b : Bool}
    {r : List (Option (Gate Float)) × Bool} :
    nodes.mapM (readGate d) b = .ok r ↔
      ∃ read, r = (read.map some, b) ∧
        List.Forall₂ (fun g g' => Gate.parse g.text = .ok g') gates read := by
  induction gates generalizing nodes r with
  | nil =>
    cases h
    constructor
    · intro hr
      obtain rfl := Except.ok.inj hr
      exact ⟨[], rfl, .nil⟩
    · rintro ⟨read, rfl, hread⟩
      cases hread
      rfl
  | cons g gates ih =>
    cases h with
    | @cons _ n _ nodes hg hrest =>
      obtain ⟨hread, hrefused⟩ := readGate_text d hg
      rw [List.mapM_cons]
      cases hparse : Gate.parse g.text with
      | error e =>
        rw [hrefused e hparse]
        constructor
        · nofun
        · rintro ⟨read, _, hread⟩
          cases hread with
          | cons hfirst _ =>
            rw [hparse] at hfirst
            cases hfirst
      | ok g' =>
        rw [hread g' hparse, pure_bind]
        constructor
        · intro hr
          obtain ⟨later, hlater, hlast⟩ := bind_eq_ok hr
          obtain ⟨read, rfl, hread⟩ := (ih hrest).mp hlater
          obtain rfl := Except.ok.inj hlast
          exact ⟨g' :: read, rfl, .cons hparse hread⟩
        · rintro ⟨read, rfl, hread⟩
          cases hread with
          | @cons _ first _ read hfirst hlater =>
            obtain rfl := Except.ok.inj (hparse.symm.trans hfirst)
            change (nodes.mapM (readGate d) b >>= _) = _
            rw [(ih hrest).mpr ⟨read, rfl, hlater⟩, ok_bind]
            rfl

theorem keyIdentity_text {s : String} {n : Node} (h : (Content.text s).ReadAs n) :
    keyIdentity n = (0, s) := by
  cases h
  rfl

theorem readPair_eq {program : Program Float} {name : String} {done : List String}
    {pair : Node × Node} (hkey : (Content.text name).ReadAs pair.1) (hname : name ∈ programFields)
    (hnew : name ∉ done) :
    readPair d { program, done } pair = (do
      let program ← readField d name pair.2 program
      return { program, done := name :: done }) := by
  obtain ⟨key, value⟩ := pair
  have hmerge : isMergeKey key = false := by
    cases hkey with
    | text _ =>
      have hne : name ≠ "<<" := by
        rintro rfl
        revert hname
        decide
      simp [isMergeKey, hne]
  unfold readPair
  simp only [hmerge]
  rw [readScalar_text d hkey]
  simp [hname, hnew]

theorem readField_name {s : String} {n : Node} (h : (Content.text s).ReadAs n)
    (program : Program Float) : readField d "name" n program = pure { program with name := s } := by
  unfold readField
  rw [readScalar_text d h]
  rfl

theorem readField_qubits {q : Int} {n : Node} (hpos : 0 < q) (hq : q ≤ Word.max)
    (h : (Content.int q).ReadAs n) (program : Program Float) :
    readField d "qubits" n program = pure { program with qubits := q } := by
  unfold readField
  rw [readScalar_int hpos hq h]
  rfl

theorem readField_gates {items : List Content} {n : Node} (h : (Content.list items).ReadAs n)
    (program : Program Float) :
    ∃ nodes, List.Forall₂ Content.ReadAs items nodes ∧
      readField d "gates" n program = (do
        let gates ← nodes.mapM (readGate d)
        return { program with gates := gates.filterMap id }) := by
  cases h with
  | list hitems =>
    refine ⟨_, hitems, ?_⟩
    unfold readField readList follow
    simp [Document.target]

theorem foldlM_readPair (program : Program Float) {done : List String} {qubits gates : Node × Node}
    {q : Int} {items : List Content} (hpos : 0 < q) (hq : q ≤ Word.max) (hdone : done ⊆ ["name"])
    (hqubits : (Content.text "qubits").ReadAs qubits.1 ∧ (Content.int q).ReadAs qubits.2)
    (hgates : (Content.text "gates").ReadAs gates.1 ∧ (Content.list items).ReadAs gates.2) :
    ∃ nodes, List.Forall₂ Content.ReadAs items nodes ∧
      [qubits, gates].foldlM (readPair d) { program, done } = (do
        let gates ← nodes.mapM (readGate d)
        return { program := { program with qubits := q, gates := gates.filterMap id }
                 done := "gates" :: "qubits" :: done }) := by
  obtain ⟨nodes, hnodes, hread⟩ := readField_gates (d := d) hgates.2 { program with qubits := q }
  refine ⟨nodes, hnodes, ?_⟩
  have hfresh : "qubits" ∉ done := fun h => absurd (hdone h) (by decide)
  have hlast : "gates" ∉ "qubits" :: done := by
    rw [List.mem_cons, not_or]
    exact ⟨by decide, fun h => absurd (hdone h) (by decide)⟩
  rw [List.foldlM_cons, readPair_eq hqubits.1 (by decide) hfresh,
    readField_qubits hpos hq hqubits.2]
  simp only [pure_bind, List.foldlM_cons, List.foldlM_nil]
  rw [readPair_eq hgates.1 (by decide) hlast, hread]
  simp

theorem readRoot_of_fold {line : Nat} {tag : Option Yaml.Tag} {pairs : List (Node × Node)}
    {nodes : List Node} {f : List (Option (Gate Float)) → Program Float} {done : List String}
    (hroot : d.root = .mapping line tag pairs) (hkeys : (pairs.map fun p => keyIdentity p.1).Nodup)
    (hfold : pairs.foldlM (readPair d) { program := ⟨"", 0, []⟩ } = (do
      let gates ← nodes.mapM (readGate d)
      return { program := f gates, done })) :
    readRoot d = (do
      let gates ← nodes.mapM (readGate d)
      return f gates) := by
  have hrepeat : hasRepeatedKey pairs = false := by simpa [hasRepeatedKey] using hkeys
  unfold readRoot
  rw [hroot]
  simp only [readMapping, hrepeat, hfold]
  simp

/-- A document that returns a program reads as the program, but for its gates. -/
theorem readRoot_eq (hpos : 0 < p.qubits) (hq : p.qubits ≤ Word.max) (h : d.Returns p.content) :
    ∃ nodes, List.Forall₂ Content.ReadAs (p.gates.map fun g => .text g.text) nodes ∧
      readRoot d = (do
        let gates ← nodes.mapM (readGate d)
        return ⟨p.name, p.qubits, gates.filterMap id⟩) := by
  obtain ⟨line, tag, pairs, hroot, hfields⟩ := h
  unfold content at hfields
  by_cases hname : p.name.isEmpty
  · rw [if_pos hname] at hfields
    cases hfields with
    | @cons _ qubits _ _ hqubits hfields =>
      cases hfields with
      | @cons _ gates _ _ hgates hfields =>
        cases hfields
        obtain ⟨nodes, hnodes, hfold⟩ := foldlM_readPair (d := d) ⟨"", 0, []⟩
          hpos hq (List.nil_subset _) hqubits hgates
        have hempty : p.name = "" := String.isEmpty_iff.mp hname
        refine ⟨nodes, hnodes, ?_⟩
        rw [hempty]
        refine readRoot_of_fold hroot ?_ hfold
        simp [keyIdentity_text hqubits.1, keyIdentity_text hgates.1]
  · rw [if_neg hname] at hfields
    cases hfields with
    | @cons _ name _ _ hname' hfields =>
      cases hfields with
      | @cons _ qubits _ _ hqubits hfields =>
        cases hfields with
        | @cons _ gates _ _ hgates hfields =>
          cases hfields
          obtain ⟨nodes, hnodes, hfold⟩ := foldlM_readPair (d := d) ⟨p.name, 0, []⟩
            hpos hq (List.Subset.refl _) hqubits hgates
          have hfirst : readPair d { program := ⟨"", 0, []⟩ } name =
              pure { program := ⟨p.name, 0, []⟩, done := ["name"] } := by
            rw [readPair_eq hname'.1 List.mem_cons_self List.not_mem_nil, readField_name hname'.2]
            rfl
          refine ⟨nodes, hnodes, ?_⟩
          rw [← pure_bind { program := ⟨p.name, 0, []⟩, done := ["name"] }
            fun pass => [qubits, gates].foldlM (readPair d) pass, ← hfirst] at hfold
          refine readRoot_of_fold hroot ?_ hfold
          simp [keyIdentity_text hname'.1, keyIdentity_text hqubits.1, keyIdentity_text hgates.1]

theorem ofDocument_of_ok {p' : Program Float} (h : readRoot d false = .ok (p', false)) :
    ofDocument d = .ok p' := by
  have hrun : (readRoot d).run false = .ok (p', false) := h
  unfold ofDocument
  rw [hrun]

theorem ofDocument_of_error {e : Failure} (h : readRoot d false = .error e) :
    ofDocument d = .error e := by
  have hrun : (readRoot d).run false = .error e := h
  unfold ofDocument
  rw [hrun]

/-- What reading a written program gives: the program with its gates read again. -/
theorem ofDocument_eq_ok (p' : Program Float) (hpos : 0 < p.qubits) (hq : p.qubits ≤ Word.max)
    (h : d.Returns p.content) :
    ofDocument d = .ok p' ↔ ∃ read, p' = ⟨p.name, p.qubits, read⟩ ∧
      List.Forall₂ (fun g g' => Gate.parse g.text = .ok g') p.gates read := by
  obtain ⟨nodes, hnodes, hroot⟩ := readRoot_eq hpos hq h
  have hstate : readRoot d false = (do
      let r ← nodes.mapM (readGate d) false
      return (⟨p.name, p.qubits, r.1.filterMap id⟩, r.2)) := by
    rw [hroot]
    rfl
  have hread : ∀ read : List (Gate Float),
      nodes.mapM (readGate d) false = .ok (read.map some, false) →
      ofDocument d = .ok ⟨p.name, p.qubits, read⟩ := by
    intro read hmap
    have hsome : (read.map some).filterMap id = read := by simp
    apply ofDocument_of_ok
    rw [hstate, hmap, ok_bind, hsome]
    rfl
  constructor
  · intro hok
    cases hmap : nodes.mapM (readGate d) false with
    | error e =>
      rw [hmap, error_bind] at hstate
      rw [ofDocument_of_error hstate] at hok
      cases hok
    | ok r =>
      obtain ⟨read, rfl, hgates⟩ := (mapM_readGate hnodes).mp hmap
      rw [hread read hmap] at hok
      exact ⟨read, (Except.ok.inj hok).symm, hgates⟩
  · rintro ⟨read, rfl, hgates⟩
    exact hread read ((mapM_readGate hnodes).mpr ⟨read, rfl, hgates⟩)

/-- A valid program whose parameters read back, written to a document that returns what was written,
is read again exactly if the kinds of its gates are readable. -/
theorem decode_encode (hv : p.validate = .ok ()) (hq : p.qubits ≤ Word.max)
    (hparams : ∀ g ∈ p.gates, ∀ x ∈ g.params,
      Decimal.readFloat? (Decimal.shortest x).toList = some x)
    (hyaml : ∃ d, Document.parse p.encode = .ok d ∧ d.Returns p.content) :
    (∀ g ∈ p.gates, Gate.parse g.text = .ok g ↔ g.Readable) ∧
      (decode p.encode = .ok p ↔ ∀ g ∈ p.gates, g.Readable) := by
  obtain ⟨hpos, hfaults⟩ := validate_eq_ok hv
  obtain ⟨d, hd, hreturns⟩ := hyaml
  have hgates : ∀ g ∈ p.gates, Gate.parse g.text = .ok g ↔ g.Readable :=
    fun g hg => Gate.parse_text_iff hq (hfaults g hg) (hparams g hg)
  have hread := ofDocument_eq_ok p hpos hq hreturns
  refine ⟨hgates, fun hdecode g hg => ?_, fun hreadable => ?_⟩
  · unfold decode at hdecode
    rw [hd] at hdecode
    obtain ⟨p', hp', hdecode⟩ := bind_eq_ok hdecode
    obtain ⟨_, _, hdecode⟩ := bind_eq_ok hdecode
    obtain rfl := (Except.ok.inj hdecode).symm
    obtain ⟨read, heq, hall⟩ := hread.mp (noting_eq_ok hp')
    rw [show read = p.gates from (congrArg Program.gates heq).symm] at hall
    exact (hgates g hg).mp (List.forall₂_same.mp hall g hg)
  · have hall : List.Forall₂ (fun g g' => Gate.parse g.text = .ok g') p.gates p.gates :=
      List.forall₂_same.mpr fun g hg => (hgates g hg).mpr (hreadable g hg)
    unfold decode
    rw [hd]
    simp only [hread.mpr ⟨p.gates, rfl, hall⟩]
    rw [noting_ok, ok_bind, hv]
    rfl

def mixedProgram : Program Float :=
  ⟨"4: mixed", 3, [⟨"h)", [2], []⟩, ⟨"u", [0], [0.1, -2.5, 3e22]⟩, ⟨"cx", [1, 2], []⟩]⟩

theorem decode_encode_mixed :
    mixedProgram.validate = .ok () ∧ decode mixedProgram.encode = .ok mixedProgram := by
  have hv : mixedProgram.validate = .ok () := by decide +kernel
  have hparams : ∀ g ∈ mixedProgram.gates, ∀ x ∈ g.params,
      Decimal.readFloat? (Decimal.shortest x).toList = some x := by decide +kernel
  have hyaml : ∃ d, Document.parse mixedProgram.encode = .ok d ∧ d.Returns mixedProgram.content :=
    Yaml.returns_of_check (by decide +kernel)
  obtain ⟨_, hdecode⟩ := decode_encode hv (by decide) hparams hyaml
  exact ⟨hv, hdecode.mpr (by decide)⟩

/-- Valid programs that are not read again: a blank in a kind is refused, and a parenthesis in a
kind turns the rest of it into parameters. -/
theorem kinds_lost :
    (∃ p : Program Float, p.validate = .ok () ∧ p.qubits ≤ Word.max ∧
      (∃ d, Document.parse p.encode = .ok d ∧ d.Returns p.content) ∧
      ∃ f, decode p.encode = .error f) ∧
    ∃ p p' : Program Float, p.validate = .ok () ∧ p.qubits ≤ Word.max ∧
      (∃ d, Document.parse p.encode = .ok d ∧ d.Returns p.content) ∧
      decode p.encode = .ok p' ∧ p' ≠ p := by
  refine ⟨⟨⟨"", 1, [⟨"a b", [0], []⟩]⟩, ?_, by decide, ?_, ?_⟩,
    ⟨"", 1, [⟨"rz(0.5)", [0], []⟩]⟩, ⟨"", 1, [⟨"rz", [0], [0.5]⟩]⟩, ?_, by decide, ?_, ?_, ?_⟩
  · decide +kernel
  · exact Yaml.returns_of_check (by decide +kernel)
  · have hno : (decode (encode (⟨"", 1, [⟨"a b", [0], []⟩]⟩ : Program Float))).isOk =
        false := by decide +kernel
    cases h : decode (encode (⟨"", 1, [⟨"a b", [0], []⟩]⟩ : Program Float)) with
    | error f => exact ⟨f, rfl⟩
    | ok p =>
      rw [h] at hno
      cases hno
  · decide +kernel
  · exact Yaml.returns_of_check (by decide +kernel)
  · decide +kernel
  · decide +kernel

end Programs

end Program

end DualRail
