import Mathlib
import DualRail.Program.Gate
import DualRail.Proofs.CanonicalName
import DualRail.Proofs.Checked

/-!
The grammar of compact gates. A text is cut into blanks, a kind, an optional list in parentheses and
a rest; the list gives the parameters and the rest the operands. Reading accepts exactly the texts
with such a cut, a text has at most one, and all other texts are refused as malformed.
-/

namespace DualRail

namespace Text

/-- A text that words stand in, each whole and parted from the next by blanks. -/
inductive Spaced : List Char → List (List Char) → Prop
  | blank {pad : List Char} (hpad : ∀ c ∈ pad, isBlank c = true) : Spaced pad []
  | word {pad w rest : List Char} {words : List (List Char)} (hpad : ∀ c ∈ pad, isBlank c = true)
      (hne : w ≠ []) (hw : ∀ c ∈ w, isBlank c = false)
      (hstop : ∀ c ∈ rest.head?, isBlank c = true) (hrest : Spaced rest words) :
      Spaced (pad ++ (w ++ rest)) (w :: words)

theorem Spaced.pad {c : Char} {cs : List Char} {words : List (List Char)} (h : Spaced cs words)
    (hc : isBlank c = true) : Spaced (c :: cs) words := by
  cases h with
  | blank hpad => exact .blank (List.forall_mem_cons.mpr ⟨hc, hpad⟩)
  | word hpad hne hw hstop hrest =>
    rw [← List.cons_append]
    exact .word (List.forall_mem_cons.mpr ⟨hc, hpad⟩) hne hw hstop hrest

theorem spaced_fieldsAfter (word cs : List Char) (h : ∀ c ∈ word, isBlank c = false) :
    Spaced (word.reverse ++ cs) (fieldsAfter word cs) := by
  have hnil : ∀ c ∈ ([] : List Char), isBlank c = true := by simp
  induction cs generalizing word with
  | nil =>
    unfold fieldsAfter
    split
    · rename_i hnone
      rw [List.isEmpty_iff.mp hnone]
      exact .blank hnil
    · rename_i hsome
      exact @Spaced.word [] _ _ _ hnil (by simpa using hsome)
        (fun c hc => h c (List.mem_reverse.mp hc)) (by simp) (.blank hnil)
  | cons c cs ih =>
    unfold fieldsAfter
    split
    · rename_i hc
      have hrest : Spaced (c :: cs) (fieldsAfter [] cs) := (ih [] (by simp)).pad hc
      split
      · rename_i hnone
        rw [List.isEmpty_iff.mp hnone]
        exact hrest
      · rename_i hsome
        exact @Spaced.word [] _ _ _ hnil (by simpa using hsome)
          (fun c hc => h c (List.mem_reverse.mp hc)) (by simpa using hc) hrest
    · rename_i hc
      have hnext := ih (c :: word) (List.forall_mem_cons.mpr ⟨Bool.eq_false_iff.mpr hc, h⟩)
      rwa [List.reverse_cons, List.append_assoc, List.singleton_append] at hnext

theorem fieldsAfter_blank {pad : List Char} (h : ∀ c ∈ pad, isBlank c = true) (word : List Char) :
    fieldsAfter word pad = if word.isEmpty then [] else [word.reverse] := by
  induction pad generalizing word with
  | nil => rfl
  | cons c pad ih =>
    obtain ⟨hc, hpad⟩ := List.forall_mem_cons.mp h
    rw [fieldsAfter, if_pos hc, ih hpad]
    rfl

theorem fields_blank_append {pad : List Char} (h : ∀ c ∈ pad, isBlank c = true)
    (cs : List Char) : fields (pad ++ cs) = fields cs := by
  induction pad with
  | nil => rfl
  | cons c pad ih =>
    obtain ⟨hc, hpad⟩ := List.forall_mem_cons.mp h
    rw [List.cons_append, fields, fieldsAfter, if_pos hc]
    exact ih hpad

theorem fields_append_blank {trail : List Char} (h : ∀ c ∈ trail, isBlank c = true)
    (cs : List Char) : fields (cs ++ trail) = fields cs := by
  have hafter : ∀ word, fieldsAfter word (cs ++ trail) = fieldsAfter word cs := by
    induction cs with
    | nil => exact fieldsAfter_blank h
    | cons c cs ih =>
      intro word
      rw [List.cons_append, fieldsAfter, fieldsAfter, ih, ih]
  exact hafter []

theorem fieldsAfter_append {w : List Char} (h : ∀ c ∈ w, isBlank c = false)
    (word rest : List Char) :
    fieldsAfter word (w ++ rest) = fieldsAfter (w.reverse ++ word) rest := by
  induction w generalizing word with
  | nil => rfl
  | cons c w ih =>
    rw [List.cons_append, fieldsAfter, h c List.mem_cons_self, if_neg Bool.false_ne_true,
      ih fun d hd => h d (List.mem_cons_of_mem _ hd), List.reverse_cons, List.append_assoc]
    rfl

/-- The fields of a text are the words it stands in. -/
theorem fields_eq_iff {cs : List Char} {words : List (List Char)} :
    fields cs = words ↔ Spaced cs words := by
  constructor
  · rintro rfl
    exact spaced_fieldsAfter [] cs (by simp)
  · intro h
    induction h with
    | blank hpad => exact fieldsAfter_blank hpad []
    | @word pad w rest words hpad hne hw hstop hrest ih =>
      have hword : w.reverse.isEmpty = false := by simpa using hne
      rw [fields_blank_append hpad, fields, fieldsAfter_append hw, List.append_nil]
      cases rest with
      | nil =>
        obtain rfl : [] = words := ih
        rw [fieldsAfter, hword, if_neg Bool.false_ne_true, List.reverse_reverse]
      | cons c rest =>
        have hc : isBlank c = true := hstop c rfl
        have hrest : fieldsAfter [] rest = words := by
          rw [← ih, fields, fieldsAfter, if_pos hc]
          rfl
        rw [fieldsAfter, if_pos hc, hword, if_neg Bool.false_ne_true, List.reverse_reverse, hrest]

theorem splitAt_of_notMem {sep : Char} {piece : List Char} (h : sep ∉ piece) :
    splitAt sep piece = [piece] := by
  induction piece with
  | nil => rfl
  | cons c rest ih =>
    rw [List.mem_cons, not_or] at h
    rw [splitAt, if_neg (Ne.symm h.1), ih h.2]

theorem splitAt_append {sep : Char} {piece : List Char} (h : sep ∉ piece) (rest : List Char) :
    splitAt sep (piece ++ sep :: rest) = piece :: splitAt sep rest := by
  induction piece with
  | nil => rw [List.nil_append, splitAt, if_pos rfl]
  | cons c piece ih =>
    rw [List.mem_cons, not_or] at h
    rw [List.cons_append, splitAt, if_neg (Ne.symm h.1), ih h.2]

theorem splitAt_intercalate {sep : Char} {pieces : List (List Char)} (hne : pieces ≠ [])
    (h : ∀ p ∈ pieces, sep ∉ p) : splitAt sep ([sep].intercalate pieces) = pieces := by
  induction pieces with
  | nil => exact absurd rfl hne
  | cons p ps ih =>
    cases ps with
    | nil =>
      rw [List.intercalate_singleton]
      exact splitAt_of_notMem (h p List.mem_cons_self)
    | cons q qs =>
      rw [List.intercalate_cons_cons, List.append_assoc, List.singleton_append,
        splitAt_append (h p List.mem_cons_self),
        ih (List.cons_ne_nil q qs) fun r hr => h r (List.mem_cons_of_mem _ hr)]

theorem exists_splitAt (sep : Char) (cs : List Char) :
    ∃ first others, splitAt sep cs = first :: others := by
  cases cs with
  | nil => exact ⟨[], [], rfl⟩
  | cons c cs =>
    unfold splitAt
    split
    · exact ⟨[], _, rfl⟩
    · split
      · exact ⟨_, _, rfl⟩
      · exact ⟨_, _, rfl⟩

theorem splitAt_front {sep : Char} {front : List Char} (h : sep ∉ front) {cs first : List Char}
    {others : List (List Char)} (hcs : splitAt sep cs = first :: others) :
    splitAt sep (front ++ cs) = (front ++ first) :: others := by
  induction front with
  | nil => exact hcs
  | cons c front ih =>
    rw [List.mem_cons, not_or] at h
    rw [List.cons_append, splitAt, if_neg (Ne.symm h.1), ih h.2]
    rfl

/-- Text is its pieces with the separator between them, and no piece holds a separator. -/
theorem splitAt_eq_iff {sep : Char} {cs : List Char} {pieces : List (List Char)} :
    splitAt sep cs = pieces ↔
      pieces ≠ [] ∧ (∀ p ∈ pieces, sep ∉ p) ∧ [sep].intercalate pieces = cs := by
  constructor
  · rintro rfl
    induction cs with
    | nil => simp [splitAt]
    | cons c cs ih =>
      obtain ⟨first, others, hcs⟩ := exists_splitAt sep cs
      rw [hcs] at ih
      obtain ⟨-, hpieces, hjoin⟩ := ih
      by_cases hc : c = sep
      · rw [splitAt, if_pos hc, hcs]
        refine ⟨List.cons_ne_nil _ _, List.forall_mem_cons.mpr ⟨by simp, hpieces⟩, ?_⟩
        rw [List.intercalate_cons_cons, hjoin, hc]
        rfl
      · rw [splitAt, if_neg hc, hcs]
        obtain ⟨hfirst, hothers⟩ := List.forall_mem_cons.mp hpieces
        refine ⟨List.cons_ne_nil _ _, List.forall_mem_cons.mpr ⟨?_, hothers⟩, ?_⟩
        · rw [List.mem_cons, not_or]
          exact ⟨Ne.symm hc, hfirst⟩
        · cases others with
          | nil => rw [← hjoin, List.intercalate_singleton, List.intercalate_singleton]
          | cons p ps => rw [← hjoin, List.intercalate_cons_cons, List.intercalate_cons_cons]; rfl
  · rintro ⟨hne, hpieces, rfl⟩
    exact splitAt_intercalate hne hpieces

theorem splitAt_back {sep : Char} {back : List Char} (h : sep ∉ back) (cs : List Char) :
    ∃ init last, splitAt sep cs = init ++ [last] ∧
      splitAt sep (cs ++ back) = init ++ [last ++ back] := by
  induction cs with
  | nil => exact ⟨[], [], rfl, splitAt_of_notMem h⟩
  | cons c cs ih =>
    obtain ⟨init, last, hcs, hback⟩ := ih
    rw [List.cons_append, splitAt, splitAt, hcs, hback]
    split
    · exact ⟨[] :: init, last, rfl, rfl⟩
    · cases init with
      | nil => exact ⟨[], c :: last, rfl, rfl⟩
      | cons p init => exact ⟨(c :: p) :: init, last, rfl, rfl⟩

theorem map_trim_splitAt_trim {sep : Char} (hsep : isBlank sep = false) (cs : List Char) :
    (splitAt sep (trim cs)).map trim = (splitAt sep cs).map trim := by
  have hnot : ∀ {pad : List Char}, (∀ c ∈ pad, isBlank c = true) → sep ∉ pad := by
    intro pad hpad hmem
    rw [hpad sep hmem] at hsep
    cases hsep
  obtain ⟨lead, trail, hlead, htrail, hcs⟩ := exists_trim cs
  obtain ⟨init, last, hinner, hback⟩ := splitAt_back (hnot htrail) (trim cs)
  obtain ⟨first, others, hfront⟩ := exists_splitAt sep (trim cs ++ trail)
  calc (splitAt sep (trim cs)).map trim
      = (splitAt sep (trim cs ++ trail)).map trim := by
        rw [hinner, hback, List.map_append, List.map_append, List.map_singleton, List.map_singleton,
          trim_append_blank htrail]
    _ = (splitAt sep (lead ++ (trim cs ++ trail))).map trim := by
        rw [splitAt_front (hnot hlead) hfront, hfront, List.map_cons, List.map_cons,
          trim_blank_append hlead]
    _ = (splitAt sep cs).map trim := by rw [← hcs]

theorem takeWhile_ne {stop : Char} {front : List Char} (h : stop ∉ front) (rest : List Char) :
    (front ++ stop :: rest).takeWhile (· != stop) = front ∧
      (front ++ stop :: rest).dropWhile (· != stop) = stop :: rest := by
  have hfront : ∀ c ∈ front, (c != stop) = true := by
    intro c hc
    rw [bne_iff_ne]
    rintro rfl
    exact h hc
  constructor
  · rw [List.takeWhile_append_of_pos hfront, List.takeWhile_cons_of_neg (by simp), List.append_nil]
  · rw [List.dropWhile_append_of_pos hfront, List.dropWhile_cons_of_neg (by simp)]

end Text

theorem mapM_eq_ok_iff {β γ : Type} {f : β → Except Failure γ} {l : List β} {ys : List γ} :
    l.mapM f = .ok ys ↔ List.Forall₂ (fun x y => f x = .ok y) l ys := by
  induction l generalizing ys with
  | nil =>
    rw [List.mapM_nil, List.forall₂_nil_left_iff]
    exact ⟨fun h => (Except.ok.inj h).symm, fun h => h ▸ rfl⟩
  | cons x l ih =>
    rw [List.mapM_cons, List.forall₂_cons_left_iff]
    constructor
    · intro h
      obtain ⟨y, hy, h⟩ := bind_eq_ok h
      obtain ⟨zs, hzs, h⟩ := bind_eq_ok h
      exact ⟨y, zs, hy, ih.mp hzs, (Except.ok.inj h).symm⟩
    · rintro ⟨y, zs, hy, hzs, rfl⟩
      rw [hy, ok_bind, ih.mpr hzs, ok_bind]
      rfl

theorem exists_of_mapM_eq_error {β γ : Type} {f : β → Except Failure γ} {l : List β} {e : Failure}
    (h : l.mapM f = .error e) : ∃ x ∈ l, f x = .error e := by
  induction l with
  | nil => cases h
  | cons x l ih =>
    rw [List.mapM_cons] at h
    obtain hx | ⟨y, _, h⟩ := bind_eq_error h
    · exact ⟨x, List.mem_cons_self, hx⟩
    · obtain hl | ⟨ys, _, h⟩ := bind_eq_error h
      · obtain ⟨z, hz, hfail⟩ := ih hl
        exact ⟨z, List.mem_cons_of_mem _ hz, hfail⟩
      · cases h

namespace Gate

/-- The four pieces of a text that states a gate. -/
structure Cut where
  lead : List Char
  kind : List Char
  /-- What stands in parentheses right after the kind. -/
  list : Option (List Char)
  rest : List Char

namespace Cut

def listText : Option (List Char) → List Char
  | none => []
  | some list => '(' :: (list ++ [')'])

def body (c : Cut) : List Char := c.kind ++ (listText c.list ++ c.rest)

def text (c : Cut) : List Char := c.lead ++ c.body

/-- Where a text may be cut. -/
structure Lawful (c : Cut) : Prop where
  lead : ∀ x ∈ c.lead, Text.isBlank x = true
  kind_ne_nil : c.kind ≠ []
  kind : ∀ x ∈ c.kind, Text.isBlank x = false ∧ x ≠ '('
  /-- Without a list, the kind ends at a blank or with the text. -/
  bare : c.list = none → ∀ x ∈ c.rest.head?, Text.isBlank x = true
  closed : ∀ list ∈ c.list, ')' ∉ c.kind ∧ ')' ∉ list

inductive HasParams : Option (List Char) → List Float → Prop
  | absent : HasParams none []
  | blank {list : List Char} (h : ∀ x ∈ list, Text.isBlank x = true) : HasParams (some list) []
  | items {items : List (List Char)} {params : List Float} (hne : items ≠ [])
      (hsep : ∀ item ∈ items, ',' ∉ item)
      (hread : List.Forall₂ (fun item x => Decimal.readFloat? (Text.trim item) = some x)
        items params) :
      HasParams (some ([','].intercalate items)) params

def HasQubits (rest : List Char) (qubits : List Int) : Prop :=
  ∃ words, Text.Spaced rest words ∧
    List.Forall₂ (fun w q => Decimal.readInt? w = some q) words qubits

/-- The cut states the gate. -/
structure Spells (c : Cut) (g : Gate Float) : Prop where
  lawful : c.Lawful
  kind : c.kind = g.kind.toList
  params : HasParams c.list g.params
  qubits : HasQubits c.rest g.qubits

/-- A lawful cut is the one that reading makes. -/
theorem Lawful.split?_body {c : Cut} (h : c.Lawful) :
    split? c.body = some ⟨c.kind, c.list.getD [], c.rest⟩ := by
  have hkind : ∀ x ∈ c.kind, (!Text.isBlank x) = true := by
    intro x hx
    rw [(h.kind x hx).1, Bool.not_false]
  have hopen : '(' ∉ c.kind := fun hx => (h.kind '(' hx).2 rfl
  unfold body split?
  cases hlist : c.list with
  | none =>
    have hrest : c.rest.takeWhile (!Text.isBlank ·) = [] := by
      cases hrest : c.rest with
      | nil => rfl
      | cons x rest =>
        have hx : Text.isBlank x = true := h.bare hlist x (by rw [hrest]; rfl)
        rw [List.takeWhile_cons_of_neg (by rw [hx]; decide)]
    have hhead : (c.kind ++ c.rest).takeWhile (!Text.isBlank ·) = c.kind := by
      rw [List.takeWhile_append_of_pos hkind, hrest, List.append_nil]
    simp only [listText, List.nil_append, hhead, List.contains_iff_mem, if_neg hopen,
      List.drop_left]
    rfl
  | some list =>
    obtain ⟨hclosed, hinner⟩ := h.closed list hlist
    have htext : c.kind ++ (listText (some list) ++ c.rest) =
        c.kind ++ '(' :: (list ++ ')' :: c.rest) := by
      simp [listText]
    have hhead : (c.kind ++ '(' :: (list ++ ')' :: c.rest)).takeWhile (!Text.isBlank ·) =
        c.kind ++ '(' :: (list ++ ')' :: c.rest).takeWhile (!Text.isBlank ·) := by
      rw [List.takeWhile_append_of_pos hkind, List.takeWhile_cons_of_pos (by decide)]
    have hafter : (c.kind ++ '(' :: (list ++ ')' :: c.rest)).drop (c.kind.length + 1) =
        list ++ ')' :: c.rest := by
      rw [List.append_cons, List.drop_left' (by simp)]
    have hfound : (c.kind.contains ')' || !(list ++ ')' :: c.rest).contains ')') = false := by
      simpa using hclosed
    obtain ⟨htake, hdrop⟩ := Text.takeWhile_ne hinner c.rest
    rw [htext]
    simp only [hhead, (Text.takeWhile_ne hopen _).1, hafter, hfound, htake, hdrop, List.drop_one,
      List.tail_cons, Option.getD_some]
    rw [if_pos (by simp), if_neg Bool.false_ne_true]

theorem exists_lawful_of_split? {s : List Char} {parts : Parts} (h : split? s = some parts)
    (hne : parts.kind ≠ []) :
    ∃ c : Cut, c.Lawful ∧ c.body = s ∧ parts = ⟨c.kind, c.list.getD [], c.rest⟩ := by
  have hword : ∀ x ∈ s.takeWhile (!Text.isBlank ·), Text.isBlank x = false := by
    intro x hx
    simpa using List.mem_takeWhile_imp hx
  have hcut : s.takeWhile (!Text.isBlank ·) ++ s.dropWhile (!Text.isBlank ·) = s :=
    List.takeWhile_append_dropWhile
  unfold split? at h
  simp only at h
  split at h
  · rename_i hopen
    obtain ⟨kind, more, hhead, hnone⟩ :=
      List.eq_append_cons_of_mem (List.contains_iff_mem.mp hopen)
    rw [hhead, List.append_assoc, List.cons_append] at hcut
    generalize more ++ s.dropWhile (!Text.isBlank ·) = after at hcut
    have hafter : s.drop (kind.length + 1) = after := by
      rw [← hcut, List.append_cons, List.drop_left' (by simp)]
    rw [hhead, (Text.takeWhile_ne hnone more).1, hafter] at h
    split at h
    · cases h
    · rename_i hclosed
      rw [Bool.or_eq_true, not_or, List.contains_iff_mem] at hclosed
      obtain ⟨list, rest, hlist, hinner⟩ := List.eq_append_cons_of_mem
        (show ')' ∈ after by simpa using hclosed.2)
      obtain ⟨htake, hdrop⟩ := Text.takeWhile_ne hinner rest
      rw [hlist, htake, hdrop] at h
      obtain rfl := Option.some.inj h
      refine ⟨⟨[], kind, some list, rest⟩,
        ⟨by simp, hne, fun x hx => ⟨?_, ?_⟩, by simp, ?_⟩, ?_, rfl⟩
      · exact hword x (hhead ▸ List.mem_append_left _ hx)
      · rintro rfl
        exact hnone hx
      · rintro _ ⟨⟩
        exact ⟨hclosed.1, hinner⟩
      · rw [← hcut, hlist]
        simp [body, listText]
  · rename_i hopen
    obtain rfl := Option.some.inj h
    refine ⟨⟨[], s.takeWhile (!Text.isBlank ·), none, s.dropWhile (!Text.isBlank ·)⟩,
      ⟨by simp, hne, fun x hx => ⟨hword x hx, ?_⟩, fun _ x hx => ?_, by simp⟩, hcut, ?_⟩
    · rintro rfl
      exact hopen (List.contains_iff_mem.mpr hx)
    · have hstop := List.head?_dropWhile_not (!Text.isBlank ·) s
      rw [hx] at hstop
      simpa using hstop
    · have hdrop : (s.takeWhile (!Text.isBlank ·) ++ s.dropWhile (!Text.isBlank ·)).drop
          (s.takeWhile (!Text.isBlank ·)).length = s.dropWhile (!Text.isBlank ·) := List.drop_left
      rw [hcut] at hdrop
      rw [hdrop]
      rfl

def trimmed (c : Cut) : Cut := { c with rest := c.rest.rdropWhile Text.isBlank }

theorem Lawful.trimmed {c : Cut} (h : c.Lawful) : c.trimmed.Lawful := by
  refine { h with bare := fun hlist x hx => h.bare hlist x ?_ }
  obtain ⟨trail, htrail⟩ := c.rest.rdropWhile_prefix Text.isBlank
  have hhead : (c.rest.rdropWhile Text.isBlank).head? = some x := hx
  rw [← htrail, Option.mem_def, List.head?_append, hhead, Option.some_or]

theorem Lawful.head?_body {c : Cut} (h : c.Lawful) {x : Char} (hx : c.body.head? = some x) :
    Text.isBlank x = false := by
  unfold body at hx
  rw [List.head?_append, List.head?_eq_some_head h.kind_ne_nil, Option.some_or] at hx
  exact (h.kind x (Option.some.inj hx ▸ List.head_mem h.kind_ne_nil)).1

theorem Lawful.getLast?_body {c : Cut} (h : c.Lawful)
    (hrest : ∀ x, c.rest.getLast? = some x → Text.isBlank x = false) {x : Char}
    (hx : c.body.getLast? = some x) : Text.isBlank x = false := by
  unfold body at hx
  rw [List.getLast?_append, List.getLast?_append] at hx
  cases hlast : c.rest.getLast? with
  | some y =>
    rw [hlast, Option.some_or, Option.some_or] at hx
    exact hrest x (hlast.trans hx)
  | none =>
    rw [hlast, Option.none_or] at hx
    cases hlist : c.list with
    | none =>
      rw [hlist] at hx
      exact (h.kind x (List.mem_of_getLast? hx)).1
    | some list =>
      rw [hlist, listText, ← List.cons_append, List.getLast?_concat, Option.some_or] at hx
      obtain rfl := Option.some.inj hx
      decide

theorem Lawful.trim_text {c : Cut} (h : c.Lawful) : Text.trim c.text = c.trimmed.body := by
  have htrail : ∀ x ∈ c.rest.rtakeWhile Text.isBlank, Text.isBlank x = true :=
    fun x => List.mem_rtakeWhile_imp
  have hbody : c.body = c.trimmed.body ++ c.rest.rtakeWhile Text.isBlank := by
    unfold body Cut.trimmed
    rw [List.append_assoc, List.append_assoc, List.rdropWhile_append_rtakeWhile]
  have hlast : ∀ x, c.trimmed.rest.getLast? = some x → Text.isBlank x = false := by
    intro x hx
    have hne : c.rest.rdropWhile Text.isBlank ≠ [] := by
      rintro hnil
      rw [Cut.trimmed, hnil] at hx
      cases hx
    rw [Cut.trimmed, List.getLast?_eq_some_getLast hne] at hx
    obtain rfl := Option.some.inj hx
    exact Bool.eq_false_iff.mpr (List.rdropWhile_last_not Text.isBlank c.rest hne)
  unfold text
  rw [Text.trim_blank_append h.lead, hbody, Text.trim_append_blank htrail]
  exact Text.trim_eq_self (fun x => h.trimmed.head?_body) fun x => h.trimmed.getLast?_body hlast

theorem Lawful.padded {c : Cut} (h : c.Lawful) {lead trail : List Char}
    (hlead : ∀ x ∈ lead, Text.isBlank x = true) (htrail : ∀ x ∈ trail, Text.isBlank x = true) :
    (⟨lead, c.kind, c.list, c.rest ++ trail⟩ : Cut).Lawful := by
  refine { h with lead := hlead, bare := fun hlist x hx => ?_ }
  rw [Option.mem_def, List.head?_append] at hx
  cases hrest : c.rest.head? with
  | none =>
    rw [hrest, Option.none_or] at hx
    exact htrail x (List.mem_of_mem_head? hx)
  | some y =>
    rw [hrest, Option.some_or] at hx
    exact h.bare hlist x (hrest.trans hx)

theorem Lawful.dropWhile_text {c : Cut} (h : c.Lawful) :
    c.text.dropWhile Text.isBlank = c.body := by
  obtain ⟨x, kind, hkind⟩ := List.exists_cons_of_ne_nil h.kind_ne_nil
  have hx : Text.isBlank x = false := (h.kind x (hkind ▸ List.mem_cons_self)).1
  unfold text body
  rw [List.dropWhile_append_of_pos h.lead, hkind, List.cons_append,
    List.dropWhile_cons_of_neg (by rw [hx]; exact Bool.false_ne_true)]

theorem listText_injective : Function.Injective listText := by
  intro l l' h
  cases l <;> cases l' <;> simp_all [listText]

/-- A text has one lawful cut at most. -/
theorem Lawful.eq_of_text {c d : Cut} (hc : c.Lawful) (hd : d.Lawful) (h : c.text = d.text) :
    c = d := by
  have hbody : c.body = d.body := by rw [← hc.dropWhile_text, h, hd.dropWhile_text]
  have hlead : c.lead = d.lead := by
    unfold text at h
    rw [hbody] at h
    exact List.append_cancel_right h
  have hsplit := hc.split?_body
  rw [hbody, hd.split?_body] at hsplit
  obtain ⟨hkind, -, hrest⟩ := Parts.mk.inj (Option.some.inj hsplit)
  have hlist : c.list = d.list := by
    unfold body at hbody
    rw [hkind, hrest] at hbody
    exact listText_injective (List.append_cancel_right (List.append_cancel_left hbody))
  cases c
  cases d
  simp_all

theorem hasParams_iff {list : Option (List Char)} {params : List Float} :
    HasParams list params ↔
      List.Forall₂ (fun item x => Decimal.readFloat? (Text.trim item) = some x)
        (paramPieces (list.getD [])) params := by
  -- Whether the items or the pieces of the trimmed list are read makes no difference.
  have hitems : ∀ list : List Char,
      List.Forall₂ (fun item x => Decimal.readFloat? (Text.trim item) = some x)
          (Text.splitAt ',' (Text.trim list)) params ↔
        List.Forall₂ (fun item x => Decimal.readFloat? (Text.trim item) = some x)
          (Text.splitAt ',' list) params := by
    intro list
    rw [← List.forall₂_map_left_iff (R := fun item x => Decimal.readFloat? item = some x),
      Text.map_trim_splitAt_trim (by decide), List.forall₂_map_left_iff]
  unfold paramPieces
  constructor
  · intro h
    cases h with
    | absent => exact .nil
    | @blank list h =>
      rw [Option.getD_some, Text.trim_eq_nil_iff.mpr h]
      exact .nil
    | @items items _ hne hsep hread =>
      have hsplit := Text.splitAt_intercalate hne hsep
      rw [Option.getD_some]
      simp only
      split
      · rename_i hblank
        -- A blank list has itself as its only item, and that is no number.
        rw [List.isEmpty_iff] at hblank
        have hnone := (hitems _).mpr (hsplit.symm ▸ hread)
        rw [hblank] at hnone
        obtain ⟨x, _, hx, _⟩ := List.forall₂_cons_left_iff.mp hnone
        cases hx
      · exact (hitems _).mpr (hsplit.symm ▸ hread)
  · intro h
    cases list with
    | none =>
      obtain rfl := List.forall₂_nil_left_iff.mp h
      exact .absent
    | some list =>
      rw [Option.getD_some] at h
      simp only at h
      split at h
      · rename_i hblank
        obtain rfl := List.forall₂_nil_left_iff.mp h
        exact .blank (Text.trim_eq_nil_iff.mp (List.isEmpty_iff.mp hblank))
      · obtain ⟨hne, hsep, hjoin⟩ := Text.splitAt_eq_iff.mp (rfl : Text.splitAt ',' list = _)
        have hread := HasParams.items hne hsep ((hitems list).mp h)
        rwa [hjoin] at hread

theorem hasQubits_iff {rest : List Char} {qubits : List Int} :
    HasQubits rest qubits ↔
      List.Forall₂ (fun w q => Decimal.readInt? w = some q) (Text.fields rest) qubits := by
  unfold HasQubits
  constructor
  · rintro ⟨words, hwords, hread⟩
    rwa [Text.fields_eq_iff.mpr hwords]
  · exact fun h => ⟨_, Text.fields_eq_iff.mp rfl, h⟩

end Cut

theorem readParam_eq_ok_iff {s piece : List Char} {x : Float} :
    readParam s piece = .ok x ↔ Decimal.readFloat? (Text.trim piece) = some x := by
  unfold readParam
  cases Decimal.readFloat? (Text.trim piece) <;> simp [malformed, refuse]

theorem readQubit_eq_ok_iff {s piece : List Char} {q : Int} :
    readQubit s piece = .ok q ↔ Decimal.readInt? piece = some q := by
  unfold readQubit
  cases Decimal.readInt? piece <;> simp [malformed, refuse]

theorem parseTrimmed_eq_ok_iff {s : List Char} {g : Gate Float} :
    parseTrimmed s = .ok g ↔ ∃ parts, split? s = some parts ∧ parts.kind ≠ [] ∧
      parts.kind = g.kind.toList ∧
      List.Forall₂ (fun item x => Decimal.readFloat? (Text.trim item) = some x)
        (paramPieces parts.params) g.params ∧
      List.Forall₂ (fun w q => Decimal.readInt? w = some q)
        (Text.fields parts.qubits) g.qubits := by
  unfold parseTrimmed
  constructor
  · intro h
    split at h
    · cases h
    · rename_i parts hparts
      obtain ⟨params, hparams, h⟩ := bind_eq_ok h
      split at h
      · cases h
      · rename_i hkind
        obtain ⟨qubits, hqubits, h⟩ := bind_eq_ok h
        obtain rfl := Except.ok.inj h
        simp only [mapM_eq_ok_iff, readParam_eq_ok_iff, readQubit_eq_ok_iff] at hparams hqubits
        exact ⟨parts, hparts, by simpa using hkind, String.toList_ofList.symm, hparams, hqubits⟩
  · rintro ⟨parts, hparts, hne, hkind, hparams, hqubits⟩
    have hread : (paramPieces parts.params).mapM (readParam s) = .ok g.params := by
      simpa only [mapM_eq_ok_iff, readParam_eq_ok_iff] using hparams
    have hwords : (Text.fields parts.qubits).mapM (readQubit s) = .ok g.qubits := by
      simpa only [mapM_eq_ok_iff, readQubit_eq_ok_iff] using hqubits
    rw [hparts]
    simp only
    rw [hread, ok_bind, if_neg (by simpa using hne), hwords, ok_bind, hkind, String.ofList_toList]
    rfl

/-- Every refusal quotes the trimmed text and says what is wrong with it. -/
theorem parse_eq_error {s : String} {f : Failure} (h : parse s = .error f) :
    ∃ note, f = .of .malformedGate [.gateText (Text.trimmed s), note] := by
  have hmalformed : ∀ {β : Type} {note : Note},
      (malformed (Text.trim s.toList) note : Except Failure β) = .error f →
        ∃ note, f = .of .malformedGate [.gateText (Text.trimmed s), note] :=
    fun h => ⟨_, (Except.error.inj h).symm⟩
  unfold parse parseTrimmed at h
  split at h
  · exact hmalformed h
  · obtain hparams | ⟨params, _, h⟩ := bind_eq_error h
    · obtain ⟨piece, _, hpiece⟩ := exists_of_mapM_eq_error hparams
      unfold readParam at hpiece
      split at hpiece
      · cases hpiece
      · exact hmalformed hpiece
    · split at h
      · exact hmalformed h
      · obtain hqubits | ⟨qubits, _, h⟩ := bind_eq_error h
        · obtain ⟨piece, _, hpiece⟩ := exists_of_mapM_eq_error hqubits
          unfold readQubit at hpiece
          split at hpiece
          · cases hpiece
          · exact hmalformed hpiece
        · cases h

theorem parse_of_spells {s : String} {c : Cut} {g : Gate Float} (ht : c.text = s.toList)
    (h : c.Spells g) : parse s = .ok g := by
  have hfields : Text.fields c.rest = Text.fields c.trimmed.rest := by
    have hrest : c.trimmed.rest ++ c.rest.rtakeWhile Text.isBlank = c.rest :=
      List.rdropWhile_append_rtakeWhile
    nth_rewrite 1 [← hrest]
    exact Text.fields_append_blank (fun x => List.mem_rtakeWhile_imp) _
  unfold parse
  rw [← ht, h.lawful.trim_text, parseTrimmed_eq_ok_iff]
  exact ⟨_, h.lawful.trimmed.split?_body, h.lawful.kind_ne_nil, h.kind,
    Cut.hasParams_iff.mp h.params, hfields ▸ Cut.hasQubits_iff.mp h.qubits⟩

theorem exists_spells_of_parse {s : String} {g : Gate Float} (h : parse s = .ok g) :
    ∃ c : Cut, c.text = s.toList ∧ c.Spells g := by
  obtain ⟨parts, hsplit, hne, hkind, hparams, hqubits⟩ := parseTrimmed_eq_ok_iff.mp h
  obtain ⟨c, hc, hbody, rfl⟩ := Cut.exists_lawful_of_split? hsplit hne
  obtain ⟨lead, trail, hlead, htrail, hs⟩ := Text.exists_trim s.toList
  refine ⟨⟨lead, c.kind, c.list, c.rest ++ trail⟩, ?_, hc.padded hlead htrail, hkind,
    Cut.hasParams_iff.mpr hparams, Cut.hasQubits_iff.mpr ?_⟩
  · rw [hs, ← hbody]
    unfold Cut.text Cut.body
    simp only [List.append_assoc]
  · rwa [Text.fields_append_blank htrail]

/-- A text is read as a gate exactly if it has a cut that states the gate; the cut and the gate are
then the only ones, and a text without such a cut is refused as malformed. -/
theorem parse_accepts_grammar (s : String) :
    (∀ g, parse s = .ok g ↔ ∃ c : Cut, c.text = s.toList ∧ c.Spells g) ∧
    (∀ (c d : Cut) (g g' : Gate Float), c.text = s.toList → d.text = s.toList →
      c.Spells g → d.Spells g' → c = d ∧ g = g') ∧
    ((¬ ∃ (c : Cut) (g : Gate Float), c.text = s.toList ∧ c.Spells g) →
      ∃ note, parse s = .error (.of .malformedGate [.gateText (Text.trimmed s), note])) := by
  have haccepts : ∀ g, parse s = .ok g ↔ ∃ c : Cut, c.text = s.toList ∧ c.Spells g :=
    fun g => ⟨exists_spells_of_parse, fun ⟨_, ht, h⟩ => parse_of_spells ht h⟩
  refine ⟨haccepts, fun c d g g' htc htd hc hd => ⟨?_, ?_⟩, fun hnone => ?_⟩
  · exact hc.lawful.eq_of_text hd.lawful (htc.trans htd.symm)
  · exact Except.ok.inj ((parse_of_spells htc hc).symm.trans (parse_of_spells htd hd))
  · cases hparse : parse s with
    | ok g =>
      obtain ⟨c, hc⟩ := (haccepts g).mp hparse
      exact absurd ⟨c, g, hc⟩ hnone
    | error f =>
      obtain ⟨note, rfl⟩ := parse_eq_error hparse
      exact ⟨note, rfl⟩

def paddedCut : Cut := ⟨['\t'], ['r', 'z'], some " 0.5 ,2".toList, "0\n 7 ".toList⟩

def paddedGate : Gate Float := ⟨"rz", [0, 7], [0.5, 2]⟩

theorem paddedCut_spells : paddedCut.Spells paddedGate where
  lawful := {
    lead := List.all_eq_true.mp (by decide)
    kind_ne_nil := by decide
    kind := by
      intro x hx
      rcases List.mem_pair.mp hx with rfl | rfl <;> decide
    bare := by decide
    closed := by decide }
  kind := by decide
  params := Cut.hasParams_iff.mpr
    (.cons (by decide +kernel) (.cons (by decide +kernel) .nil))
  qubits := Cut.hasQubits_iff.mpr (.cons (by decide +kernel) (.cons (by decide +kernel) .nil))

/-- A kind with a closing parenthesis has no list, so the second text has no cut. -/
theorem parse_accepts_grammar_padded :
    (paddedCut.text = "\trz( 0.5 ,2)0\n 7 ".toList ∧ paddedCut.Spells paddedGate ∧
      parse "\trz( 0.5 ,2)0\n 7 " = .ok paddedGate ∧
      ∀ (c : Cut) (g : Gate Float), c.text = "\trz( 0.5 ,2)0\n 7 ".toList → c.Spells g →
        c = paddedCut ∧ g = paddedGate) ∧
    (¬ ∃ (c : Cut) (g : Gate Float), c.text = "a)b(1) 0".toList ∧ c.Spells g) ∧
      ∃ note, parse "a)b(1) 0" =
        .error (.of .malformedGate [.gateText (Text.trimmed "a)b(1) 0"), note]) := by
  obtain ⟨haccepts, hunique, -⟩ := parse_accepts_grammar "\trz( 0.5 ,2)0\n 7 "
  obtain ⟨hrefused, -, hmalformed⟩ := parse_accepts_grammar "a)b(1) 0"
  have htext : paddedCut.text = "\trz( 0.5 ,2)0\n 7 ".toList := by decide
  have hnone : ¬ ∃ (c : Cut) (g : Gate Float), c.text = "a)b(1) 0".toList ∧ c.Spells g := by
    rintro ⟨c, g, h⟩
    have hread := (hrefused g).mpr ⟨c, h⟩
    cases hread
  exact ⟨⟨htext, paddedCut_spells, (haccepts _).mpr ⟨_, htext, paddedCut_spells⟩,
    fun c g hc hg => hunique c _ g _ hc htext hg paddedCut_spells⟩, hnone, hmalformed hnone⟩

end Gate

end DualRail
