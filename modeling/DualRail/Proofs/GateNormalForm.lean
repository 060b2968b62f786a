import DualRail.Proofs.DoubleText
import DualRail.Proofs.GateText

/-!
The compact text as a normal form. Whatever text a gate is read from, the gate's own text is read as
the same gate: reading gives no kind that cuts the text, operands that are words, and doubles, which
their text determines. So writing what was read settles a text after one round, and texts settle to
the same form exactly if they say the same gate.
-/

namespace DualRail.Gate

variable {s : String} {g : Gate Float}

theorem inRange_of_parse (h : parse s = .ok g) : ∀ q ∈ g.qubits, Word.InRange q := by
  obtain ⟨c, -, hc⟩ := exists_spells_of_parse h
  obtain ⟨words, -, hread⟩ := hc.qubits
  intro q hq
  obtain ⟨i, hi, rfl⟩ := List.mem_iff_getElem.mp hq
  exact Decimal.inRange_of_readInt? (hread.get (hread.length_eq ▸ hi) hi)

theorem kind_ne_nil_of_parse (h : parse s = .ok g) : g.kind.toList ≠ [] := by
  obtain ⟨c, -, hc⟩ := exists_spells_of_parse h
  exact hc.kind ▸ hc.lawful.kind_ne_nil

/-- What was read reads back. -/
theorem parse_text_of_parse (h : parse s = .ok g) : parse g.text = .ok g :=
  parse_text (readable_of_parse h) (kind_ne_nil_of_parse h) (inRange_of_parse h)
    fun x _ => Decimal.readFloat?_shortest x

/-- The text of a gate that was read is read as that gate and written again as it stands, and two
texts that are read have the same normal form exactly if they say the same gate. -/
theorem text_is_normal_form (hs : parse s = .ok g) :
    parse g.text = .ok g ∧ (parse g.text).map text = .ok g.text ∧
      ∀ (t : String) (h : Gate Float), parse t = .ok h → (g.text = h.text ↔ g = h) := by
  have hback := parse_text_of_parse hs
  refine ⟨hback, by rw [hback]; rfl, fun t h ht => ⟨fun htext => ?_, congrArg text⟩⟩
  rw [htext, parse_text_of_parse ht] at hback
  exact (Except.ok.inj hback).symm

def zeroed (x : Float) : Gate Float := ⟨"u", [0, 7], [Decimal.nan, 0.5, x]⟩

theorem text_is_normal_form_zeros :
    (parse "u( nan ,0x1p-1,00.)-0\n+7 " = .ok (zeroed 0) ∧ (zeroed 0).text = "u(NaN,0.5,0) 0 7" ∧
      parse "u(NaN,0.5,0) 0 7" = .ok (zeroed 0)) ∧
    parse "\tu(NAN,5e-1,-0)0 7" = .ok (zeroed (-0)) ∧ (zeroed 0).text ≠ (zeroed (-0)).text := by
  have hzero : parse "u( nan ,0x1p-1,00.)-0\n+7 " = .ok (zeroed 0) := by decide +kernel
  have hnegative : parse "\tu(NAN,5e-1,-0)0 7" = .ok (zeroed (-0)) := by decide +kernel
  have htext : (zeroed 0).text = "u(NaN,0.5,0) 0 7" := by decide +kernel
  obtain ⟨hback, -, hiff⟩ := text_is_normal_form hzero
  refine ⟨⟨hzero, htext, htext ▸ hback⟩, hnegative, fun heq => ?_⟩
  exact absurd ((hiff _ _ hnegative).mp heq) (by decide +kernel)

end DualRail.Gate
