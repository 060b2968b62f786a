import Mathlib
import DualRail.Network.Basic

/-!
Results of checked operations: what a successful or refused sequence of steps says of its parts.
-/

namespace DualRail

variable {β γ : Type}

theorem bind_eq_ok {x : Except Failure β} {f : β → Except Failure γ} {c : γ}
    (h : (x >>= f) = .ok c) : ∃ b, x = .ok b ∧ f b = .ok c := by
  cases x with
  | error e => cases h
  | ok b => exact ⟨b, rfl, h⟩

theorem ok_bind (b : β) (f : β → Except Failure γ) : (Except.ok b >>= f) = f b := rfl

theorem error_bind (e : Failure) (f : β → Except Failure γ) :
    (Except.error e >>= f) = .error e := rfl

theorem noting_eq_ok {note : Note} {x : Except Failure β} {b : β}
    (h : noting note x = .ok b) : x = .ok b := by
  cases x with
  | error e => cases h
  | ok c => exact h

@[simp] theorem noting_ok (note : Note) (b : β) :
    noting note (.ok b) = (.ok b : Except Failure β) := rfl

@[simp] theorem noting_error (note : Note) (f : Failure) :
    noting note (.error f) = (.error (f.noted note) : Except Failure β) := rfl

theorem settled_eq_some {x : Except Failure β} {b : β} (h : settled x = .ok (some b)) :
    x = .ok b := by
  cases x with
  | ok c =>
    have he : Except.ok (some c) = (Except.ok (some b) : Except Failure (Option β)) := h
    rw [Option.some.inj (Except.ok.inj he)]
  | error f =>
    obtain ⟨notes, root⟩ := f
    cases root <;> cases h

@[simp] theorem settled_ok (b : β) :
    settled (.ok b : Except Failure β) = .ok (some b) := rfl

/-- The failure ends the whole request. -/
def Failure.IsOverrun (f : Failure) : Prop := ∃ o, f.root = .overrun o

theorem Failure.isOverrun_overrun (o : Overrun) : (Failure.overrun o).IsOverrun := ⟨o, rfl⟩

theorem Failure.IsOverrun.noted_eq {f : Failure} (h : f.IsOverrun) (note : Note) :
    f.noted note = f := by
  obtain ⟨o, ho⟩ := h
  unfold Failure.noted
  rw [ho]

def EndsInOverrun (x : Except Failure β) : Prop := ∃ f, x = .error f ∧ f.IsOverrun

theorem EndsInOverrun.bind {x : Except Failure β} (h : EndsInOverrun x)
    (g : β → Except Failure γ) : EndsInOverrun (x >>= g) := by
  obtain ⟨f, rfl, hf⟩ := h
  exact ⟨f, rfl, hf⟩

theorem EndsInOverrun.map {x : Except Failure β} (h : EndsInOverrun x) (g : β → γ) :
    EndsInOverrun (x.map g) := by
  obtain ⟨f, rfl, hf⟩ := h
  exact ⟨f, rfl, hf⟩

theorem EndsInOverrun.settled {x : Except Failure β} (h : EndsInOverrun x) :
    EndsInOverrun (settled x) := by
  obtain ⟨⟨notes, root⟩, rfl, o, rfl⟩ := h
  exact ⟨_, rfl, o, rfl⟩

/-- Of all failures only overruns stay when an answer is settled. -/
theorem settled_eq_error {x : Except Failure β} {f : Failure} (h : settled x = .error f) :
    f.IsOverrun := by
  cases x with
  | ok c => cases h
  | error g =>
    obtain ⟨notes, root⟩ := g
    cases root with
    | overrun o =>
      have he : Except.error ⟨notes, .overrun o⟩ = (Except.error f : Except Failure (Option β)) := h
      rw [← Except.error.inj he]
      exact ⟨o, rfl⟩
    | _ => cases h

theorem bind_eq_error {x : Except Failure β} {g : β → Except Failure γ} {f : Failure}
    (h : (x >>= g) = .error f) : x = .error f ∨ ∃ b, x = .ok b ∧ g b = .error f := by
  cases x with
  | error e =>
    obtain rfl := Except.error.inj (show (Except.error e : Except Failure γ) = .error f from h)
    exact .inl rfl
  | ok b => exact .inr ⟨b, rfl, h⟩

end DualRail
