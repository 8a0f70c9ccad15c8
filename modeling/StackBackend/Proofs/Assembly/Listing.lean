import Mathlib.Tactic.Use
import StackBackend.Assembly.Listing
import StackBackend.Proofs.Assembly.Lines

/-!
# Listings and their frames

Adding lines to a listing counts them from the frame that it has.
-/

namespace StackBackend

/-! ### Results -/

/-- A sequence that gives a result is made of two parts that do. -/
theorem eq_ok_of_bind {ε α β : Type} {x : Except ε α} {f : α → Except ε β} {b : β}
    (h : x >>= f = .ok b) :
  ∃ a, x = .ok a ∧ f a = .ok b
  := by
  cases x with
  | error e => cases h
  | ok a => use a, rfl, h

theorem mapError_ok {ε ε' α : Type} (f : ε → ε') (a : α) :
  (Except.ok a).mapError f = .ok a
  := rfl

theorem eq_ok_of_mapError {ε ε' α : Type} {x : Except ε α} {f : ε → ε'} {a : α}
    (h : x.mapError f = .ok a) :
  x = .ok a
  := by
  cases x with
  | error e => cases h
  | ok b => apply congrArg _ (Except.ok.inj h)

theorem eq_ok_of_map {ε α β : Type} {x : Except ε α} {f : α → β} {b : β} (h : x.map f = .ok b) :
  ∃ a, x = .ok a ∧ f a = b
  := by
  cases x with
  | error e => cases h
  | ok a => use a, rfl, Except.ok.inj h

theorem eq_ok_of_toOption {ε α : Type} {x : Except ε α} {a : α} (h : x.toOption = some a) :
  x = .ok a
  := by
  cases x with
  | error e => simp [Except.toOption] at h
  | ok b => simpa [Except.toOption] using h

theorem eq_error_of_bind {ε α β : Type} {x : Except ε α} {f : α → Except ε β} {e : ε}
    (h : x >>= f = .error e) :
  x = .error e ∨ ∃ a, x = .ok a ∧ f a = .error e
  := by
  cases x with
  | error e' =>
      left
      apply congrArg _ (Except.error.inj h)
  | ok a =>
      right
      use a, rfl, h

theorem eq_error_of_mapError {ε ε' α : Type} {x : Except ε α} {f : ε → ε'} {e' : ε'}
    (h : x.mapError f = .error e') :
  ∃ e, x = .error e ∧ f e = e'
  := by
  cases x with
  | error e => use e, rfl, Except.error.inj h
  | ok a => cases h

theorem eq_error_of_map {ε α β : Type} {x : Except ε α} {f : α → β} {e : ε}
    (h : x.map f = .error e) :
  x = .error e
  := by
  cases x with
  | error e' => apply congrArg _ (Except.error.inj h)
  | ok a => cases h

/-! ### Frames -/

namespace Frame

variable {f f' : Frame} {lines l₁ l₂ : List Line}

theorem replay_nil (f : Frame) :
  f.replay [] = .ok f
  := rfl

theorem replay_cons (f : Frame) (line : Line) (lines : List Line) :
  f.replay (line :: lines) = f.step line >>= fun f' => f'.replay lines
  := List.foldlM_cons

/-- Lines in a row are counted one after the other. -/
theorem replay_append (f : Frame) (l₁ l₂ : List Line) :
  f.replay (l₁ ++ l₂) = f.replay l₁ >>= fun f' => f'.replay l₂
  := List.foldlM_append

theorem replay_cons_eq_ok {line : Line} :
  f.replay (line :: lines) = .ok f' ↔ ∃ g, f.step line = .ok g ∧ g.replay lines = .ok f'
  := by
  rw [replay_cons]
  constructor
  · apply eq_ok_of_bind
  · rintro ⟨g, stepped, counted⟩
    rw [stepped]
    apply counted

/-- Lines in a row can be counted if the first ones can, and the second ones from there. -/
theorem replay_append_eq_ok :
  f.replay (l₁ ++ l₂) = .ok f' ↔ ∃ g, f.replay l₁ = .ok g ∧ g.replay l₂ = .ok f'
  := by
  rw [replay_append]
  constructor
  · apply eq_ok_of_bind
  · rintro ⟨g, first, second⟩
    rw [first]
    apply second

/-- Counting lines in two parts. -/
theorem replay_append_of_ok (h : f.replay l₁ = .ok f') :
  f.replay (l₁ ++ l₂) = f'.replay l₂
  := by
  rw [replay_append, h]
  rfl

/-- A frame knows whether the lines have ended control. -/
theorem step_terminated {line : Line} (h : f.step line = .ok f') :
  f'.terminated = Line.ended f.terminated [line]
  := by
  cases line with
  | label name =>
      obtain rfl : f.passLabel name = f' := by simpa [step] using h
      simp only [passLabel]
      split
      · rfl
      · next open' => simpa using open'
  | inst i =>
      simp only [step] at h
      split at h
      · simp at h
      · split at h
        · obtain rfl := Except.ok.inj h
          rfl
        · simp at h

/-- A frame knows whether control may come to the end of the lines. -/
theorem replay_terminated (h : f.replay lines = .ok f') :
  f'.terminated = Line.ended f.terminated lines
  := by
  induction lines generalizing f with
  | nil =>
      obtain rfl : f = f' := Except.ok.inj h
      rfl
  | cons line lines ih =>
      obtain ⟨g, stepped, counted⟩ := replay_cons_eq_ok.1 h
      have first : Line.ended f.terminated (line :: lines)
          = Line.ended (Line.ended f.terminated [line]) lines := Line.ended_append _ [line] lines
      rw [first, ← step_terminated stepped]
      apply ih counted

end Frame

namespace Listing

/-- Pushing a line counts it and writes it. -/
theorem push_eq (l : Listing) (line : Line) :
  l.push line = (l.frame.step line).map fun f => { l with lines := l.lines ++ [line], frame := f }
  := by
  rw [push]
  cases l.frame.step line <;> rfl

/-- Lines are added after those of the listing, and counted from its frame. -/
theorem pushAll_eq (l : Listing) (lines : List Line) :
  l.pushAll lines
    = (l.frame.replay lines).map fun f => { l with lines := l.lines ++ lines, frame := f }
  := by
  induction lines generalizing l with
  | nil => simp [pushAll, Frame.replay_nil, Except.map, pure, Except.pure]
  | cons line lines ih =>
      have first : l.pushAll (line :: lines) = l.push line >>= fun l' => l'.pushAll lines :=
        List.foldlM_cons
      rw [first, push_eq, Frame.replay_cons]
      cases l.frame.step line with
      | error e => rfl
      | ok f =>
          change pushAll _ lines = _
          rw [ih]
          simp only [List.append_assoc, List.singleton_append]
          rfl

end Listing

end StackBackend
