import Mathlib.Tactic.Use
import StackBackend.Lowering.Emission

/-!
# What an emission writes

The lines of an emission that succeeds are those of its parts in a row.
-/

namespace StackBackend.Emit

variable {α β : Type}

instance : LawfulMonad Emit := by
  apply LawfulMonad.mk' Emit
  · intro α p
    funext s
    change (p >>= pure) s = p s
    rw [bind_apply]
    rcases p s with ⟨lines, e | ⟨a, t⟩⟩ <;> simp
  · intro α β a f
    funext s
    rw [bind_apply]
    simp
  · intro α β γ p f g
    funext s
    simp only [bind_apply]
    rcases p s with ⟨lines, e | ⟨a, t⟩⟩
    · rfl
    · rcases hf : f a t with ⟨lines', e | ⟨b, t'⟩⟩ <;> simp [hf]

/-- The emission `p` succeeds from the supply `s`: it writes `lines`, gives `a` and leaves `t`. -/
def Writes (p : Emit α) (s : LabelSupply) (lines : List Line) (a : α) (t : LabelSupply) : Prop :=
  p s = (lines, .ok (a, t))

variable {s t : LabelSupply} {lines : List Line}

theorem Writes.of_pure {a b : α} (h : (pure a : Emit α).Writes s lines b t) :
  lines = [] ∧ b = a ∧ t = s
  := by
  simp only [Writes, pure_apply, Prod.mk.injEq, Except.ok.injEq] at h
  obtain ⟨rfl, rfl, rfl⟩ := h
  use rfl

/-- A sequence that succeeds is made of two emissions that do. -/
theorem Writes.of_bind {p : Emit α} {f : α → Emit β} {b : β}
    (h : (p >>= f).Writes s lines b t) :
  ∃ l₁ a t₁ l₂, p.Writes s l₁ a t₁ ∧ (f a).Writes t₁ l₂ b t ∧ lines = l₁ ++ l₂
  := by
  rw [Writes, bind_apply] at h
  rcases hp : p s with ⟨l₁, e | ⟨a, t₁⟩⟩
  · simp [hp] at h
  · simp only [hp, Prod.mk.injEq] at h
    obtain ⟨rfl, hf⟩ := h
    use l₁, a, t₁, (f a t₁).1, hp, Prod.ext rfl hf

theorem Writes.bind {p : Emit α} {f : α → Emit β} {l₁ l₂ : List Line} {a : α} {b : β}
    {t₁ : LabelSupply} (h : p.Writes s l₁ a t₁) (h' : (f a).Writes t₁ l₂ b t) :
  (p >>= f).Writes s (l₁ ++ l₂) b t
  := by
  rw [Writes] at h h' ⊢
  simp [bind_apply, h, h']

theorem Writes.of_fail {e : LoweringError} {a : α} (h : (fail e : Emit α).Writes s lines a t) :
  False
  := by
  simp [Writes, fail] at h

theorem Writes.of_inst {i : Inst} {a : Unit} (h : (inst i).Writes s lines a t) :
  lines = [.inst i] ∧ t = s
  := by
  simp only [Writes, inst, Prod.mk.injEq, Except.ok.injEq] at h
  obtain ⟨rfl, -, rfl⟩ := h
  use rfl

theorem Writes.of_label {name : String} {a : Unit} (h : (label name).Writes s lines a t) :
  lines = [.label name] ∧ t = s
  := by
  simp only [Writes, label, Prod.mk.injEq, Except.ok.injEq] at h
  obtain ⟨rfl, -, rfl⟩ := h
  use rfl

theorem Writes.of_fresh {stem name : String} (h : (fresh stem).Writes s lines name t) :
  lines = [] ∧ s.fresh [stem] = ([name], t)
  := by
  simp only [Writes, fresh, LabelSupply.fresh, Prod.mk.injEq, Except.ok.injEq] at h
  obtain ⟨rfl, rfl, rfl⟩ := h
  use rfl
  rfl

theorem Writes.of_freshPair {stem stem' : String} {names : String × String}
    (h : (freshPair stem stem').Writes s lines names t) :
  lines = [] ∧ s.fresh [stem, stem'] = ([names.1, names.2], t)
  := by
  simp only [Writes, freshPair, LabelSupply.fresh, Prod.mk.injEq, Except.ok.injEq] at h
  obtain ⟨rfl, rfl, rfl⟩ := h
  use rfl
  rfl

end StackBackend.Emit
