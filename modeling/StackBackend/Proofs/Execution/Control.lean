import StackBackend.Proofs.Execution.Automaton
import StackBackend.Proofs.Execution.Domain

/-!
# Control

Programs and machine code are both rows of instructions. An instruction works on the data of its
level and says where control goes: on to the next one, to a label, or out with a result. From the
row, the places of the labels and the outcome at the end of the row an automaton is made; its
states are the index of an instruction with data and heap.

`Does` says what a part of the code does as a computation, and parts are joined as computations
are.
-/

namespace StackBackend

/-- How a run ends. -/
inductive Ending (V : Type) where
  /-- A return, with the value if there is one. -/
  | returned (v : Option V)
  /-- Control gets to the end of code that does not end there. -/
  | fellOff
  /-- A fault. -/
  | fault (f : Fault)
deriving DecidableEq, Repr

/-- Where control goes after an instruction, with the data it leaves. -/
inductive Next (σ V : Type) where
  | on (data : σ)
  | jump (label : String) (data : σ)
  | ret (v : Option V)

/-- The same place with other data. -/
def Next.map {σ τ V : Type} (f : σ → τ) : Next σ V → Next τ V
  | on data => on (f data)
  | jump label data => jump label (f data)
  | ret v => ret v

/-- A jump that is taken or not, seen on other data. -/
theorem Next.map_branch {σ τ V : Type} (f : σ → τ) (taken : Bool) (label : String) (data : σ) :
  Next.map f (if taken then jump label data else on data : Next σ V)
    = if taken then jump label (f data) else on (f data)
  := by
  cases taken <;> rfl

/-- A row of instructions over data `σ`: what the instruction at an index does, where the labels
are, and the outcome after the last instruction. -/
structure Control (D : Domain) (σ : Type) where
  instr : Nat → Option (σ → Eff D (Next σ D.Value))
  target : String → Option Nat
  atEnd : Ending D.Value

/-- A state of a run: the index of the next instruction, the data, and the heap. -/
structure State (D : Domain) (σ : Type) where
  index : Nat
  data : σ
  heap : D.Heap

namespace Control

variable {D : Domain} {σ : Type}

/-- Where a run stands that goes to an index with data, or ends. -/
abbrev Stop (D : Domain) (σ : Type) : Type := (Nat × σ) ⊕ Ending D.Value

/-- Where control gets to; `index` is that of the code that comes next. -/
def follow (C : Control D σ) (index : Nat) : Next σ D.Value → Stop D σ
  | .on data => .inl (index, data)
  | .jump label data =>
      match C.target label with
      | some target => .inl (target, data)
      | none => .inr (.fault (.label label))
  | .ret v => .inr (.returned v)

/-- The result of a computation as that of a step. -/
def settle : List (Request D.Value) × Except Fault (Stop D σ × D.Heap) →
    List (Request D.Value) × (State D σ ⊕ Ending D.Value)
  | (tr, .ok (.inl (index, data), h)) => (tr, .inl ⟨index, data, h⟩)
  | (tr, .ok (.inr o, _)) => (tr, .inr o)
  | (tr, .error f) => (tr, .inr (.fault f))

/-- What happens at an index with data. -/
def perform (C : Control D σ) (index : Nat) (data : σ) : Eff D (Stop D σ) :=
  match C.instr index with
  | some exec => C.follow (index + 1) <$> exec data
  | none => pure (.inr C.atEnd)

/-- The automaton of a row of instructions. -/
def automaton (C : Control D σ) :
    Automaton (Request D.Value) (State D σ) (Ending D.Value) where
  step s := settle (C.perform s.index s.data s.heap)

/-! ### Parts of code as computations -/

/-- From the index `p` with the data `d` at least `least` steps do what the computation `c` does,
and get to where `c` says. -/
def Does (C : Control D σ) (least p : Nat) (d : σ) (c : Eff D (Stop D σ)) : Prop :=
  ∀ h, C.automaton.Arrives least ⟨p, d, h⟩ (settle (c h))

variable {C : Control D σ} {p q least least' : Nat} {d : σ}

/-- One step does what happens at its index. -/
theorem Does.perform :
  C.Does 1 p d (C.perform p d)
  := by
  intro h
  apply Automaton.Arrives.of_step
  rfl

/-- No step does nothing. -/
theorem Does.stay :
  C.Does 0 p d (pure (.inl (p, d)))
  := by
  intro h
  exact ⟨0, Nat.le_refl 0, .refl _⟩

/-- A part that computes `x`, and gets to a place that depends on the result, is joined with the parts
from there on. -/
theorem Does.bind_of_gives {α : Type} {x : Eff D α} {place : α → Nat × σ}
    {k : α → Eff D (Stop D σ)}
    (first : C.Does least p d (x >>= fun a => pure (.inl (place a))))
    (second : ∀ a, x.Gives a → C.Does least' (place a).1 (place a).2 (k a)) :
  C.Does (least + least') p d (x >>= k)
  := by
  intro h
  have first := first h
  rw [Eff.bind_apply] at first ⊢
  rcases hx : x h with ⟨tr, e | ⟨a, h'⟩⟩
  · rwa [hx] at first
  · rw [hx] at first
    obtain ⟨n, hn, reached⟩ := first
    rw [Eff.pure_apply, List.append_nil] at reached
    have second := second a ⟨h, tr, h', hx⟩ h'
    rcases hk : k a h' with ⟨tr', e | ⟨⟨r, d'⟩ | o, h''⟩⟩
    · rw [hk] at second
      simp only [hk]
      apply reached.halts second
    · rw [hk] at second
      obtain ⟨m, hm, reached'⟩ := second
      simp only [hk]
      use n + m
      constructor
      · omega
      · apply reached.trans reached'
    · rw [hk] at second
      simp only [hk]
      apply reached.halts second

/-- Parts of code one after the other, the second one where the first one ends. -/
theorem Does.bind {α : Type} {x : Eff D α} {place : α → Nat × σ} {k : α → Eff D (Stop D σ)}
    (first : C.Does least p d (x >>= fun a => pure (.inl (place a))))
    (second : ∀ a, C.Does least' (place a).1 (place a).2 (k a)) :
  C.Does (least + least') p d (x >>= k)
  := first.bind_of_gives fun a _ => second a

/-- A part that only gets to a place is joined with the part from there on. -/
theorem Does.after {d' : σ} {c : Eff D (Stop D σ)} (second : C.Does least' q d' c)
    (first : C.Does least p d (pure (.inl (q, d')))) :
  C.Does (least + least') p d c
  := by
  have start : C.Does least p d ((pure () : Eff D Unit) >>= fun _ => pure (.inl (q, d'))) := by
    rwa [pure_bind]
  have both := start.bind fun _ => second
  rwa [pure_bind] at both

/-- Fewer steps may be asked for. -/
theorem Does.mono {c : Eff D (Stop D σ)} (does : C.Does least p d c) (le : least' ≤ least) :
  C.Does least' p d c
  := fun h => (does h).mono le

/-! ### Following by computations -/

/-- Two places meet: control goes on in related states, or ends alike. -/
def Meets {τ : Type} (R : State D σ → State D τ → Prop) : Stop D σ → Stop D τ → Prop
  | .inl (i, d), .inl (j, e) => ∀ h, R ⟨i, d, h⟩ ⟨j, e, h⟩
  | .inr o, .inr o' => o = o'
  | _, _ => False

/-- Code that does in related states what the instructions of other code do follows them. -/
theorem follows_of_does {τ : Type} {C : Control D σ} {C' : Control D τ}
    {R : State D σ → State D τ → Prop}
    (step : ∀ x y, R x y → x.heap = y.heap ∧ ∃ c, C'.Does 1 y.index y.data c
      ∧ Eff.Rel (Meets R) (C.perform x.index x.data) c) :
  Follows C.automaton C'.automaton R
  := by
  constructor
  · intro x y hR tr x' hx
    obtain ⟨heap, c, does, related⟩ := step x y hR
    have does := does y.heap
    change settle (C.perform x.index x.data x.heap) = _ at hx
    rw [heap] at hx
    rcases related y.heap with ⟨tr', e, h, -⟩ | ⟨tr', a, b, h', ha, hb, meets⟩
    · simp [h, settle] at hx
    · rw [ha] at hx
      rw [hb] at does
      rcases a with ⟨i, d⟩ | o
      · rcases b with ⟨j, e⟩ | o'
        · obtain ⟨rfl, rfl⟩ : tr' = tr ∧ State.mk i d h' = x' := by simpa [settle] using hx
          obtain ⟨n, hn, reached⟩ := does
          exact ⟨n, ⟨j, e, h'⟩, hn, reached, meets h'⟩
        · apply meets.elim
      · simp [settle] at hx
  · intro x y hR tr o hx
    obtain ⟨heap, c, does, related⟩ := step x y hR
    have does := does y.heap
    change settle (C.perform x.index x.data x.heap) = _ at hx
    rw [heap] at hx
    rcases related y.heap with ⟨tr', e, h, h'⟩ | ⟨tr', a, b, h', ha, hb, meets⟩
    · rw [h'] at does
      obtain ⟨rfl, rfl⟩ : tr' = tr ∧ .fault e = o := by simpa [h, settle] using hx
      apply does
    · rw [ha] at hx
      rw [hb] at does
      rcases a with ⟨i, d⟩ | o₁
      · simp [settle] at hx
      · obtain ⟨rfl, rfl⟩ : tr' = tr ∧ o₁ = o := by simpa [settle] using hx
        rcases b with ⟨j, e⟩ | o'
        · apply meets.elim
        · obtain rfl : o₁ = o' := meets
          apply does

end Control

end StackBackend
