import Mathlib.Tactic.Use
import StackBackend.Assembly.Inst

/-!
# Values and operations

What a program and the machine compute with: a domain of values with constants, arithmetic,
tests, and the actions on objects and arrays that are left to the surroundings. Every action is
a request to them. A computation gives the requests it makes, and its result with the heap after it, or the
fault that stops it.

A test asks a word whether it has a property, and a comparison asks two words whether they are related;
which property or relation it is, is up to the program or the machine.

A domain may check the kind under which a value is read or written. The laws say how the comparisons
with zero and the sum of a checked value go together with the other operations; they are
all that the code for comparisons and increments relies on.
-/

namespace StackBackend

/-- An operation on objects, arrays and methods, left to the surroundings. -/
inductive Action where
  | invoke (kind : CallKind) (target : String)
  | new (path : String)
  | newArray (elem : String)
  | newRefArray (path : String)
  | arrayLoad (kind : Kind)
  | arrayStore (kind : Kind)
  | arrayLength
  | getField (target desc : String)
  | putField (target desc : String)
deriving DecidableEq, Repr, Inhabited

/-- An operation on two integers. -/
inductive Arith where
  | add | sub | mul | div | xor
deriving DecidableEq, Repr, Inhabited

/-- Why a run stops without a result. -/
inductive Fault where
  /-- An operation on integers fails: an operand is none, or a divisor is zero. -/
  | arithmetic (op : Arith)
  /-- The value negated is no integer. -/
  | negation
  /-- A value tested or compared is no integer. -/
  | test
  /-- An action fails. -/
  | action (a : Action)
  /-- A value is of another kind than it is read, written or used as. -/
  | kind
  /-- The operand stack holds too little. -/
  | stack
  /-- A constant is neither a quoted text nor a number. -/
  | constant (text : String)
  /-- A label is not defined. -/
  | label (name : String)
  /-- A variable has no cell. -/
  | variable (name : String)
  /-- An instruction has no meaning. -/
  | malformed
deriving DecidableEq, Repr, Inhabited

/-- Values, a heap, and the operations on them. -/
structure Domain where
  Value : Type
  Heap : Type
  /-- An integer constant. -/
  int : Int → Value
  /-- A text constant. -/
  text : String → Value
  /-- Whether a value may be read or written as one of a kind. -/
  check : Kind → Value → Except Fault Unit
  /-- An operation on two integers. -/
  arith : Arith → Value → Value → Except Fault Value
  /-- The integer with the other sign. -/
  neg : Value → Except Fault Value
  /-- Whether a word has the property. -/
  test : (Int32 → Bool) → Value → Heap → Except Fault (Bool × Heap)
  /-- Whether two words are related. -/
  compare : (Int32 → Int32 → Bool) → Value → Value → Heap → Except Fault (Bool × Heap)
  /-- An action on values. -/
  act : Action → List Value → Heap → Except Fault (Value × Heap)

/-- The laws between the operations of a domain. -/
structure Domain.Lawful (D : Domain) : Prop where
  compare_zero : ∀ r a h, D.compare r a (D.int 0) h = D.test (r · 0) a h
  zero_compare : ∀ r b h, D.compare r (D.int 0) b h = D.test (r 0) b h
  add_comm : ∀ a b, D.arith .add a b = D.arith .add b a
  /-- A sum asks of its operands what reading an integer asks of them. -/
  check_add : ∀ a b, (D.check .int a >>= fun _ => D.arith .add a b) = D.arith .add a b
  /-- A sum may be written as an integer. -/
  check_sum : ∀ a b v, D.arith .add a b = .ok v → D.check .int v = .ok ()

/-- An action with the values it is done on. -/
structure Request (V : Type) where
  action : Action
  args : List V
deriving DecidableEq, Repr

/-! ### Computations -/

/-- A computation: the requests it makes, and its result with the heap after it, or the fault. -/
def Eff (D : Domain) (α : Type) : Type :=
  D.Heap → List (Request D.Value) × Except Fault (α × D.Heap)

namespace Eff

variable {D : Domain} {α β : Type}

instance : Monad (Eff D) where
  pure a := fun h => ([], .ok (a, h))
  bind x f := fun h =>
    match x h with
    | (tr, .ok (a, h')) => (tr ++ (f a h').1, (f a h').2)
    | (tr, .error e) => (tr, .error e)

@[simp]
theorem pure_apply (a : α) (h : D.Heap) :
  (pure a : Eff D α) h = ([], .ok (a, h))
  := rfl

/-- The requests of two computations in a row come one after the other, unless the first one fails. -/
theorem bind_apply (x : Eff D α) (f : α → Eff D β) (h : D.Heap) :
  (x >>= f) h = match x h with
    | (tr, .ok (a, h')) => (tr ++ (f a h').1, (f a h').2)
    | (tr, .error e) => (tr, .error e)
  := rfl

instance : LawfulMonad (Eff D) := by
  apply LawfulMonad.mk' (Eff D)
  · intro α x
    funext h
    change (x >>= pure) h = x h
    rw [bind_apply]
    rcases x h with ⟨tr, e | ⟨a, h'⟩⟩ <;> simp
  · intro α β a f
    funext h
    rw [bind_apply]
    simp
  · intro α β γ x f g
    funext h
    simp only [bind_apply]
    rcases x h with ⟨tr, e | ⟨a, h'⟩⟩
    · rfl
    · rcases hf : f a h' with ⟨tr', e | ⟨b, h''⟩⟩ <;> simp [hf]

/-- The computation gives `a` on some heap. -/
def Gives (x : Eff D α) (a : α) : Prop := ∃ h tr h', x h = (tr, .ok (a, h'))

theorem Gives.of_pure {a b : α} (h : (pure a : Eff D α).Gives b) :
  b = a
  := by
  obtain ⟨heap, tr, heap', hp⟩ := h
  simp only [pure_apply, Prod.mk.injEq, Except.ok.injEq] at hp
  apply hp.2.1.symm

/-- What a sequence gives is given by its rest. -/
theorem Gives.of_bind {x : Eff D α} {f : α → Eff D β} {b : β} (h : (x >>= f).Gives b) :
  ∃ a, x.Gives a ∧ (f a).Gives b
  := by
  obtain ⟨heap, tr, heap', hb⟩ := h
  rw [bind_apply] at hb
  rcases hx : x heap with ⟨tr₁, e | ⟨a, h₁⟩⟩
  · simp [hx] at hb
  · simp only [hx, Prod.mk.injEq] at hb
    use a
    constructor
    · use heap, tr₁, h₁, hx
    · use h₁, (f a h₁).1, heap', Prod.ext rfl hb.2

theorem Gives.of_map {x : Eff D α} {f : α → β} {b : β} (h : (f <$> x).Gives b) :
  ∃ a, x.Gives a ∧ b = f a
  := by
  rw [← bind_pure_comp] at h
  obtain ⟨a, ha, hb⟩ := h.of_bind
  use a, ha, hb.of_pure

/-- The two computations make the same requests, and end with the same fault or with the same heap and
results related by `Q`. -/
def Rel (Q : α → β → Prop) (x : Eff D α) (y : Eff D β) : Prop :=
  ∀ h, (∃ tr e, x h = (tr, .error e) ∧ y h = (tr, .error e))
    ∨ ∃ tr a b h', x h = (tr, .ok (a, h')) ∧ y h = (tr, .ok (b, h')) ∧ Q a b

theorem Rel.pure {Q : α → β → Prop} {a : α} {b : β} (h : Q a b) :
  Rel Q (pure a : Eff D α) (pure b)
  := by
  intro heap
  right
  use [], a, b, heap, rfl, rfl, h

/-- A computation is related to itself by what holds of its results. -/
theorem Rel.of_gives {Q : α → α → Prop} {x : Eff D α} (h : ∀ a, x.Gives a → Q a a) :
  Rel Q x x
  := by
  intro heap
  rcases hx : x heap with ⟨tr, e | ⟨a, heap'⟩⟩
  · left
    use tr, e
  · right
    use tr, a, a, heap', rfl, rfl
    apply h a
    use heap, tr, heap', hx

theorem Rel.refl (x : Eff D α) :
  Rel Eq x x
  := .of_gives fun _ _ => rfl

/-- Computations in a row: related results lead to related rests. -/
theorem Rel.bind {γ δ : Type} {Q : α → β → Prop} {Q' : γ → δ → Prop} {x : Eff D α} {y : Eff D β}
    {f : α → Eff D γ} {g : β → Eff D δ} (first : Rel Q x y)
    (second : ∀ a b, Q a b → Rel Q' (f a) (g b)) :
  Rel Q' (x >>= f) (y >>= g)
  := by
  intro heap
  rcases first heap with ⟨tr, e, hx, hy⟩ | ⟨tr, a, b, heap', hx, hy, related⟩
  · left
    use tr, e
    constructor
    · simp [bind_apply, hx]
    · simp [bind_apply, hy]
  · rcases second a b related heap' with ⟨tr', e, hf, hg⟩ | ⟨tr', c, d, heap'', hf, hg, related'⟩
    · left
      use tr ++ tr', e
      constructor
      · simp [bind_apply, hx, hf]
      · simp [bind_apply, hy, hg]
    · right
      use tr ++ tr', c, d, heap''
      and_intros
      · simp [bind_apply, hx, hf]
      · simp [bind_apply, hy, hg]
      · apply related'

/-- Related results that are changed in the same way. -/
theorem Rel.map {γ δ : Type} {Q : α → β → Prop} {Q' : γ → δ → Prop} {x : Eff D α} {y : Eff D β}
    {f : α → γ} {g : β → δ} (h : Rel Q x y) (next : ∀ a b, Q a b → Q' (f a) (g b)) :
  Rel Q' (f <$> x) (g <$> y)
  := by
  rw [← bind_pure_comp, ← bind_pure_comp]
  apply h.bind
  intro a b related
  apply Eff.Rel.pure (next a b related)

/-- What is given is given by the first computation. -/
theorem Rel.with_gives {Q : α → β → Prop} {x : Eff D α} {y : Eff D β} (h : Rel Q x y) :
  Rel (fun a b => Q a b ∧ x.Gives a) x y
  := by
  intro heap
  rcases h heap with ⟨tr, e, hx, hy⟩ | ⟨tr, a, b, heap', hx, hy, related⟩
  · left
    use tr, e, hx, hy
  · right
    use tr, a, b, heap', hx, hy, related, heap, tr, heap', hx

/-- Stops with a fault. -/
def fail (f : Fault) : Eff D α := fun _ => ([], .error f)

theorem Rel.fail {Q : α → β → Prop} (f : Fault) :
  Rel Q (fail f : Eff D α) (fail f)
  := by
  intro heap
  left
  use [], f, rfl
  rfl

theorem Gives.of_fail {f : Fault} {a : α} (h : (fail f : Eff D α).Gives a) :
  False
  := by
  obtain ⟨heap, tr, heap', hf⟩ := h
  simp [fail] at hf

/-- A computation without requests that leaves the heap alone. -/
def ofExcept (x : Except Fault α) : Eff D α := fun h => ([], x.map fun a => (a, h))

/-- A decision, which may depend on the heap. -/
def decide (x : D.Heap → Except Fault (Bool × D.Heap)) : Eff D Bool := fun h => ([], x h)

/-- An action; it is a request also when it fails. -/
def act (a : Action) (args : List D.Value) : Eff D D.Value := fun h => ([⟨a, args⟩], D.act a args h)

@[simp]
theorem ofExcept_ok (a : α) :
  (ofExcept (.ok a) : Eff D α) = pure a
  := rfl

/-- Results in a row are computations in a row. -/
theorem ofExcept_bind (x : Except Fault α) (f : α → Except Fault β) :
  (ofExcept (x >>= f) : Eff D β) = ofExcept x >>= fun a => ofExcept (f a)
  := by
  cases x with
  | error e => rfl
  | ok a =>
      rw [ofExcept_ok, pure_bind]
      rfl

end Eff

end StackBackend
