import StackBackend.Proofs.Execution.Program

/-!
# Disciplines

A discipline sorts the values of a domain. It says which sorts may stand where a kind is asked for, which
requests may be made and which faults may stop a run. Its laws say this of each operation by itself, on values
of fitting sorts.

What the laws say of operations holds of every computation that is made of them. Two computations are within
the bounds of a discipline together when they do the same and the discipline allows it.
-/

namespace StackBackend

/-- A fault that tells of wrong kinds or of a stack that holds too little. -/
def Fault.OfKinds : Fault → Prop
  | .kind | .stack => True
  | _ => False

/-! ### Bounds -/

/-- The requests that a computation may make, and the faults that it may stop with. -/
structure Bounds (D : Domain) where
  Allows : Request D.Value → Prop
  Excuses : Fault → Prop

variable {D : Domain} {α β : Type}

/-- What is given has the property, and a fault is one that is excused. -/
def Bounds.Grants (b : Bounds D) (P : α → Prop) : Except Fault α → Prop
  | .ok a => P a
  | .error f => b.Excuses f

/-- Bounds that excuse every fault grant what always holds. -/
theorem Bounds.grants_of_forall {b : Bounds D} (excuses : ∀ f, b.Excuses f) {P : α → Prop} (holds : ∀ a, P a)
    (x : Except Fault α) :
  b.Grants P x
  := by
  cases x with
  | ok a => apply holds
  | error f => apply excuses

namespace Eff

variable {b : Bounds D} {P : α → Prop} {Q : α → β → Prop}

/-- The computation is within the bounds, and what it gives has the property. -/
def Obeys (b : Bounds D) (P : α → Prop) (x : Eff D α) : Prop :=
  ∀ h, (∀ q ∈ (x h).1, b.Allows q) ∧ b.Grants (fun r => P r.1) (x h).2

/-- The computations do the same within the bounds, and give related results. -/
structure Within (b : Bounds D) (Q : α → β → Prop) (x : Eff D α) (y : Eff D β) : Prop where
  same : Rel Q x y
  obeys : x.Obeys b fun _ => True

/-- The computations are the same within the bounds, and what they give has the property. -/
abbrev Shares (b : Bounds D) (P : α → Prop) (x y : Eff D α) : Prop :=
  Within b (fun a a' => a = a' ∧ P a) x y

/-- An action that is allowed and granted. -/
theorem obeys_act {a : Action} {vs : List D.Value} {P : D.Value → Prop} (allowed : b.Allows ⟨a, vs⟩)
    (granted : ∀ h, b.Grants (fun r => P r.1) (D.act a vs h)) :
  (act a vs).Obeys b P
  := by
  intro h
  constructor
  · intro q made
    obtain rfl := List.mem_singleton.1 made
    apply allowed
  · apply granted

/-- A computation that obeys shares what it gives with itself. -/
theorem Obeys.shares {x : Eff D α} (obeys : x.Obeys b P) :
  Shares b P x x
  := by
  constructor
  · apply Rel.of_gives
    rintro a ⟨h, tr, h', given⟩
    obtain ⟨-, granted⟩ := obeys h
    rw [given] at granted
    use rfl, granted
  · intro h
    obtain ⟨allowed, granted⟩ := obeys h
    use allowed
    rcases done : x h with ⟨tr, f | r⟩
    · rw [done] at granted
      apply granted
    · trivial

namespace Within

theorem pure {a : α} {a' : β} (related : Q a a') :
  Within b Q (pure a : Eff D α) (pure a')
  := by
  constructor
  · apply Rel.pure related
  · intro h
    constructor
    · rintro q ⟨⟩
    · trivial

theorem fail {f : Fault} (excused : b.Excuses f) :
  Within b Q (fail f : Eff D α) (fail f)
  := by
  constructor
  · apply Rel.fail
  · intro h
    constructor
    · rintro q ⟨⟩
    · apply excused

/-- Computations in a row: related results lead to related rests. -/
theorem bind {γ δ : Type} {Q' : γ → δ → Prop} {x : Eff D α} {y : Eff D β} {f : α → Eff D γ} {g : β → Eff D δ}
    (first : Within b Q x y) (rest : ∀ a a', Q a a' → Within b Q' (f a) (g a')) :
  Within b Q' (x >>= f) (y >>= g)
  := by
  constructor
  · apply first.same.bind
    intro a a' related
    apply (rest a a' related).same
  · intro h
    obtain ⟨allowed, granted⟩ := first.obeys h
    rw [bind_apply]
    rcases first.same h with ⟨tr, e, hx, -⟩ | ⟨tr, a, a', h', hx, -, related⟩
    · rw [hx] at allowed granted ⊢
      use allowed, granted
    · obtain ⟨allowed', granted'⟩ := (rest a a' related).obeys h'
      rw [hx] at allowed ⊢
      constructor
      · intro q made
        obtain made | made := List.mem_append.1 made
        · apply allowed q made
        · apply allowed' q made
      · apply granted'

/-- Related results that are changed in the same way. -/
theorem map {γ δ : Type} {Q' : γ → δ → Prop} {x : Eff D α} {y : Eff D β} {f : α → γ} {g : β → δ}
    (first : Within b Q x y) (rest : ∀ a a', Q a a' → Q' (f a) (g a')) :
  Within b Q' (f <$> x) (g <$> y)
  := by
  rw [← bind_pure_comp, ← bind_pure_comp]
  apply first.bind
  intro a a' related
  apply pure (rest a a' related)

/-- What is given is given by the first computation. -/
theorem with_gives {x : Eff D α} {y : Eff D β} (within : Within b Q x y) :
  Within b (fun a a' => Q a a' ∧ x.Gives a) x y
  := by
  constructor
  · apply within.same.with_gives
  · apply within.obeys

/-- One side of related computations obeys. -/
theorem obeys_of {x : Eff D α} {y : Eff D β} (within : Within b Q x y) (rest : ∀ a a', Q a a' → P a) :
  x.Obeys b P
  := by
  intro h
  obtain ⟨allowed, granted⟩ := within.obeys h
  use allowed
  rcases within.same h with ⟨tr, e, hx, -⟩ | ⟨tr, a, a', h', hx, -, related⟩
  · rw [hx] at granted ⊢
    apply granted
  · rw [hx]
    apply rest a a' related

end Within

/-- A result that is there or a fault, if it is granted. -/
theorem shares_ofExcept {x : Except Fault α} (granted : b.Grants P x) :
  Shares b P (ofExcept x : Eff D α) (ofExcept x)
  := by
  cases x with
  | error f => apply Within.fail granted
  | ok a => apply Within.pure ⟨rfl, granted⟩

/-- A decision, if it is granted on every heap. -/
theorem shares_decide {x : D.Heap → Except Fault (Bool × D.Heap)} (granted : ∀ h, b.Grants (fun _ => True) (x h)) :
  Shares b (fun _ => True) (decide x) (decide x)
  := by
  apply Obeys.shares
  intro h
  constructor
  · rintro q ⟨⟩
  · apply granted

theorem obeys_pure {a : α} (holds : P a) :
  (pure a : Eff D α).Obeys b P
  := by
  intro h
  constructor
  · rintro q ⟨⟩
  · apply holds

/-- What obeys, with its result changed. -/
theorem Obeys.map {P' : β → Prop} {x : Eff D α} {f : α → β} (obeys : x.Obeys b P) (rest : ∀ a, P a → P' (f a)) :
  (f <$> x).Obeys b P'
  := by
  have mapped : Shares b P' (f <$> x) (f <$> x) := by
    apply obeys.shares.map
    rintro a _ ⟨rfl, holds⟩
    use rfl
    apply rest a holds
  apply mapped.obeys_of
  rintro c _ ⟨rfl, holds⟩
  apply holds

end Eff

/-! ### Runs -/

namespace Control

variable {σ : Type} {C : Control D σ} {b : Bounds D} {I : Nat → σ → Prop} {s : State D σ}

/-- The property holds wherever control goes on to; `index` is that of the code that comes next. -/
def Leads (C : Control D σ) (I : Nat → σ → Prop) (index : Nat) : Next σ D.Value → Prop
  | .on data => I index data
  | .jump label data => ∀ target, C.target label = some target → I target data
  | .ret _ => True

/-- Each instruction obeys the bounds where the property holds, and leads to where it holds. The missing
label of a jump and the end of the code are within the bounds. -/
structure Keeps (C : Control D σ) (b : Bounds D) (I : Nat → σ → Prop) : Prop where
  step : ∀ index exec data, C.instr index = some exec → I index data →
    (exec data).Obeys b (C.Leads I (index + 1))
  label : ∀ label, b.Excuses (.label label)
  atEnd : ∀ f, C.atEnd = .fault f → b.Excuses f

/-- Control stays where the property holds, or ends without a fault that is not excused. -/
def Stays (b : Bounds D) (I : Nat → σ → Prop) : Stop D σ → Prop
  | .inl (index, data) => I index data
  | .inr o => ∀ f, o = .fault f → b.Excuses f

namespace Keeps

/-- A step of a machine that keeps an invariant obeys, and stays in it. -/
theorem perform (keeps : C.Keeps b I) {index : Nat} {data : σ} (holds : I index data) :
  (C.perform index data).Obeys b (Stays b I)
  := by
  unfold Control.perform
  split
  · next exec at_index =>
      apply (keeps.step index exec data at_index holds).map
      intro next leads
      cases next with
      | on data => apply leads
      | jump label data =>
          simp only [follow]
          cases found : C.target label with
          | none =>
              rintro _ ⟨⟩
              apply keeps.label
          | some target => apply leads target found
      | ret v => rintro _ ⟨⟩
  · apply Eff.obeys_pure
    apply keeps.atEnd

/-- A run from where the property holds has no fault but those that are excused. -/
theorem excuses (keeps : C.Keeps b I) (start : I s.index s.data) {tr : List (Request D.Value)} {f : Fault}
    (halts : C.automaton.Halts s tr (.fault f)) :
  b.Excuses f
  := by
  have outcome := halts.of_invariant (I := fun s => I s.index s.data)
    (P := fun o => ∀ f, o = .fault f → b.Excuses f) ?_ start
  · apply outcome f rfl
  · intro s holds
    obtain ⟨-, granted⟩ := keeps.perform holds s.heap
    simp only [automaton]
    rcases done : C.perform s.index s.data s.heap with ⟨tr, e | ⟨⟨index, data⟩ | o, h⟩⟩
    · rw [done] at granted
      rintro _ ⟨⟩
      apply granted
    · rw [done] at granted
      apply granted
    · rw [done] at granted
      apply granted

/-- A run from where the property holds makes only requests that are allowed. -/
theorem allows (keeps : C.Keeps b I) (start : I s.index s.data) {tr : List (Request D.Value)}
    (emits : C.automaton.Emits s tr) :
  ∀ q ∈ tr, b.Allows q
  := by
  apply emits.of_invariant (I := fun s => I s.index s.data) (P := b.Allows) _ start
  intro s holds
  obtain ⟨allowed, granted⟩ := keeps.perform holds s.heap
  simp only [automaton]
  rcases done : C.perform s.index s.data s.heap with ⟨tr, e | ⟨⟨index, data⟩ | o, h⟩⟩
  · rw [done] at allowed
    use allowed
    rintro _ ⟨⟩
  · rw [done] at allowed granted
    use allowed
    rintro _ ⟨⟩
    apply granted
  · rw [done] at allowed
    use allowed
    rintro _ ⟨⟩

end Keeps

end Control

/-- The end of a program is no fault. -/
theorem program_atEnd_ne [DecidableEq α] (u : ClassUnit) (address : String → Option α) (m : Method) (f : Fault) :
  (program u address D m).atEnd ≠ .fault f
  := by
  simp only [program]
  split <;> simp

/-! ### Sorts of values -/

/-- Sorts for the values of a domain, where the code is that of the unit `u`. -/
structure Discipline (D : Domain) (u : ClassUnit) extends Bounds D where
  S : Type
  /-- A value may be of a sort. -/
  Has : D.Value → S → Prop
  /-- The sort of the values of a type. -/
  sort : Ty → S
  /-- The sort of what is made new of a type. -/
  made : Ty → S
  /-- Values of the sort may stand where a value of the kind is asked for. -/
  Fits : S → Kind → Prop
  /-- A literal may have the type. -/
  Writes : Ty → Prop
  /-- The type may be part of a name. -/
  Names : Ty → Prop
  excuses : ∀ {f : Fault}, ¬ f.OfKinds → Excuses f
  fits_sort : ∀ ty, Fits (sort ty) (.ofTy ty)
  int : ∀ n, Has (D.int n) (sort .int)
  literal : ∀ {value : String} {ty : Ty}, Writes ty →
    toBounds.Grants (Has · (sort ty)) (literalConstant D value ty)
  check : ∀ {v : D.Value} {s : S} {kind : Kind}, Has v s → Fits s kind →
    toBounds.Grants (fun _ => True) (D.check kind v)
  arith : ∀ {v w : D.Value} {s s' : S} (op : Arith), Has v s → Fits s .int → Has w s' → Fits s' .int →
    toBounds.Grants (Has · (sort .int)) (D.arith op v w)
  neg : ∀ {v : D.Value} {s : S}, Has v s → Fits s .int → toBounds.Grants (Has · (sort .int)) (D.neg v)
  test : ∀ {v : D.Value} {s : S} (p : Int32 → Bool) (h : D.Heap), Has v s → Fits s .int →
    toBounds.Grants (fun _ => True) (D.test p v h)
  compare : ∀ {v w : D.Value} {s s' : S} (r : Int32 → Int32 → Bool) (h : D.Heap), Has v s → Fits s .int →
    Has w s' → Fits s' .int → toBounds.Grants (fun _ => True) (D.compare r v w h)
  load : ∀ {v w : D.Value} {ty : Ty} {s : S}, Has v (sort (.array ty)) → Has w s → Fits s .int →
    (Eff.act (.arrayLoad (.ofTy ty)) [v, w]).Obeys toBounds (Has · (sort ty))
  store : ∀ {v w x : D.Value} {ty : Ty} {s s' : S}, Has v (sort (.array ty)) → Has w s → Fits s .int →
    Has x s' → Fits s' (.ofTy ty) →
    (Eff.act (.arrayStore (.ofTy ty)) [v, w, x]).Obeys toBounds fun _ => True
  length : ∀ {v : D.Value} {s : S}, Has v s → Fits s .ref →
    (Eff.act .arrayLength [v]).Obeys toBounds (Has · (sort .int))
  getField : ∀ {v : D.Value} {s : S} (field : String) (ty : Ty), Has v s → Fits s .ref →
    (Eff.act (.getField field (u.descriptor ty)) [v]).Obeys toBounds (Has · (sort ty))
  putField : ∀ {v w : D.Value} {s s' : S} (field : String) (ty : Ty), Has v s → Fits s .ref → Has w s' →
    Fits s' (.ofTy ty) → (Eff.act (.putField field (u.descriptor ty)) [v, w]).Obeys toBounds fun _ => True
  invoke : ∀ {vs : List D.Value} {kind : CallKind} {receiver : Operand} {args : List Operand} {result : Ty}
    (owner method : String), (∀ e ∈ args, Names e.ty) → Names result →
    (kind ≠ .static → Fits (sort receiver.ty) .ref) →
    List.Forall₂ (fun v e => Has v (sort (Operand.ty e))) vs (callOperands kind receiver args) →
    (Eff.act (.invoke kind (callTarget u owner method args result)) vs).Obeys toBounds
      fun v => result.isVoid = false → Has v (sort result)
  newArray : ∀ {v : D.Value} {s : S} {ty : Ty}, Names (.array ty) → Has v s → Fits s .int →
    (Eff.act (arrayAction u ty) [v]).Obeys toBounds (Has · (made (.array ty)))
  new : ∀ {ty : Ty}, (∀ elem, ty ≠ .array elem) →
    (Eff.act (.new (u.classPath ty)) []).Obeys toBounds (Has · (made ty))

end StackBackend
