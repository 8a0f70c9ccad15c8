import StackBackend.Proofs.Execution.World
import StackBackend.Proofs.Lowering.Operators

/-!
# Domains with other comparisons

A domain may be given tests and comparisons with fewer faults. Code then makes all the requests that it
makes on the domain itself: it does the same on both, up to the first comparison that is a fault on one of
them.

On the domain of a world a comparison of references is a fault. The lenient one compares them too, as if
each were the word zero. There a comparison with any literal that writes zero is a test of the other value,
also with a literal that is a text.
-/

namespace StackBackend

namespace Domain

variable (D : Domain) (test : (Int32 → Bool) → D.Value → D.Heap → Except Fault (Bool × D.Heap))
  (compare : (Int32 → Int32 → Bool) → D.Value → D.Value → D.Heap → Except Fault (Bool × D.Heap))

/-- The domain with other tests and comparisons. -/
abbrev comparing : Domain := { D with test := test, compare := compare }

/-- The tests and comparisons of a domain are the given ones where they are no faults. -/
structure Admits : Prop where
  test : ∀ p v h, D.test p v h = test p v h ∨ ∃ e, D.test p v h = .error e
  compare : ∀ r v w h, D.compare r v w h = compare r v w h ∨ ∃ e, D.compare r v w h = .error e

end Domain

section Cuts

variable {D : Domain} {test : (Int32 → Bool) → D.Value → D.Heap → Except Fault (Bool × D.Heap)}
  {compare : (Int32 → Int32 → Bool) → D.Value → D.Value → D.Heap → Except Fault (Bool × D.Heap)}
  {α β : Type}

/-- The computation `x` on a domain does what `y` does with other comparisons, or stops in the middle of it
with a fault. -/
def Eff.Cuts (x : Eff D α) (y : Eff (D.comparing test compare) α) : Prop :=
  ∀ h : D.Heap, x h = y h ∨ ∃ tr e, x h = (tr, .error e) ∧ tr <+: (y h).1

namespace Eff.Cuts

theorem pure (a : α) :
  Cuts (pure a) (pure a : Eff (D.comparing test compare) α)
  := fun _ => .inl rfl

theorem fail (f : Fault) :
  Cuts (fail f) (fail f : Eff (D.comparing test compare) α)
  := fun _ => .inl rfl

theorem ofExcept (x : Except Fault α) :
  Cuts (ofExcept x) (ofExcept x : Eff (D.comparing test compare) α)
  := fun _ => .inl rfl

theorem act (a : Action) (args : List D.Value) :
  Cuts (act a args) (act a args : Eff (D.comparing test compare) D.Value)
  := fun _ => .inl rfl

/-- A decision that is the same or fails. -/
theorem decide {x y : D.Heap → Except Fault (Bool × D.Heap)} (same : ∀ h, x h = y h ∨ ∃ e, x h = .error e) :
  Cuts (decide x) (decide y : Eff (D.comparing test compare) Bool)
  := by
  intro h
  obtain same | ⟨e, fault⟩ := same h
  · left
    apply congrArg (Prod.mk []) same
  · right
    use [], e, congrArg (Prod.mk []) fault
    apply List.nil_prefix

/-- Computations in a row are cut where the first one is, or where the rest is. -/
theorem bind {x : Eff D α} {y : Eff (D.comparing test compare) α} {f : α → Eff D β}
    {g : α → Eff (D.comparing test compare) β} (first : x.Cuts y) (rest : ∀ a, (f a).Cuts (g a)) :
  (x >>= f).Cuts (y >>= g)
  := by
  intro h
  rw [bind_apply, bind_apply]
  rcases first h with same | ⟨tr, e, stopped, begins⟩
  · rw [← same]
    rcases hx : x h with ⟨tr, e | ⟨a, h'⟩⟩
    · left
      rfl
    · rcases rest a h' with same | ⟨tr', e, stopped, begins⟩
      · left
        simp only [same]
      · right
        refine ⟨tr ++ tr', e, by simp [stopped], ?_⟩
        apply (List.prefix_append_right_inj tr).2 begins
  · right
    refine ⟨tr, e, by rw [stopped], ?_⟩
    rcases hy : y h with ⟨tr', e' | ⟨a, h'⟩⟩
    · rwa [hy] at begins
    · rw [hy] at begins
      apply begins.trans (List.prefix_append _ _)

theorem map {x : Eff D α} {y : Eff (D.comparing test compare) α} (cuts : x.Cuts y) (f : α → β) :
  (f <$> x).Cuts (f <$> y)
  := by
  rw [← bind_pure_comp, ← bind_pure_comp]
  apply cuts.bind
  intro a
  apply Eff.Cuts.pure (f a)

end Eff.Cuts

namespace Inst

/-- What is done with the top of the stack. -/
theorem popOne_cuts {stack : List D.Value} {k : D.Value → List D.Value → Eff D α}
    {k' : D.Value → List D.Value → Eff (D.comparing test compare) α}
    (rest : ∀ v vs, (k v vs).Cuts (k' v vs)) :
  (popOne stack k).Cuts (popOne (D := D.comparing test compare) stack k')
  := by
  cases stack with
  | nil => apply Eff.Cuts.fail
  | cons v vs => apply rest v vs

theorem popTwo_cuts {stack : List D.Value} {k : D.Value → D.Value → List D.Value → Eff D α}
    {k' : D.Value → D.Value → List D.Value → Eff (D.comparing test compare) α}
    (rest : ∀ v w vs, (k v w vs).Cuts (k' v w vs)) :
  (popTwo stack k).Cuts (popTwo (D := D.comparing test compare) stack k')
  := by
  rcases stack with _ | ⟨w, _ | ⟨v, vs⟩⟩
  · apply Eff.Cuts.fail
  · apply Eff.Cuts.fail
  · apply rest v w vs

/-- Arithmetic does not depend on comparisons. -/
theorem execArith_cuts (op : Arith) (a : Activation D.Value) :
  (execArith op a).Cuts (execArith (D := D.comparing test compare) op a)
  := by
  apply popTwo_cuts
  intro v w vs
  apply Eff.Cuts.bind (.ofExcept _)
  intro r
  apply Eff.Cuts.pure

/-- Nor do actions. -/
theorem execAction_cuts (act : Action) (pops pushes : Nat) (a : Activation D.Value) :
  (execAction act pops pushes a).Cuts (execAction (D := D.comparing test compare) act pops pushes a)
  := by
  unfold execAction
  by_cases enough : pops ≤ a.stack.length
  · rw [if_pos enough, if_pos enough]
    apply Eff.Cuts.bind (.act _ _)
    intro v
    apply Eff.Cuts.pure
  · rw [if_neg enough, if_neg enough]
    apply Eff.Cuts.fail

/-- An instruction does the same unless it compares what cannot be compared. -/
theorem exec_cuts (admits : D.Admits test compare) (i : Inst) (a : Activation D.Value) :
  (i.exec a).Cuts (i.exec (D := D.comparing test compare) a)
  := by
  cases i with
  | minusOne | const | bytePush | shortPush | goto => apply Eff.Cuts.pure
  | loadConst text =>
      have same : constant D text = constant (D.comparing test compare) text := by
        unfold constant
        rfl
      simp only [exec, ← same]
      apply Eff.Cuts.bind (.ofExcept _)
      intro v
      apply Eff.Cuts.pure
  | load kind slot =>
      apply Eff.Cuts.bind (.ofExcept _)
      intro _
      apply Eff.Cuts.pure
  | store kind slot =>
      apply popOne_cuts
      intro v vs
      apply Eff.Cuts.bind (.ofExcept _)
      intro _
      apply Eff.Cuts.pure
  | add | sub | mul | div | xor => apply execArith_cuts _ a
  | neg =>
      apply popOne_cuts
      intro v vs
      apply Eff.Cuts.bind (.ofExcept _)
      intro r
      apply Eff.Cuts.pure
  | inc slot amount =>
      apply Eff.Cuts.bind (.ofExcept _)
      intro v
      apply Eff.Cuts.pure
  | jumpIf cond label =>
      apply popOne_cuts
      intro v vs
      apply Eff.Cuts.bind (.decide (admits.test _ v))
      intro taken
      apply Eff.Cuts.pure
  | jumpIfCompare cond label =>
      apply popTwo_cuts
      intro v w vs
      apply Eff.Cuts.bind (.decide (admits.compare _ v w))
      intro taken
      apply Eff.Cuts.pure
  | ret kind =>
      cases kind with
      | none => apply Eff.Cuts.pure
      | some kind =>
          apply popOne_cuts
          intro v vs
          apply Eff.Cuts.bind (.ofExcept _)
          intro _
          apply Eff.Cuts.pure
  | pop =>
      apply popOne_cuts
      intro v vs
      apply Eff.Cuts.pure
  | invoke | new | newArray | newRefArray | arrayLoad | arrayStore | arrayLength | getField | putField =>
      apply execAction_cuts _ _ _ a

end Inst

/-- So does a step of the machine. -/
theorem perform_cuts (admits : D.Admits test compare) (lines : List Line) (p : Nat)
    (a : Activation D.Value) :
  ((machine D lines).perform p a).Cuts ((machine (D.comparing test compare) lines).perform p a)
  := by
  have places : (machine D lines).follow (p + 1)
      = (machine (D.comparing test compare) lines).follow (p + 1) := by
    funext next
    cases next <;> rfl
  cases at_index : lines[p]? with
  | none =>
      simp only [Control.perform, machine, at_index, Option.map_none]
      apply Eff.Cuts.pure
  | some line =>
      rw [perform_line at_index, perform_line at_index, places]
      apply Eff.Cuts.map
      cases line with
      | label name => apply Eff.Cuts.pure
      | inst i => apply i.exec_cuts admits a

/-- The requests of a run are requests of the run with other comparisons. -/
theorem emits_comparing (admits : D.Admits test compare) {lines : List Line} {p : Nat}
    {a : Activation D.Value} {h : D.Heap} {tr : List (Request D.Value)}
    (emits : (machine D lines).automaton.Emits ⟨p, a, h⟩ tr) :
  (machine (D.comparing test compare) lines).automaton.Emits ⟨p, a, h⟩ tr
  := by
  apply Automaton.Emits.of_cut (T := (machine (D.comparing test compare) lines).automaton)
    (f := fun s => ⟨s.index, s.data, s.heap⟩) _ emits
  intro s
  simp only [Control.automaton]
  rcases perform_cuts admits lines s.index s.data s.heap with same | ⟨tr, e, stopped, begins⟩
  · rw [same]
    rcases (machine (D.comparing test compare) lines).perform s.index s.data s.heap
      with ⟨tr, e | ⟨⟨q, b⟩ | o, h'⟩⟩
    · apply List.prefix_refl tr
    · rfl
    · apply List.prefix_refl tr
  · rw [stopped]
    rcases done : (machine (D.comparing test compare) lines).perform s.index s.data s.heap
      with ⟨tr', e | ⟨⟨q, b⟩ | o, h'⟩⟩
    all_goals
      rw [done] at begins
      apply begins

end Cuts

/-! ### Worlds -/

/-- The word that a value is compared as. -/
def Datum.word {R : Type} : Datum R → Int32
  | .int w => w
  | .ref _ => 0

namespace World

variable (W : World)

/-- The comparison of any two values. -/
def compareWords (r : Int32 → Int32 → Bool) (v w : Datum W.Ref) (h : W.Heap) :
    Except Fault (Bool × W.Heap) :=
  .ok (r v.word w.word, h)

/-- The test of any value. -/
def testWord (p : Int32 → Bool) (v : Datum W.Ref) (h : W.Heap) : Except Fault (Bool × W.Heap) :=
  .ok (p v.word, h)

/-- The domain of a world in which all values can be compared. -/
abbrev lenient : Domain := W.domain.comparing W.testWord W.compareWords

/-- On words the lenient tests and comparisons are those of the world. -/
theorem admits_lenient :
  W.domain.Admits W.testWord W.compareWords
  := by
  constructor
  · intro p v h
    cases v with
    | ref r =>
        right
        use .test
        rfl
    | int x =>
        left
        rfl
  · intro r v w h
    cases v with
    | ref v =>
        right
        use .test
        rfl
    | int x =>
        cases w with
        | ref w =>
            right
            use .test
            rfl
        | int y =>
            left
            rfl

/-- Comparisons that never fail obey the laws. -/
theorem lenient_lawful :
  W.lenient.Lawful
  where
  compare_zero _ _ _ := rfl
  zero_compare _ _ _ := rfl
  add_comm := W.domain_lawful.add_comm
  check_add := W.domain_lawful.check_add
  check_sum := W.domain_lawful.check_sum

/-- A literal that writes zero compares as zero, whatever its type. -/
theorem zeroIn_lenient (e : Operand) :
  e.ZeroIn W.lenient
  := by
  intro zero
  obtain ⟨z, meaning, word⟩ : ∃ z : Datum W.Ref,
      (∀ read, e.eval (D := W.lenient) read = pure z) ∧ z.word = 0 := by
    cases e with
    | var x ty => simp [Operand.isZero] at zero
    | item x index ty => simp [Operand.isZero] at zero
    | literal value ty =>
        have written : Text.integer? 64 value = some 0 := by simpa [Operand.isZero] using zero
        simp only [Operand.eval, literalConstant, literalNumber?_of_zero written ty]
        split
        · use .ref (W.text value)
          constructor
          · intro _
            rfl
          · rfl
        · use .int 0
          constructor
          · intro _
            rfl
          · rfl
  use z, meaning
  constructor
  · intro r v
    funext h
    simp only [compareWords, testWord, word]
    rfl
  · intro r v
    funext h
    simp only [compareWords, testWord, word]
    rfl

end World

end StackBackend
