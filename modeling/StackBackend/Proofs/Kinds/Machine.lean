import StackBackend.Proofs.Assembly.Paths
import StackBackend.Proofs.Kinds.Domain

/-!
# The machine on kinds

On the domain of kinds the machine takes no more than the kinds of stack and slots into account. An
instruction that finds what it takes leaves the kinds it gives; one that does not is stuck. With the right
answers for the tests the machine goes every path through its lines.
-/

namespace StackBackend

open Domain (kinds)

/-- An activation that holds such kinds. -/
def Shape.activation (s : Shape) : Activation kinds.Value := ⟨s.stack.map some, s.slots⟩

/-- A computation on kinds that does not fail for their sake. -/
def Eff.NoKindFault {α : Type} (x : Eff kinds α) (answers : List Bool) : Prop :=
  ∀ tr e, x answers = (tr, .error e) → ¬ e.OfKinds

/-- A stack that begins with given kinds. -/
theorem begins_map_some {wants stack : List Kind} :
  Begins (wants.map some) stack ↔ wants <+: stack
  := by
  induction wants generalizing stack with
  | nil => simp [Begins]
  | cons want wants ih =>
      cases stack with
      | nil => simp [Begins]
      | cons kind stack => simp [Begins, ih, List.cons_prefix_cons, eq_comm]

theorem begins_one {kind : Kind} {stack : List Kind} (begins : Begins [some kind] stack) :
  ∃ rest, stack = kind :: rest
  := by
  cases stack with
  | nil => apply begins.elim
  | cons k rest =>
      use rest
      rw [begins.1 kind rfl]

theorem begins_any {stack : List Kind} (begins : Begins [none] stack) :
  ∃ kind rest, stack = kind :: rest
  := by
  cases stack with
  | nil => apply begins.elim
  | cons k rest => use k, rest

theorem begins_two {kind kind' : Kind} {stack : List Kind}
    (begins : Begins [some kind, some kind'] stack) :
  ∃ rest, stack = kind :: kind' :: rest
  := by
  cases stack with
  | nil => apply begins.elim
  | cons k stack =>
      obtain ⟨rest, rfl⟩ := begins_one begins.2
      use rest
      rw [begins.1 kind rfl]

namespace Inst

variable {i : Inst} {s : Shape} {answers : List Bool} {act : Action} {pops pushes : Nat}

/-- A faithful instruction takes and leaves as many values as its action. -/
theorem counts_of_isFaithful (action : i.action? = some (act, pops, pushes))
    (faithful : i.IsFaithful) :
  pops = act.wants.length ∧ pushes = act.gives.toList.length
  := by
  cases i
  case invoke =>
    cases action
    apply faithful
  all_goals
    first
    | cases action
      use rfl
      rfl
    | simp [action?] at action

/-- An instruction wants what its action wants, with the last argument on top. -/
theorem wants_of_action (action : i.action? = some (act, pops, pushes)) :
  i.wants = act.wants.reverse.map some
  := by
  cases i <;> cases action <;> rfl

theorem gives_of_action (action : i.action? = some (act, pops, pushes)) :
  i.gives = act.gives.toList
  := by
  cases i <;> cases action <;> rfl

/-! ### What is found -/

/-- An action without fault has found what it wants. -/
theorem begins_of_execAction
    (sound : (execAction act act.wants.length pushes s.activation).NoKindFault answers) :
  act.wants.reverse <+: s.stack
  := by
  have enough : act.wants.length ≤ s.stack.length := by
    by_contra short
    apply sound [] .stack _ trivial
    rw [execAction, if_neg (by simpa [Shape.activation] using short)]
    rfl
  by_contra other
  have differ : ((s.stack.map some).take act.wants.length).reverse ≠ act.wants.map some := by
    intro same
    apply other
    rw [← List.map_take, ← List.map_reverse] at same
    have taken := List.map_inj_right (fun _ _ => Option.some.inj) |>.1 same
    rw [← taken, List.reverse_reverse]
    apply List.take_prefix
  apply sound [⟨act, ((s.stack.map some).take act.wants.length).reverse⟩] .kind _ trivial
  rw [execAction, if_pos (by simpa [Shape.activation] using enough), Eff.bind_apply, Eff.act]
  simp only [Shape.activation, actKinds_of_ne differ]

/-- An instruction without fault has found the top of the stack that it wants. -/
theorem begins_of_popOne {α : Type} {k : Option Kind → List (Option Kind) → Eff kinds α} {want : Option Kind}
    (sound : (popOne s.activation.stack k).NoKindFault answers)
    (fails : ∀ v rest kind, want = some kind → v ≠ some kind → k v rest answers = ([], .error .kind)) :
  Begins [want] s.stack
  := by
  obtain ⟨stack, slots⟩ := s
  rcases stack with _ | ⟨v, stack⟩
  · apply sound [] .stack rfl trivial
  · constructor
    · rintro kind ⟨⟩
      by_contra other
      apply sound [] .kind _ trivial
      apply fails (some v) _ kind rfl (by simpa using other)
    · trivial

/-- An instruction without fault has found two integers. -/
theorem begins_of_popTwo {α : Type} {k : Option Kind → Option Kind → List (Option Kind) → Eff kinds α}
    (sound : (popTwo s.activation.stack k).NoKindFault answers)
    (fails : ∀ v w rest, ¬ (v = some .int ∧ w = some .int) → k v w rest answers = ([], .error .kind)) :
  Begins [some .int, some .int] s.stack
  := by
  obtain ⟨stack, slots⟩ := s
  rcases stack with _ | ⟨w, _ | ⟨v, stack⟩⟩
  · apply sound [] .stack rfl trivial
  · apply (sound [] .stack rfl trivial).elim
  · have ints : some v = some Kind.int ∧ some w = some Kind.int := by
      by_contra other
      apply sound [] .kind (fails (some v) (some w) _ other) trivial
    simpa [Begins, and_comm] using ints

/-- What an instruction that reads no slot finds is on the stack. -/
theorem finds_of_begins (stack : Begins i.wants s.stack) (unread : i.reads? = none) :
  i.Finds s
  := by
  constructor
  · apply stack
  · intro kind slot reads
    simp [unread] at reads

/-- An instruction that is left to the surroundings finds what its action takes. -/
theorem finds_of_action (action : i.action? = some (act, pops, pushes)) (faithful : i.IsFaithful)
    (sound : (i.exec s.activation).NoKindFault answers) :
  i.Finds s
  := by
  obtain ⟨rfl, rfl⟩ := counts_of_isFaithful action faithful
  rw [exec_of_action action] at sound
  apply finds_of_begins
  · rw [wants_of_action action, begins_map_some]
    apply begins_of_execAction sound
  · cases i <;> simp [action?] at action <;> rfl

/-- An instruction that reads a slot, to load or to increment it, finds the kind there. -/
theorem finds_of_reads {kind : Kind} {slot : Nat} (reads : i.reads? = some (kind, slot))
    (sound : (i.exec s.activation).NoKindFault answers) :
  i.Finds s
  := by
  have stuck (other : s.slots slot ≠ some kind) : i.exec s.activation answers = ([], .error .kind) := by
    cases i <;> cases reads
    case load =>
      simp only [exec, Shape.activation, checkKind_of_ne other]
      rfl
    case inc =>
      simp only [exec, Shape.activation, arithKinds_of_not_ints fun ints => other ints.1]
      rfl
  constructor
  · cases i <;> cases reads <;> trivial
  · intro kind' slot' reads'
    obtain ⟨⟩ := reads.symm.trans reads'
    by_contra other
    apply sound [] .kind (stuck other) trivial

/-- An instruction on the top of the stack finds the kind it takes there. -/
theorem finds_of_wants_one {want : Option Kind} (wants : i.wants = [want]) (own : i.action? = none)
    (sound : (i.exec s.activation).NoKindFault answers) :
  i.Finds s
  := by
  apply finds_of_begins
  · rw [wants]
    cases i with
    | neg =>
        cases wants
        apply begins_of_popOne sound
        rintro v rest _ ⟨⟩ other
        simp only [arithKinds_of_not_ints fun ints => other ints.1]
        rfl
    | store kind slot =>
        cases wants
        apply begins_of_popOne sound
        rintro v rest _ ⟨⟩ other
        simp only [checkKind_of_ne other]
        rfl
    | ret kind =>
        rcases kind with _ | kind <;> cases wants
        apply begins_of_popOne sound
        rintro v rest _ ⟨⟩ other
        simp only [checkKind_of_ne other]
        rfl
    | jumpIf cond label =>
        cases wants
        apply begins_of_popOne sound
        rintro v rest _ ⟨⟩ other
        rw [Eff.bind_apply]
        simp only [Eff.decide, testKind_of_ne other]
    | pop =>
        cases wants
        apply begins_of_popOne sound
        rintro v rest _ ⟨⟩
    | invoke | new | newArray | newRefArray | arrayLoad | arrayStore | arrayLength | getField | putField =>
        cases own
    | _ => cases wants
  · cases i <;> first | rfl | cases wants

/-- An instruction on the two topmost values finds integers there. -/
theorem finds_of_wants_two (wants : i.wants = [some .int, some .int]) (own : i.action? = none)
    (sound : (i.exec s.activation).NoKindFault answers) :
  i.Finds s
  := by
  apply finds_of_begins
  · rw [wants]
    cases i with
    | add | sub | mul | div | xor =>
        apply begins_of_popTwo sound
        intro v w rest other
        simp only [arithKinds_of_not_ints other]
        rfl
    | jumpIfCompare cond label =>
        apply begins_of_popTwo sound
        intro v w rest other
        rw [Eff.bind_apply]
        simp only [Eff.decide, compareKinds_of_not_ints other]
    | ret kind => cases kind <;> cases wants
    | invoke | new | newArray | newRefArray | arrayLoad | arrayStore | arrayLength | getField | putField =>
        cases own
    | _ => cases wants
  · cases i <;> first | rfl | cases wants

/-- An instruction that is not stuck finds the kinds it takes and reads. -/
theorem finds_of_exec (faithful : i.IsFaithful)
    (sound : (i.exec s.activation).NoKindFault answers) :
  i.Finds s
  := by
  cases i with
  | minusOne | const | bytePush | shortPush | loadConst | goto => exact finds_of_begins trivial rfl
  | load | inc => apply finds_of_reads rfl sound
  | neg | store | jumpIf | pop => apply finds_of_wants_one rfl rfl sound
  | add | sub | mul | div | xor | jumpIfCompare => apply finds_of_wants_two rfl rfl sound
  | ret kind =>
      cases kind with
      | none => exact finds_of_begins trivial rfl
      | some kind => apply finds_of_wants_one rfl rfl sound
  | invoke | new | newArray | newRefArray | arrayLoad | arrayStore | arrayLength | getField | putField =>
      apply finds_of_action rfl faithful sound

/-! ### What is left -/

/-- A constant in quotes is a reference, and any other an integer. -/
theorem constant_kinds {text : String} (faithful : (loadConst text).IsFaithful) :
  constant kinds text = .ok (some (if text.toList.head? = some '"' then .ref else .int))
  := by
  unfold constant
  split
  · next cs quoted => simp [quoted]
  · next unquoted =>
      have bare : text.toList.head? ≠ some '"' := by
        intro quote
        obtain ⟨cs, quoted⟩ := List.head?_eq_some_iff.1 quote
        apply unquoted cs quoted
      obtain quote | number := faithful
      · apply (bare quote).elim
      · obtain ⟨v, read⟩ := Option.isSome_iff_exists.1 number
        rw [Text.word?_eq_integer?, read]
        simp [bare]

/-- An action that finds what it wants leaves what it gives. -/
theorem execAction_of_begins (found : act.wants.reverse <+: s.stack)
    (action : i.action? = some (act, act.wants.length, act.gives.toList.length)) :
  i.exec s.activation answers
    = ([⟨act, act.wants.map some⟩], .ok (.on (i.shape s).activation, answers))
  := by
  obtain ⟨rest, split⟩ := found
  have stack : s.stack.map some = (act.wants.map some).reverse ++ rest.map some := by
    rw [← split, List.map_append, List.map_reverse]
  have pushed : List.replicate act.gives.toList.length act.gives = act.gives.toList.map some := by
    cases act.gives <;> rfl
  have unwritten : i.writes? = none := by
    cases i <;> simp [action?] at action <;> rfl
  have after : (i.shape s).activation
      = ⟨List.replicate act.gives.toList.length act.gives ++ rest.map some, s.slots⟩ := by
    have dropped : s.stack.drop act.wants.length = rest := by
      rw [← split, List.drop_left' (by simp)]
    simp [Shape.activation, shape, wants_of_action action, gives_of_action action, unwritten, dropped,
      pushed]
  have counted : i.action? = some (act, (act.wants.map some).length, act.gives.toList.length) := by
    simpa using action
  have acted := exec_action (D := kinds) counted (rest.map some) s.slots
  rw [Shape.activation, stack, acted, after, Eff.bind_apply]
  simp only [Eff.act, actKinds_wants]
  rfl

/-- An instruction that finds what it takes goes on with the kinds it leaves, when a test is answered in
that way. -/
theorem exec_goes (faithful : i.IsFaithful) (finds : i.Finds s) (goes : i.isTerminator = false) :
  ∃ before, ∀ after, ∃ tr,
    i.exec s.activation (before ++ after) = (tr, .ok (.on (i.shape s).activation, after))
  := by
  cases action : i.action? with
  | some a =>
      obtain ⟨act, pops, pushes⟩ := a
      obtain ⟨rfl, rfl⟩ := counts_of_isFaithful action faithful
      have found := finds.stack
      rw [wants_of_action action, begins_map_some] at found
      exact ⟨[], fun after => ⟨_, execAction_of_begins found action⟩⟩
  | none =>
      obtain ⟨stack, slots⟩ := s
      have found := finds.stack
      cases i with
      | minusOne | const | bytePush | shortPush =>
          use []
          intro after
          use []
          rfl
      | loadConst text =>
          use []
          intro after
          use []
          simp only [exec, constant_kinds faithful]
          rfl
      | load kind slot =>
          use []
          intro after
          use []
          have held : slots slot = some kind := finds.slot kind slot rfl
          simp only [exec, Shape.activation, held, checkKind_self]
          rfl
      | inc slot amount =>
          use []
          intro after
          use []
          have held : slots slot = some .int := finds.slot .int slot rfl
          simp only [exec, Shape.activation, held]
          rfl
      | add | sub | mul | div | xor =>
          obtain ⟨rest, rfl⟩ := begins_two found
          use []
          intro after
          use []
          rfl
      | neg =>
          obtain ⟨rest, rfl⟩ := begins_one found
          use []
          intro after
          use []
          rfl
      | store kind slot =>
          obtain ⟨rest, rfl⟩ := begins_one found
          use []
          intro after
          use []
          simp only [exec, Shape.activation, popOne, List.map_cons, checkKind_self]
          rfl
      | jumpIf cond label =>
          obtain ⟨rest, rfl⟩ := begins_one found
          use [false]
          intro after
          use []
          rfl
      | jumpIfCompare cond label =>
          obtain ⟨rest, rfl⟩ := begins_two found
          use [false]
          intro after
          use []
          rfl
      | pop =>
          obtain ⟨kind, rest, rfl⟩ := begins_any found
          use []
          intro after
          use []
          rfl
      | goto | ret => simp [isTerminator] at goes
      | invoke | new | newArray | newRefArray | arrayLoad | arrayStore | arrayLength | getField
      | putField => simp [action?] at action

/-- A jump that finds what it takes goes to its label, when a test is answered in that way. -/
theorem exec_jumps {label : String} (finds : i.Finds s) (jumps : i.jumpLabel? = some label) :
  ∃ before, ∀ after, i.exec s.activation (before ++ after)
    = ([], .ok (.jump label (i.shape s).activation, after))
  := by
  obtain ⟨stack, slots⟩ := s
  have found := finds.stack
  cases i <;> cases jumps
  case jumpIf cond =>
    obtain ⟨rest, rfl⟩ := begins_one found
    use [true]
    intro after
    rfl
  case jumpIfCompare cond =>
    obtain ⟨rest, rfl⟩ := begins_two found
    use [true]
    intro after
    rfl
  case goto =>
      use []
      intro after
      rfl

end Inst

/-! ### Paths -/

section Lines

variable {D : Domain} {lines : List Line} {p : Nat} {line : Line} {a : Activation D.Value}
  {h h' : D.Heap} {tr : List (Request D.Value)}

/-- A line that does not fail, as a step of the machine. -/
theorem machine_step (here : lines[p]? = some line) {next : Next (Activation D.Value) D.Value}
    (done : line.exec a h = (tr, .ok (next, h'))) :
  (machine D lines).automaton.step ⟨p, a, h⟩
    = Control.settle (tr, .ok ((machine D lines).follow (p + 1) next, h'))
  := by
  change Control.settle ((machine D lines).perform p a h) = _
  rw [perform_line here, ← bind_pure_comp, Eff.bind_apply, done]
  simp

/-- A line that fails, as a step of the machine. -/
theorem machine_step_fault (here : lines[p]? = some line) {e : Fault}
    (failed : line.exec a h = (tr, .error e)) :
  (machine D lines).automaton.step ⟨p, a, h⟩ = (tr, .inr (.fault e))
  := by
  change Control.settle ((machine D lines).perform p a h) = _
  rw [perform_line here, ← bind_pure_comp, Eff.bind_apply, failed]
  rfl

end Lines

section Paths

variable {lines : List Line} {init s : Shape} {p : Nat}

/-- The machine on these lines, started with values of such kinds, has no fault for their sake. -/
def KindSafe (lines : List Line) (init : Shape) : Prop :=
  ∀ answers tr e, (machine kinds lines).automaton.Halts ⟨0, init.activation, answers⟩ tr (.fault e) →
    ¬ e.OfKinds

/-- The machine gets to a place with such kinds, whatever answers are left then. -/
def Gets (lines : List Line) (init : Shape) (p : Nat) (s : Shape) : Prop :=
  ∃ before, ∀ after, ∃ n tr, (machine kinds lines).automaton.Reaches n
    ⟨0, init.activation, before ++ after⟩ tr ⟨p, s.activation, after⟩

/-- A path goes on by a step that some answers make possible. -/
theorem Gets.step {q : Nat} {t : Shape} (gets : Gets lines init p s)
    (step : ∃ before, ∀ after, ∃ tr, (machine kinds lines).automaton.step
      ⟨p, s.activation, before ++ after⟩ = (tr, .inl ⟨q, t.activation, after⟩)) :
  Gets lines init q t
  := by
  obtain ⟨before, gets⟩ := gets
  obtain ⟨more, step⟩ := step
  use before ++ more
  intro after
  obtain ⟨n, tr, reached⟩ := gets (more ++ after)
  obtain ⟨tr', stepped⟩ := step after
  rw [List.append_assoc]
  use n + 1, tr ++ tr', reached.trans (.of_step stepped)

/-- An instruction that the machine gets to finds what it takes and reads. -/
theorem Gets.finds (safe : KindSafe lines init) (gets : Gets lines init p s) {i : Inst}
    (here : lines[p]? = some (.inst i)) (faithful : i.IsFaithful) :
  i.Finds s
  := by
  obtain ⟨before, gets⟩ := gets
  obtain ⟨n, tr, reached⟩ := gets []
  have sound : (i.exec s.activation).NoKindFault [] := by
    intro tr' e failed
    have halts : (machine kinds lines).automaton.Halts ⟨p, s.activation, []⟩ tr' (.fault e) :=
      .of_step (machine_step_fault here failed)
    apply safe _ _ e (reached.halts halts)
  apply Inst.finds_of_exec faithful sound

/-- With the right answers the machine goes every path. -/
theorem Path.gets (labels : (Line.labelNames lines).Nodup)
    (faithful : ∀ i, .inst i ∈ lines → i.IsFaithful) (safe : KindSafe lines init)
    (path : Path lines Inst.shape init p s) :
  Gets lines init p s
  := by
  induction path with
  | start =>
      use []
      intro after
      use 0, []
      apply Automaton.Reaches.refl
  | label before here ih =>
      apply ih.step
      use []
      intro after
      use [], machine_step here rfl
  | @next p s i before here goes ih =>
      have sound := faithful i (List.mem_of_getElem? here)
      obtain ⟨answers, done⟩ := Inst.exec_goes sound (ih.finds safe here sound) goes
      apply ih.step
      use answers
      intro after
      obtain ⟨tr, done⟩ := done after
      use tr, machine_step here done
  | @jump p q s i label before here jumps there ih =>
      have sound := faithful i (List.mem_of_getElem? here)
      obtain ⟨answers, done⟩ := Inst.exec_jumps (ih.finds safe here sound) jumps
      apply ih.step
      use answers
      intro after
      use []
      have target : (machine kinds lines).target label = some q := Line.target?_of_nodup labels there
      rw [machine_step here (done after)]
      simp only [Control.follow, target]
      rfl

end Paths

end StackBackend
