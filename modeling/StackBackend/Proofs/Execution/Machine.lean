import StackBackend.Proofs.Assembly.Lines
import StackBackend.Proofs.Execution.Control
import StackBackend.Proofs.Text.Integer

/-!
# The stack machine

A method works on an operand stack and on local slots. Most instructions move values between the two;
those on objects, arrays and methods take their operands from the stack and are left to the
surroundings. A label does nothing, and a jump goes to the first line with its label.
-/

namespace StackBackend

/-- What a method works on: its operand stack, from the top down, and its local slots. -/
structure Activation (V : Type) where
  stack : List V
  slots : Nat → V

/-- Whether two words pass the test of a conditional jump; words are signed. -/
def Cond.holds : Cond → Int32 → Int32 → Bool
  | eq, x, y => x = y
  | ne, x, y => x ≠ y
  | lt, x, y => x < y
  | ge, x, y => y ≤ x
  | gt, x, y => y < x
  | le, x, y => x ≤ y

/-- The swapped condition holds of the swapped operands. -/
theorem Cond.holds_swap (cond : Cond) (x y : Int32) :
  cond.swap.holds y x = cond.holds x y
  := by
  cases cond <;> simp [swap, holds, eq_comm]

namespace Inst

/-- The action of an instruction that is left to the surroundings, with the number of values that it
takes from the stack and leaves on it. -/
def action? : Inst → Option (Action × Nat × Nat)
  | invoke kind target pops pushes => some (.invoke kind target, pops, pushes)
  | new path => some (.new path, 0, 1)
  | newArray elem => some (.newArray elem, 1, 1)
  | newRefArray path => some (.newRefArray path, 1, 1)
  | arrayLoad kind => some (.arrayLoad kind, 2, 1)
  | arrayStore kind => some (.arrayStore kind, 3, 0)
  | arrayLength => some (.arrayLength, 1, 1)
  | getField target desc => some (.getField target desc, 1, 1)
  | putField target desc => some (.putField target desc, 2, 0)
  | _ => none

variable {D : Domain} {α : Type}

/-- Takes the top of the stack. -/
def popOne (stack : List D.Value) (k : D.Value → List D.Value → Eff D α) : Eff D α :=
  match stack with
  | v :: rest => k v rest
  | [] => .fail .stack

/-- Takes two values, the upper one last. -/
def popTwo (stack : List D.Value) (k : D.Value → D.Value → List D.Value → Eff D α) : Eff D α :=
  match stack with
  | w :: v :: rest => k v w rest
  | _ => .fail .stack

/-- The constant that a text stands for: a quoted text or a number. -/
def constant (D : Domain) (text : String) : Except Fault D.Value :=
  match text.toList with
  | '"' :: cs => .ok (D.text (String.ofList cs.dropLast))
  | _ =>
      match Text.word? text with
      | some v => .ok (D.int v)
      | none => .error (.constant text)

/-- A quoted constant is its text. -/
theorem constant_quoted (value : String) :
  constant D ("\"" ++ value ++ "\"") = .ok (D.text value)
  := by
  have chars : ("\"" ++ value ++ "\"").toList = '"' :: (value.toList ++ ['"']) := by
    simp [String.toList_append]
  simp [constant, chars]

/-- A text that can be read as a number stands for it. -/
theorem constant_of_integer? {text : String} {v : Int} (h : Text.integer? 32 text = some v) :
  constant D text = .ok (D.int v)
  := by
  unfold constant
  rw [Text.word?_eq_integer?]
  split
  · next cs quoted =>
      have unread : Text.signed? ('"' :: cs) = none := by
        simp [Text.signed?, Text.natural?]
      simp [Text.integer?, quoted, unread] at h
  · simp [h]

/-- An operation on the two integers on top of the stack. -/
def execArith (op : Arith) (a : Activation D.Value) :
    Eff D (Next (Activation D.Value) D.Value) :=
  popTwo a.stack fun v w rest => do
    let r ← Eff.ofExcept (D.arith op v w)
    return .on ⟨r :: rest, a.slots⟩

/-- An action on the values on top of the stack. -/
def execAction (act : Action) (pops pushes : Nat) (a : Activation D.Value) :
    Eff D (Next (Activation D.Value) D.Value) :=
  if pops ≤ a.stack.length then do
    let v ← Eff.act act (a.stack.take pops).reverse
    return .on ⟨List.replicate pushes v ++ a.stack.drop pops, a.slots⟩
  else .fail .stack

/-- What an instruction does. -/
def exec (i : Inst) (a : Activation D.Value) : Eff D (Next (Activation D.Value) D.Value) :=
  match i with
  | minusOne => pure (.on ⟨D.int (-1) :: a.stack, a.slots⟩)
  | const v | bytePush v | shortPush v => pure (.on ⟨D.int v :: a.stack, a.slots⟩)
  | loadConst text => do
      let v ← Eff.ofExcept (constant D text)
      return .on ⟨v :: a.stack, a.slots⟩
  | load kind slot => do
      Eff.ofExcept (D.check kind (a.slots slot))
      return .on ⟨a.slots slot :: a.stack, a.slots⟩
  | store kind slot => popOne a.stack fun v rest => do
      Eff.ofExcept (D.check kind v)
      return .on ⟨rest, Function.update a.slots slot v⟩
  | add => execArith .add a
  | sub => execArith .sub a
  | mul => execArith .mul a
  | div => execArith .div a
  | xor => execArith .xor a
  | neg => popOne a.stack fun v rest => do
      let r ← Eff.ofExcept (D.neg v)
      return .on ⟨r :: rest, a.slots⟩
  | inc slot amount => do
      let v ← Eff.ofExcept (D.arith .add (a.slots slot) (D.int amount))
      return .on ⟨a.stack, Function.update a.slots slot v⟩
  | jumpIf cond label => popOne a.stack fun v rest => do
      let taken ← Eff.decide (D.test (cond.holds · 0) v)
      return if taken then .jump label ⟨rest, a.slots⟩ else .on ⟨rest, a.slots⟩
  | jumpIfCompare cond label => popTwo a.stack fun v w rest => do
      let taken ← Eff.decide (D.compare cond.holds v w)
      return if taken then .jump label ⟨rest, a.slots⟩ else .on ⟨rest, a.slots⟩
  | goto label => pure (.jump label a)
  | ret none => pure (.ret none)
  | ret (some kind) => popOne a.stack fun v _ => do
      Eff.ofExcept (D.check kind v)
      return .ret (some v)
  | pop => popOne a.stack fun _ rest => pure (.on ⟨rest, a.slots⟩)
  | invoke .. | new _ | newArray _ | newRefArray _ | arrayLoad _ | arrayStore _ | arrayLength
  | getField .. | putField .. =>
      match i.action? with
      | some (act, pops, pushes) => execAction act pops pushes a
      | none => .fail .malformed

/-- The instruction that pushes an integer does so, whichever it is. -/
theorem exec_push {v : Int} (h : Text.Fits 32 v) (a : Activation D.Value) :
  (push v).exec a = pure (.on ⟨D.int v :: a.stack, a.slots⟩)
  := by
  unfold push
  split
  · next minusOne =>
      subst minusOne
      rfl
  · split
    · rfl
    · split
      · rfl
      · split
        · rfl
        · simp only [exec, constant_of_integer? (Text.integer?_toString h), Eff.ofExcept_ok,
            pure_bind]

/-- An instruction that is left to the surroundings does its action. -/
theorem exec_of_action {i : Inst} {act : Action} {pops pushes : Nat}
    (h : i.action? = some (act, pops, pushes)) (a : Activation D.Value) :
  i.exec a = execAction act pops pushes a
  := by
  cases i
  all_goals first
    | cases h
      rfl
    | simp [action?] at h

/-- An action finds its arguments on the stack, the last one on top. -/
theorem exec_action {i : Inst} {act : Action} {args : List D.Value} {pushes : Nat}
    (h : i.action? = some (act, args.length, pushes)) (stack : List D.Value)
    (slots : Nat → D.Value) :
  i.exec ⟨args.reverse ++ stack, slots⟩ = do
    let v ← Eff.act act args
    return .on ⟨List.replicate pushes v ++ stack, slots⟩
  := by
  have enough : args.length ≤ (args.reverse ++ stack).length := by simp
  have taken : ((args.reverse ++ stack).take args.length).reverse = args := by
    rw [List.take_left' (by simp), List.reverse_reverse]
  have left : (args.reverse ++ stack).drop args.length = stack := List.drop_left' (by simp)
  rw [exec_of_action h, execAction, if_pos enough, taken, left]

end Inst

/-- What a line does. -/
def Line.exec {D : Domain} (line : Line) (a : Activation D.Value) :
    Eff D (Next (Activation D.Value) D.Value) :=
  match line with
  | .label _ => pure (.on a)
  | .inst i => i.exec a

/-- The machine on the lines of a method. -/
def machine (D : Domain) (lines : List Line) : Control D (Activation D.Value) where
  instr index := lines[index]?.map Line.exec
  target := Line.target? lines
  atEnd := .fellOff

/-! ### Lines in place -/

/-- The lines `ls` stand at the index `p` of the lines `all`. -/
def Holds (all : List Line) (p : Nat) (ls : List Line) : Prop := ls <+: all.drop p

variable {all ls l₁ l₂ : List Line} {p : Nat}

/-- Lines in a row stand one after the other. -/
theorem Holds.append (h : Holds all p (l₁ ++ l₂)) :
  Holds all p l₁ ∧ Holds all (p + l₁.length) l₂
  := by
  obtain ⟨rest, hr⟩ := h
  constructor
  · use l₂ ++ rest
    rw [← hr, List.append_assoc]
  · use rest
    rw [← List.drop_drop, ← hr, List.append_assoc, List.drop_left]

theorem Holds.head {line : Line} (h : Holds all p (line :: ls)) :
  all[p]? = some line
  := by
  obtain ⟨rest, hr⟩ := h
  have first : (all.drop p)[0]? = some line := by
    rw [← hr]
    rfl
  simpa using first

theorem Holds.tail {line : Line} (h : Holds all p (line :: ls)) :
  Holds all (p + 1) ls
  := by
  have split : Holds all p ([line] ++ ls) := h
  apply split.append.2

/-- The lines after the first ones stand after them. -/
theorem Holds.drop (h : Holds all p ls) {k : Nat} (hk : k ≤ ls.length) :
  Holds all (p + k) (ls.drop k)
  := by
  have split : Holds all p (ls.take k ++ ls.drop k) := by rwa [List.take_append_drop]
  have second := split.append.2
  rwa [List.length_take, Nat.min_eq_left hk] at second

/-- Up to the end of lines in place there are the lines before them and they themselves. -/
theorem Holds.take (h : Holds all p ls) :
  all.take (p + ls.length) = all.take p ++ ls
  := by
  obtain ⟨rest, hr⟩ := h
  rw [List.take_add, ← hr, List.take_left]

/-! ### Single lines -/

section Machine

variable {D : Domain} {α : Type} {a : Activation D.Value}

/-- What happens at a line is what the line does. -/
theorem perform_line {line : Line} (h : all[p]? = some line) :
  (machine D all).perform p a = (machine D all).follow (p + 1) <$> line.exec a
  := by
  simp [Control.perform, machine, h]

/-- What happens at a line that computes `x` and goes on. -/
theorem perform_on {line : Line} (h : all[p]? = some line) {x : Eff D α}
    {data : α → Activation D.Value} (hx : line.exec a = x >>= fun v => pure (.on (data v))) :
  (machine D all).perform p a = x >>= fun v => pure (.inl (p + 1, data v))
  := by
  rw [perform_line h, hx, map_bind]
  simp [Control.follow]

/-- A line takes one step. -/
theorem does_line {line : Line} (h : all[p]? = some line) :
  (machine D all).Does 1 p a ((machine D all).follow (p + 1) <$> line.exec a)
  := by
  rw [← perform_line h]
  apply Control.Does.perform

/-- A line that computes `x` and goes on. -/
theorem does_on {line : Line} (h : all[p]? = some line) {x : Eff D α}
    {data : α → Activation D.Value} (hx : line.exec a = x >>= fun v => pure (.on (data v))) :
  (machine D all).Does 1 p a (x >>= fun v => pure (.inl (p + 1, data v)))
  := by
  rw [← perform_on h hx]
  apply Control.Does.perform

/-- A line that computes nothing and goes on. -/
theorem does_move {line : Line} (h : all[p]? = some line) {b : Activation D.Value}
    (hx : line.exec a = pure (.on b)) :
  (machine D all).Does 1 p a (pure (.inl (p + 1, b)))
  := by
  have does : (machine D all).Does 1 p a ((pure () : Eff D Unit) >>= fun _ => pure (.inl (p + 1, b))) :=
    does_on h (by rw [hx, pure_bind])
  rwa [pure_bind] at does

/-- The instruction that pushes an integer pushes it, if it is a word. -/
theorem does_push {v : Int} (h : all[p]? = some (.inst (.push v))) (fits : Text.Fits 32 v)
    (a : Activation D.Value) :
  (machine D all).Does 1 p a (pure (.inl (p + 1, ⟨D.int v :: a.stack, a.slots⟩)))
  := does_move h (Inst.exec_push fits a)

end Machine

end StackBackend
