import StackBackend.Proofs.Lowering.Operators
import StackBackend.Proofs.Lowering.Script

/-!
# The code of an instruction

Wherever the lines of an instruction stand in the code of a method, the machine that gets to the
first of them does what the instruction says, and gets to the line after them or to where the
instruction jumps.
-/

namespace StackBackend

variable {D : Domain} {site : Site} {s t : LabelSupply} {r : Unit} {all ls : List Line} {p q : Nat}

/-! ### Calls and objects -/

theorem callOwner?_of_not_static {u : ClassUnit} {kind : CallKind} (h : kind ≠ .static)
    (receiver : Operand) (method : String) :
  callOwner? u kind receiver method =
    some (if kind = .special ∧ receiver.name? = some "this" ∧ method = "<init>" then u.superPath
      else u.classPath receiver.ty)
  := by
  cases kind with
  | static => apply absurd rfl h
  | virtual => simp [callOwner?]
  | special =>
      simp only [callOwner?]
      split <;> rfl

/-- The receiver of a call is loaded before the arguments, and the class is the one that the call
names. -/
theorem owner_writes {kind : CallKind} {receiver : Operand} {method owner : String}
    (w : (site.owner kind receiver method).Writes s ls owner t) {args : List Operand}
    {l₂ : List Line} {t₂ : LabelSupply} (w₂ : (site.loadAll args).Writes t l₂ () t₂) :
  callOwner? site.unit kind receiver method = some owner
    ∧ (site.loadAll (callOperands kind receiver args)).Writes s (ls ++ l₂) () t₂
  := by
  unfold Site.owner at w
  split at w
  · next name ty =>
      obtain ⟨rfl, rfl, rfl⟩ := w.of_pure
      use rfl, w₂
  · apply w.of_fail.elim
  · next dynamic =>
      have notStatic : kind ≠ .static := by
        rintro rfl
        cases receiver <;> simp_all
      have operands : callOperands kind receiver args = receiver :: args := if_neg notStatic
      obtain ⟨l₁, _, t₁, l₃, w₁, w₃, rfl⟩ := w.of_bind
      rw [callOwner?_of_not_static notStatic, operands]
      split at w₃
      all_goals
        obtain ⟨rfl, rfl, rfl⟩ := w₃.of_pure
        constructor
        · simp_all
        · rw [List.append_nil]
          apply w₁.bind w₂

/-- The code of a call makes the call on the values of its operands. -/
theorem does_call {kind : CallKind} {receiver : Operand} {method : String} {args : List Operand}
    {result : Ty} {b : Bool} (w : (site.call kind receiver method args result).Writes s ls b t)
    (h : Holds all p ls) (hq : q = p + ls.length) (a : Activation D.Value) :
  ∃ x : Eff D D.Value,
    evalCall site.unit (fetch site.method.slotOf a.slots) kind receiver method args result
      = (fun v => if b then some v else none) <$> x
    ∧ (machine D all).Does 1 p a (do
      let v ← x
      pure (.inl (q, ⟨(if b then [v] else []) ++ a.stack, a.slots⟩)))
  := by
  obtain ⟨l₁, owner, t₁, l₂, w₁, w₂, rfl⟩ := w.of_bind
  obtain ⟨l₃, _, t₃, l₄, w₃, w₄, rfl⟩ := w₂.of_bind
  obtain ⟨l₅, _, t₅, l₆, w₅, w₆, rfl⟩ := w₄.of_bind
  obtain ⟨rfl, rfl⟩ := w₅.of_inst
  obtain ⟨rfl, rfl, rfl⟩ := w₆.of_pure
  obtain ⟨named, loads⟩ := owner_writes w₁ w₃
  rw [← List.append_assoc] at h hq
  obtain ⟨h₁, h₂⟩ := h.append
  obtain rfl : q = p + (l₁ ++ l₃).length + 1 := by
    simp at hq ⊢
    omega
  have operands := does_operands loads h₁ rfl a
  have counted (vs : List D.Value)
      (given : (Operand.evalAll (fetch site.method.slotOf a.slots)
        (callOperands kind receiver args)).Gives vs) :
      args.length + (if kind = .static then 0 else 1) = vs.length := by
    rw [Operand.length_evalAll given, callOperands]
    split <;> rfl
  have whole := operands.bind_of_gives fun vs given =>
    does_action h₂.head (by rw [← counted vs given]; rfl) a.stack a.slots
  refine ⟨do
    let vs ← Operand.evalAll (fetch site.method.slotOf a.slots) (callOperands kind receiver args)
    Eff.act (.invoke kind (callTarget site.unit owner method args result)) vs, ?_, ?_⟩
  · simp only [evalCall, named, map_bind, bind_pure_comp]
    cases result.isVoid <;> rfl
  · have left (v : D.Value) :
        List.replicate (if result.isVoid then 0 else 1) v = if !result.isVoid then [v] else [] := by
      cases result.isVoid <;> rfl
    simp only [left] at whole
    simp only [bind_assoc]
    apply whole

/-- The code of an allocation pushes the new array or object. -/
theorem does_new {ty : Ty} {args : List Operand} (w : (site.new ty args).Writes s ls r t)
    (h : Holds all p ls) (hq : q = p + ls.length) (a : Activation D.Value) :
  (machine D all).Does 1 p a (do
    let v ← evalNew site.unit (fetch site.method.slotOf a.slots) ty args
    pure (.inl (q, ⟨v :: a.stack, a.slots⟩)))
  := by
  unfold Site.new at w
  split at w
  · next elem length =>
      obtain ⟨l₁, _, t₁, l₂, w₁, w₂, rfl⟩ := w.of_bind
      obtain ⟨i, rfl, action⟩ : ∃ i, l₂ = [.inst i]
          ∧ i.action? = some (arrayAction site.unit elem, 1, 1) := by
        split at w₂ <;> exact ⟨_, w₂.of_inst.1, by simp_all [arrayAction, Inst.action?]⟩
      obtain ⟨h₁, h₂⟩ := h.append
      obtain rfl : q = p + l₁.length + 1 := by
        simp at hq
        omega
      have operand := does_operand w₁ h₁ rfl a
      have allocation := fun v : D.Value =>
        does_action h₂.head (show _ = some (_, [v].length, 1) from action) a.stack a.slots
      simp only [evalNew, bind_assoc]
      apply (operand.bind allocation).mono (by omega)
  · apply w.of_fail.elim
  · next notArray =>
      obtain ⟨rfl, -⟩ := w.of_inst
      obtain rfl : q = p + 1 := hq
      have allocation : (machine D all).Does 1 p a _ :=
        does_action h.head (show _ = some (_, ([] : List D.Value).length, 1) from rfl) a.stack a.slots
      have meaning : evalNew site.unit (fetch site.method.slotOf a.slots) ty []
          = Eff.act (D := D) (.new (site.unit.classPath ty)) [] := by
        cases ty <;> simp_all [evalNew]
      rw [meaning]
      apply allocation
  · apply w.of_fail.elim

/-- An action on one operand that gives a value. -/
theorem does_actionOn {e : Operand} {i : Inst} {act : Action}
    (hi : i.action? = some (act, 1, 1)) {b : Bool}
    (w : (do site.load e; Emit.inst i; return true).Writes s ls b t) (h : Holds all p ls)
    (hq : q = p + ls.length) (a : Activation D.Value) :
  b = true ∧ (machine D all).Does 1 p a (do
    let v ← (do
      let o ← e.eval (fetch site.method.slotOf a.slots)
      Eff.act act [o])
    pure (.inl (q, ⟨v :: a.stack, a.slots⟩)))
  := by
  obtain ⟨l₁, _, t₁, l₂, w₁, w₂, rfl⟩ := w.of_bind
  obtain ⟨l₃, _, t₃, l₄, w₃, w₄, rfl⟩ := w₂.of_bind
  obtain ⟨rfl, rfl⟩ := w₃.of_inst
  obtain ⟨rfl, rfl, rfl⟩ := w₄.of_pure
  obtain ⟨h₁, h₂⟩ := h.append
  obtain rfl : q = p + l₁.length + 1 := by
    simp at hq
    omega
  have operand := does_operand w₁ h₁ rfl a
  have action := fun v : D.Value =>
    does_action h₂.head (show _ = some (_, [v].length, 1) from hi) a.stack a.slots
  use rfl
  simp only [bind_assoc]
  apply (operand.bind action).mono (by omega)

/-! ### Expressions -/

/-- The operands of the comparison that an instruction makes. -/
def Instr.comparands : Instr → List Operand
  | .assign _ _ rhs => rhs.comparands
  | .binary op lhs rhs _ => if op.isRelational then [lhs, rhs] else []
  | .branch (.compare op lhs rhs) _ => if op.isRelational then [lhs, rhs] else []
  | _ => []

/-- The code of an expression computes it and pushes its value if it has one. -/
theorem does_expr (nodup : (Line.labelNames all).Nodup) {i : Instr} {b : Bool}
    (w : (site.expr i).Writes s ls b t) (h : Holds all p ls) (hq : q = p + ls.length)
    (zeros : ∀ e ∈ i.comparands, e.ZeroIn D) (a : Activation D.Value) :
  ∃ x : Eff D D.Value,
    i.eval site.unit (fetch site.method.slotOf a.slots)
      = (fun v => if b then some v else none) <$> x
    ∧ (machine D all).Does 1 p a (do
      let v ← x
      pure (.inl (q, ⟨(if b then [v] else []) ++ a.stack, a.slots⟩)))
  := by
  cases i with
  | single e =>
      obtain ⟨l₁, _, t₁, l₂, w₁, w₂, rfl⟩ := w.of_bind
      obtain ⟨rfl, rfl, rfl⟩ := w₂.of_pure
      rw [List.append_nil] at h hq
      exact ⟨_, rfl, does_operand w₁ h hq a⟩
  | binary op lhs rhs ty =>
      obtain ⟨l₁, _, t₁, l₂, w₁, w₂, rfl⟩ := w.of_bind
      obtain ⟨rfl, rfl, rfl⟩ := w₂.of_pure
      rw [List.append_nil] at h hq
      refine ⟨_, rfl, does_binary nodup w₁ h hq ?_ a⟩
      intro relational
      simpa [Instr.comparands, relational] using zeros
  | unary op e ty =>
      obtain ⟨l₁, _, t₁, l₂, w₁, w₂, rfl⟩ := w.of_bind
      obtain ⟨rfl, rfl, rfl⟩ := w₂.of_pure
      rw [List.append_nil] at h hq
      exact ⟨_, rfl, does_unary w₁ h hq a⟩
  | call kind receiver method args result => apply does_call w h hq a
  | new ty args =>
      obtain ⟨l₁, _, t₁, l₂, w₁, w₂, rfl⟩ := w.of_bind
      obtain ⟨rfl, rfl, rfl⟩ := w₂.of_pure
      rw [List.append_nil] at h hq
      exact ⟨_, rfl, does_new w₁ h hq a⟩
  | getField object field fieldTy =>
      obtain ⟨rfl, does⟩ := does_actionOn rfl w h hq a
      refine ⟨_, ?_, does⟩
      simp only [Instr.eval, map_bind]
      rfl
  | arrayLength e =>
      obtain ⟨rfl, does⟩ := does_actionOn rfl w h hq a
      refine ⟨_, ?_, does⟩
      simp only [Instr.eval, map_bind]
      rfl
  | assign dest ty rhs => apply w.of_fail.elim
  | ret ty value => apply w.of_fail.elim
  | putField object field fieldTy value => apply w.of_fail.elim
  | goto label => apply w.of_fail.elim
  | branch cond label => apply w.of_fail.elim

/-- The code of an expression that has to have a value pushes it. -/
theorem does_value (nodup : (Line.labelNames all).Nodup) {i : Instr}
    (w : (site.value i).Writes s ls r t) (h : Holds all p ls) (hq : q = p + ls.length)
    (zeros : ∀ e ∈ i.comparands, e.ZeroIn D) (a : Activation D.Value) :
  (machine D all).Does 1 p a (do
    let v ← i.evalValue site.unit (fetch site.method.slotOf a.slots)
    pure (.inl (q, ⟨v :: a.stack, a.slots⟩)))
  := by
  obtain ⟨l₁, b, t₁, l₂, w₁, w₂, rfl⟩ := w.of_bind
  cases b with
  | false => apply w₂.of_fail.elim
  | true =>
      obtain ⟨rfl, -, -⟩ := w₂.of_pure
      rw [List.append_nil] at h hq
      obtain ⟨x, meaning, does⟩ := does_expr nodup w₁ h hq zeros a
      have value : i.evalValue site.unit (fetch site.method.slotOf a.slots) = x := by
        simp [Instr.evalValue, meaning]
      rw [value]
      apply does

/-! ### Assignments -/

/-- The operands of the sum that an instruction assigns. -/
def Instr.addends : Instr → List Operand
  | .assign _ _ (.binary .add lhs rhs _) => [lhs, rhs]
  | _ => []

theorem literalConstant_int {value : String} {v : Int} (h : Text.integer? 32 value = some v) :
  literalConstant D value .int = .ok (D.int v)
  := by
  simp [literalConstant, literalNumber?, Text.word?_eq_integer?, h]

/-- The value of a sum with a literal in which the variable is read as an integer. -/
theorem evalValue_sum (lawful : D.Lawful) {rhs : Instr} {read : String → Except Fault D.Value}
    {x value : String} {ty ty' : Ty} {v : Int} {c : D.Value} (hx : read x = .ok c)
    (hv : Text.integer? 32 value = some v) (int : D.check (.ofTy ty) = D.check .int)
    (hr : rhs = .binary .add (.var x ty) (.literal value .int) ty'
      ∨ rhs = .binary .add (.literal value .int) (.var x ty) ty') (u : ClassUnit) :
  rhs.evalValue u read = Eff.ofExcept (D.arith .add c (D.int v))
  := by
  rcases hr with rfl | rfl
  · have meaning : (Instr.binary .add (.var x ty) (.literal value .int) ty').evalValue u read
        = Eff.ofExcept (D.check .int c) >>= fun _ => Eff.ofExcept (D.arith .add c (D.int v)) := by
      simp [Instr.evalValue, Instr.eval, evalBinary, evalArith, Operand.eval, fetchAs, hx,
        literalConstant_int hv, int]
    rw [meaning, ← Eff.ofExcept_bind, lawful.check_add]
  · have meaning : (Instr.binary .add (.literal value .int) (.var x ty) ty').evalValue u read
        = Eff.ofExcept (D.check .int c) >>= fun _ => Eff.ofExcept (D.arith .add (D.int v) c) := by
      simp [Instr.evalValue, Instr.eval, evalBinary, evalArith, Operand.eval, fetchAs, hx,
        literalConstant_int hv, int]
    rw [meaning, lawful.add_comm, ← Eff.ofExcept_bind, lawful.check_add]

/-- What an increment in place assigns. -/
theorem execAssign_increment (lawful : D.Lawful) {α : Type} [DecidableEq α]
    {address : String → Option α} {dest : Operand} {ty : Ty} {rhs : Instr} {x : String} {v : Int}
    {c : α} (h : Site.increment? dest rhs = some (x, v)) (hc : address x = some c)
    (ints : ∀ e ∈ (Instr.assign dest ty rhs).addends, D.check (.ofTy e.ty) = D.check .int)
    (u : ClassUnit) (cells : α → D.Value) :
  execAssign u address dest rhs cells
    = (fun w => Function.update cells c w) <$> Eff.ofExcept (D.arith .add (cells c) (D.int v))
  := by
  obtain ⟨rfl, value, ty₁, ty₂, written, sum⟩ := increment?_eq_some h
  have int : D.check (.ofTy ty₁) = D.check .int := by
    apply ints (.var x ty₁)
    rcases sum with rfl | rfl <;> simp [Instr.addends]
  simp only [execAssign, evalValue_sum lawful (fetch_of_address hc cells) written int sum]
  cases hs : D.arith .add (cells c) (D.int v) with
  | error e => rfl
  | ok w =>
      have asInt : D.check (.ofTy .int) w = .ok () := lawful.check_sum _ _ _ hs
      simp [asInt, writeVar, hc]

/-- The code of an assignment assigns. -/
theorem does_assign (lawful : D.Lawful) (nodup : (Line.labelNames all).Nodup) {dest : Operand}
    {ty : Ty} {rhs : Instr} (w : (site.assign dest rhs).Writes s ls r t) (h : Holds all p ls)
    (hq : q = p + ls.length) (zeros : ∀ e ∈ rhs.comparands, e.ZeroIn D)
    (sums : ∀ e ∈ (Instr.assign dest ty rhs).addends, D.check (.ofTy e.ty) = D.check .int)
    (slots : Nat → D.Value) :
  (machine D all).Does 1 p ⟨[], slots⟩ (do
    let cells ← execAssign site.unit site.method.slotOf dest rhs slots
    pure (.inl (q, ⟨[], cells⟩)))
  := by
  unfold Site.assign at w
  split at w
  · next x v fused =>
      obtain ⟨l₁, slot, t₁, l₂, w₁, w₂, rfl⟩ := w.of_bind
      obtain ⟨rfl, rfl, hs⟩ := Site.slot_writes w₁
      obtain ⟨rfl, -⟩ := w₂.of_inst
      obtain rfl : q = p + 1 := hq
      simp only [execAssign_increment lawful fused hs sums, bind_map_left]
      apply does_on h.head rfl
  · unfold Site.store at w
    split at w
    · next x ty' =>
        obtain ⟨l₁, _, t₁, l₂, w₁, w₂, rfl⟩ := w.of_bind
        obtain ⟨l₃, slot, t₃, l₄, w₃, w₄, rfl⟩ := w₂.of_bind
        obtain ⟨rfl, rfl, hs⟩ := Site.slot_writes w₃
        obtain ⟨rfl, -⟩ := w₄.of_inst
        obtain ⟨h₁, h₂⟩ := h.append
        obtain rfl : q = p + l₁.length + 1 := by
          simp at hq
          omega
        have value := does_value nodup w₁ h₁ rfl zeros ⟨[], slots⟩
        have store := fun v : D.Value => does_on (a := ⟨[v], slots⟩) h₂.head rfl
        have whole := value.bind store
        simp only [execAssign, writeVar, hs, bind_assoc, Eff.ofExcept_ok, pure_bind]
        apply whole.mono (by omega)
    · next x index ty' =>
        obtain ⟨l₁, slot, t₁, l₂, w₁, w₂, rfl⟩ := w.of_bind
        obtain ⟨rfl, rfl, hs⟩ := Site.slot_writes w₁
        obtain ⟨l₃, _, t₃, l₄, w₃, w₄, rfl⟩ := w₂.of_bind
        obtain ⟨rfl, rfl⟩ := w₃.of_inst
        obtain ⟨l₅, _, t₅, l₆, w₅, w₆, rfl⟩ := w₄.of_bind
        obtain ⟨l₇, _, t₇, l₈, w₇, w₈, rfl⟩ := w₆.of_bind
        obtain ⟨rfl, -⟩ := w₈.of_inst
        have rest : Holds all (p + 1) (l₅ ++ (l₇ ++ _)) := h.tail
        obtain ⟨h₅, h₆⟩ := rest.append
        obtain ⟨h₇, h₈⟩ := h₆.append
        obtain rfl : q = p + 1 + l₅.length + l₇.length + 1 := by
          simp at hq
          omega
        have array := does_load hs h.head ⟨[], slots⟩
        have position := fun v => does_operand w₅ h₅ rfl ⟨[v], slots⟩
        have value := fun v i => does_value nodup w₇ h₇ rfl zeros ⟨[i, v], slots⟩
        have store := fun v i w : D.Value =>
          does_action h₈.head (show _ = some (_, [v, i, w].length, 0) from rfl) [] slots
        have whole := array.bind fun v => (position v).bind fun i => (value v i).bind fun w =>
          store v i w
        simp only [execAssign, bind_assoc, pure_bind]
        apply whole.mono (by omega)
    · apply w.of_fail.elim

/-! ### Branches -/

/-- The code of a branch on two operands jumps if neither is zero; the second is tested only when the first is
not. A jump that is not taken gets to the label `skip`, and over it. -/
theorem does_both (nodup : (Line.labelNames all).Nodup) {lhs rhs : Operand} {label : String}
    {there : Nat} (w : (site.branch (.compare .and lhs rhs) label).Writes s ls r t)
    (h : Holds all p ls) (hq : q = p + ls.length) (ht : Line.target? all label = some there)
    (a : Activation D.Value) :
  (machine D all).Does 1 p a (do
    let taken ← (Condition.compare .and lhs rhs).eval (fetch site.method.slotOf a.slots)
    pure (.inl (if taken then there else q, a)))
  := by
  obtain ⟨l₁, skip, t₁, l₂, w₁, w₂, rfl⟩ := w.of_bind
  obtain ⟨rfl, -⟩ := w₁.of_fresh
  obtain ⟨l₃, _, t₃, l₄, w₃, w₄, rfl⟩ := w₂.of_bind
  obtain ⟨l₅, _, t₅, l₆, w₅, w₆, rfl⟩ := w₄.of_bind
  obtain ⟨rfl, rfl⟩ := w₅.of_inst
  obtain ⟨l₇, _, t₇, l₈, w₇, w₈, rfl⟩ := w₆.of_bind
  obtain ⟨l₉, _, t₉, l₁₀, w₉, w₁₀, rfl⟩ := w₈.of_bind
  obtain ⟨rfl, rfl⟩ := w₉.of_inst
  obtain ⟨rfl, rfl⟩ := w₁₀.of_label
  have held : Holds all p (l₃ ++ (.inst (.jumpIf .eq skip) :: (l₇
      ++ [.inst (.jumpIf .ne label), .label skip]))) := h
  obtain ⟨h₃, h₄⟩ := held.append
  obtain ⟨h₅, h₆⟩ := h₄.tail.append
  obtain rfl : q = p + l₃.length + 1 + l₇.length + 1 + 1 := by
    simp at hq
    omega
  have hskip := Line.target?_of_nodup nodup h₆.tail.head
  have out : (machine D all).Does 1 (p + l₃.length + 1 + l₇.length + 1) a
      (pure (.inl (p + l₃.length + 1 + l₇.length + 1 + 1, a))) := does_move h₆.tail.head rfl
  have left := does_operand w₃ h₃ rfl a
  have first := fun v => does_jumpIf h₄.head hskip v a.stack a.slots
  have right := does_operand w₇ h₅ rfl a
  have second := fun v => does_jumpIf h₆.head ht v a.stack a.slots
  have landed : ∀ taken : Bool,
      (machine D all).Does 0 (if taken then there else p + l₃.length + 1 + l₇.length + 1) a
        (pure (.inl (if taken then there else p + l₃.length + 1 + l₇.length + 1 + 1, a))) := by
    intro taken
    cases taken with
    | true => apply Control.Does.stay
    | false => apply out.mono (by omega)
  have after : ∀ taken : Bool,
      (machine D all).Does 0
        (if taken then p + l₃.length + 1 + l₇.length + 1 else p + l₃.length + 1) a
        ((if taken then pure false else
            rhs.eval (fetch site.method.slotOf a.slots) >>= fun v => Eff.decide (D.test isTrue v))
          >>= fun held => pure (.inl
            (if held then there else p + l₃.length + 1 + l₇.length + 1 + 1, a))) := by
    intro taken
    cases taken with
    | true => apply out.mono (by omega)
    | false =>
        have whole := right.bind fun v => (second v).bind landed
        simp only [Bool.false_eq_true, if_false, bind_assoc]
        apply whole.mono (by omega)
  have whole := left.bind fun v => (first v).bind after
  simp only [Condition.eval, bind_assoc]
  apply whole.mono (by omega)

/-- The code of a branch jumps if its condition holds. -/
theorem does_branch (nodup : (Line.labelNames all).Nodup) {cond : Condition}
    {label : String} {there : Nat} (w : (site.branch cond label).Writes s ls r t)
    (h : Holds all p ls) (hq : q = p + ls.length) (ht : Line.target? all label = some there)
    (zeros : ∀ e ∈ (Instr.branch cond label).comparands, e.ZeroIn D)
    (a : Activation D.Value) :
  (machine D all).Does 1 p a (do
    let taken ← cond.eval (fetch site.method.slotOf a.slots)
    pure (.inl (if taken then there else q, a)))
  := by
  unfold Site.branch at w
  split at w
  · next lhs rhs => apply does_both nodup w h hq ht a
  · next lhs rhs => apply does_either w h hq ht a
  · next op lhs rhs notAnd notOr =>
      cases op with
      | and => apply absurd rfl notAnd
      | or => apply absurd rfl notOr
      | add | sub | mul | div => apply w.of_fail.elim
      | lt | gt | le | ge | eq | ne =>
          apply does_compare w h hq ht  (by simpa [Instr.comparands, BinaryOp.isRelational] using zeros) a
  · next e =>
      simp only [Condition.eval, bind_assoc]
      apply does_test w h hq ht a
  · next e =>
      simp only [Condition.eval, bind_assoc]
      apply does_test w h hq ht a

/-! ### Instructions -/

/-- The code of a return returns. -/
theorem does_ret {ty : Ty} {value : Option Operand} (w : (site.ret ty value).Writes s ls r t)
    (h : Holds all p ls) (slots : Nat → D.Value) :
  (machine D all).Does 1 p ⟨[], slots⟩ (do
    let next ← execRet site.method.slotOf ty value slots
    pure ((machine D all).follow q (next.map (Activation.mk []))))
  := by
  unfold Site.ret at w
  split at w
  · next e =>
      obtain ⟨l₁, _, t₁, l₂, w₁, w₂, rfl⟩ := w.of_bind
      obtain ⟨rfl, -⟩ := w₂.of_inst
      obtain ⟨h₁, h₂⟩ := h.append
      have operand := does_operand w₁ h₁ rfl ⟨[], slots⟩
      have leave := fun v : D.Value => does_line (a := ⟨[v], slots⟩) h₂.head
      have whole := operand.bind leave
      simp only [Line.exec, Inst.exec, Inst.popOne, map_bind, map_pure] at whole
      simp only [execRet, bind_assoc, pure_bind]
      apply whole.mono (by omega)
  · split at w
    · next void =>
        obtain ⟨rfl, -⟩ := w.of_inst
        have leave := does_line (D := D) (a := ⟨[], slots⟩) h.head
        simp only [execRet, void, if_true, pure_bind]
        apply leave
    · apply w.of_fail.elim

/-- The code of an expression that stands alone computes it and drops its value. -/
theorem does_alone (nodup : (Line.labelNames all).Nodup) {i : Instr}
    (w : (do if ← site.expr i then Emit.inst .pop).Writes s ls r t) (h : Holds all p ls)
    (hq : q = p + ls.length) (zeros : ∀ e ∈ i.comparands, e.ZeroIn D)
    (slots : Nat → D.Value) :
  (machine D all).Does 1 p ⟨[], slots⟩ (do
    let _ ← i.eval site.unit (fetch site.method.slotOf slots)
    pure (.inl (q, ⟨[], slots⟩)))
  := by
  obtain ⟨l₁, b, t₁, l₂, w₁, w₂, rfl⟩ := w.of_bind
  obtain ⟨h₁, h₂⟩ := h.append
  obtain ⟨x, meaning, does⟩ := does_expr nodup w₁ h₁ rfl zeros ⟨[], slots⟩
  rw [meaning, bind_map_left]
  cases b with
  | false =>
      obtain ⟨rfl, -, -⟩ := w₂.of_pure
      obtain rfl : q = p + l₁.length := by simpa using hq
      apply does
  | true =>
      obtain ⟨rfl, -⟩ := w₂.of_inst
      obtain rfl : q = p + l₁.length + 1 := by
        simp at hq
        omega
      have drop := fun v : D.Value => does_move (a := ⟨[v], slots⟩) h₂.head rfl
      apply (does.bind drop).mono (by omega)

/-- The code of an instruction does what the instruction does. -/
theorem does_instr (lawful : D.Lawful) (nodup : (Line.labelNames all).Nodup)
    (w : site.lower.Writes s ls r t) (h : Holds all p ls) (hq : q = p + ls.length)
    (zeros : ∀ e ∈ site.instr.comparands, e.ZeroIn D)
    (sums : ∀ e ∈ site.instr.addends, D.check (.ofTy e.ty) = D.check .int)
    (jumps : ∀ label, site.instr.jumpLabel? = some label → ∃ there, Line.target? all label = some there)
    (slots : Nat → D.Value) :
  (machine D all).Does 1 p ⟨[], slots⟩ (do
    let next ← site.instr.exec site.unit site.method.slotOf slots
    pure ((machine D all).follow q (next.map (Activation.mk []))))
  := by
  obtain ⟨u, m, i⟩ := site
  cases i with
  | assign dest ty rhs =>
      have does := does_assign lawful nodup w h hq zeros sums slots
      simpa [Instr.exec, Control.follow, Next.map] using does
  | ret ty value => apply does_ret w h slots
  | goto label =>
      obtain ⟨rfl, -⟩ := w.of_inst
      obtain ⟨there, ht⟩ := jumps label rfl
      have does := does_goto h.head ht ⟨[], slots⟩
      simpa [Instr.exec, Control.follow, Next.map, machine, ht] using does
  | branch cond label =>
      obtain ⟨there, ht⟩ := jumps label rfl
      have does := does_branch nodup w h hq ht zeros ⟨[], slots⟩
      have place (taken : Bool) : (machine D all).follow q
          (Next.map (Activation.mk []) (if taken then .jump label slots else .on slots))
          = .inl (if taken then there else q, ⟨[], slots⟩) := by
        cases taken
        · rfl
        · simp [Next.map, Control.follow, machine, ht]
      simp only [Instr.exec, bind_assoc, pure_bind, place]
      apply does
  | putField object field fieldTy value =>
      obtain ⟨l₁, _, t₁, l₂, w₁, w₂, rfl⟩ := w.of_bind
      obtain ⟨l₃, _, t₃, l₄, w₃, w₄, rfl⟩ := w₂.of_bind
      obtain ⟨rfl, -⟩ := w₄.of_inst
      obtain ⟨h₁, h₂⟩ := h.append
      obtain ⟨h₃, h₄⟩ := h₂.append
      obtain rfl : q = p + l₁.length + l₃.length + 1 := by
        simp at hq
        omega
      have target := does_operand w₁ h₁ rfl ⟨[], slots⟩
      have content := fun o => does_operand w₃ h₃ rfl ⟨[o], slots⟩
      have store := fun o v : D.Value =>
        does_action h₄.head (show _ = some (_, [o, v].length, 0) from rfl) [] slots
      have whole := target.bind fun o => (content o).bind fun v => store o v
      simp only [Instr.exec, bind_assoc, pure_bind]
      apply whole.mono (by omega)
  | single e | binary op lhs rhs ty | unary op e ty | call kind receiver method args result
  | new ty args | getField object field fieldTy | arrayLength e =>
      have does := does_alone nodup w h hq zeros slots
      simp only [Instr.exec, bind_assoc, pure_bind]
      apply does

end StackBackend
