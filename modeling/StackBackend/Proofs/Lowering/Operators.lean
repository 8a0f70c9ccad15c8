import StackBackend.Lowering.Instr
import StackBackend.Proofs.Execution.Machine
import StackBackend.Proofs.Execution.Program
import StackBackend.Proofs.Lowering.Emission

/-!
# The code of operands and operators

Wherever the lines of an operand or an operator stand in the code of a method, the machine that gets
to the first of them computes the value, pushes it, and gets to the line after them. The lines of a
test get to the line after them or to the label of the test.
-/

namespace StackBackend

variable {all ls : List Line} {p q : Nat}

/-! ### Operands -/

section Operands

variable {D : Domain} {site : Site} {s t : LabelSupply} {r : Unit}

/-- Looking up a slot writes nothing. -/
theorem Site.slot_writes {x : String} {slot : Nat} (w : (site.slot x).Writes s ls slot t) :
  ls = [] ∧ t = s ∧ site.method.slotOf x = some slot
  := by
  unfold Site.slot at w
  split at w
  · next v hv =>
      obtain ⟨rfl, rfl, rfl⟩ := w.of_pure
      exact ⟨rfl, rfl, by rw [Method.slotOf, hv]; rfl⟩
  · apply w.of_fail.elim

/-- A literal is read as the number that it stands for. -/
theorem Site.literalValue?_eq (value : String) (ty : Ty) :
  literalValue? value ty = literalNumber? value ty
  := by
  cases ty <;> simp [literalValue?, literalNumber?, Text.word?_eq_integer?]

/-- The number of a literal is a word of 32 bits. -/
theorem Site.literalValue?_fits {value : String} {ty : Ty} {v : Int}
    (h : Site.literalValue? value ty = some v) :
  Text.Fits 32 v
  := by
  unfold Site.literalValue? at h
  split at h
  · obtain rfl : 1 = v := by simpa using h
    decide
  · split at h
    · obtain rfl : 0 = v := by simpa using h
      decide
    · apply Text.fits_of_integer? h

/-- A variable with an address is fetched from it. -/
theorem fetch_of_address {α : Type} {address : String → Option α} {x : String} {c : α}
    (h : address x = some c) (cells : α → D.Value) :
  fetch address cells x = .ok (cells c)
  := by
  rw [fetch, h]

/-- An action takes its arguments from the stack. -/
theorem does_action {i : Inst} (h : all[p]? = some (.inst i)) {act : Action}
    {args : List D.Value} {pushes : Nat} (hi : i.action? = some (act, args.length, pushes))
    (stack : List D.Value) (slots : Nat → D.Value) :
  (machine D all).Does 1 p ⟨args.reverse ++ stack, slots⟩ (do
    let v ← Eff.act act args
    pure (.inl (p + 1, ⟨List.replicate pushes v ++ stack, slots⟩)))
  := by
  apply does_on h
  apply Inst.exec_action hi stack slots

/-- A variable is pushed by loading its slot. -/
theorem does_load {x : String} {slot : Nat} {kind : Kind}
    (hs : site.method.slotOf x = some slot) (h : all[p]? = some (.inst (.load kind slot)))
    (a : Activation D.Value) :
  (machine D all).Does 1 p a (do
    let v ← fetchAs (fetch site.method.slotOf a.slots) kind x
    pure (.inl (p + 1, ⟨v :: a.stack, a.slots⟩)))
  := by
  apply does_on h
  simp only [Line.exec, Inst.exec, fetchAs, fetch_of_address hs, Eff.ofExcept_ok, pure_bind,
    bind_assoc]

/-- The code of a literal pushes what it stands for. -/
theorem does_loadLiteral {value : String} {ty : Ty}
    (w : (site.loadLiteral value ty).Writes s ls r t) (h : Holds all p ls)
    (hq : q = p + ls.length) (a : Activation D.Value) :
  (machine D all).Does 1 p a (do
    let v ← Eff.ofExcept (literalConstant D value ty)
    pure (.inl (q, ⟨v :: a.stack, a.slots⟩)))
  := by
  unfold Site.loadLiteral at w
  split at w
  · next text =>
      obtain ⟨rfl, -⟩ := w.of_inst
      obtain rfl : q = p + 1 := hq
      apply does_on h.head
      simp only [Line.exec, Inst.exec, Inst.constant_quoted, literalConstant, if_pos text]
  · next text =>
      split at w
      · next v hv =>
          obtain ⟨rfl, -⟩ := w.of_inst
          obtain rfl : q = p + 1 := hq
          rw [literalConstant, if_neg text, ← Site.literalValue?_eq, hv]
          apply does_on h.head
          simp only [Line.exec, Inst.exec_push (Site.literalValue?_fits hv), Eff.ofExcept_ok,
            pure_bind]
      · apply w.of_fail.elim

/-- The code of an operand pushes its value. -/
theorem does_operand {e : Operand} (w : (site.load e).Writes s ls r t) (h : Holds all p ls)
    (hq : q = p + ls.length) (a : Activation D.Value) :
  (machine D all).Does 1 p a (do
    let v ← e.eval (fetch site.method.slotOf a.slots)
    pure (.inl (q, ⟨v :: a.stack, a.slots⟩)))
  := by
  induction e generalizing s ls t r p q a with
  | literal value ty => apply does_loadLiteral w h hq a
  | var x ty =>
      obtain ⟨l₁, slot, t₁, l₂, w₁, w₂, rfl⟩ := w.of_bind
      obtain ⟨rfl, rfl, hs⟩ := Site.slot_writes w₁
      obtain ⟨rfl, -⟩ := w₂.of_inst
      obtain rfl : q = p + 1 := hq
      apply does_load hs h.head a
  | item x index ty ih =>
      obtain ⟨l₁, slot, t₁, l₂, w₁, w₂, rfl⟩ := w.of_bind
      obtain ⟨rfl, rfl, hs⟩ := Site.slot_writes w₁
      obtain ⟨l₃, _, t₃, l₄, w₃, w₄, rfl⟩ := w₂.of_bind
      obtain ⟨rfl, rfl⟩ := w₃.of_inst
      obtain ⟨l₅, _, t₅, l₆, w₅, w₆, rfl⟩ := w₄.of_bind
      obtain ⟨rfl, -⟩ := w₆.of_inst
      have rest : Holds all (p + 1) (l₅ ++ _) := h.tail
      obtain ⟨h₅, h₆⟩ := rest.append
      obtain rfl : q = p + 1 + l₅.length + 1 := by
        simp at hq
        omega
      have array := does_load hs h.head a
      have index := fun v => ih w₅ h₅ rfl ⟨v :: a.stack, a.slots⟩
      have element := fun v i =>
        does_action h₆.head (show _ = some (_, [v, i].length, 1) from rfl) a.stack a.slots
      have whole := array.bind fun v => (index v).bind fun i => element v i
      simp only [Operand.eval, bind_assoc]
      apply whole.mono (by omega)

/-- The code of operands pushes their values in order. -/
theorem does_operands {es : List Operand} (w : (site.loadAll es).Writes s ls r t)
    (h : Holds all p ls) (hq : q = p + ls.length) (a : Activation D.Value) :
  (machine D all).Does 0 p a (do
    let vs ← Operand.evalAll (fetch site.method.slotOf a.slots) es
    pure (.inl (q, ⟨vs.reverse ++ a.stack, a.slots⟩)))
  := by
  induction es generalizing s ls t r p a with
  | nil =>
      obtain ⟨rfl, -, -⟩ := w.of_pure
      obtain rfl : q = p := hq
      apply Control.Does.stay
  | cons e es ih =>
      obtain ⟨l₁, _, t₁, l₂, w₁, w₂, rfl⟩ := w.of_bind
      obtain ⟨h₁, h₂⟩ := h.append
      rw [List.length_append, ← Nat.add_assoc] at hq
      have first := does_operand w₁ h₁ rfl a
      have others := fun v => ih w₂ h₂ hq ⟨v :: a.stack, a.slots⟩
      have whole := first.bind others
      simp only [Operand.evalAll, bind_assoc, pure_bind, List.reverse_cons, List.append_assoc]
      apply whole.mono (by omega)

end Operands

/-! ### Tests -/

section Tests

variable {D : Domain} {site : Site} {s t : LabelSupply} {r : Unit} {label : String} {there : Nat}

/-- The test that is made for a relational operator is the relation that the operator stands for. -/
theorem BinaryOp.relation?_of_ofOp? {op : BinaryOp} {cond : Cond} (found : Cond.ofOp? op = some cond) :
  op.relation? = some cond.holds
  := by
  cases op <;> cases found
  all_goals
    rw [relation?]
    congr 1
    funext x y
    simp [Cond.holds, Int32.lt_iff_toInt_lt, Int32.le_iff_toInt_le, ← Int32.toInt_inj]

/-- A test against zero takes the jump or goes on. -/
theorem does_jumpIf {cond : Cond} (h : all[p]? = some (.inst (.jumpIf cond label)))
    (ht : Line.target? all label = some there) (v : D.Value) (stack : List D.Value)
    (slots : Nat → D.Value) :
  (machine D all).Does 1 p ⟨v :: stack, slots⟩ (do
    let taken ← Eff.decide (D.test (cond.holds · 0) v)
    pure (.inl (if taken then there else p + 1, ⟨stack, slots⟩)))
  := by
  have does := does_line (D := D) (a := ⟨v :: stack, slots⟩) h
  simp only [Line.exec, Inst.exec, Inst.popOne, map_bind, map_pure] at does
  convert does using 4 with taken
  cases taken
  · rfl
  · simp [Control.follow, machine, ht]

/-- A comparison takes the jump or goes on. -/
theorem does_jumpIfCompare {cond : Cond} (h : all[p]? = some (.inst (.jumpIfCompare cond label)))
    (ht : Line.target? all label = some there) (v w : D.Value) (stack : List D.Value)
    (slots : Nat → D.Value) :
  (machine D all).Does 1 p ⟨w :: v :: stack, slots⟩ (do
    let taken ← Eff.decide (D.compare cond.holds v w)
    pure (.inl (if taken then there else p + 1, ⟨stack, slots⟩)))
  := by
  have does := does_line (D := D) (a := ⟨w :: v :: stack, slots⟩) h
  simp only [Line.exec, Inst.exec, Inst.popTwo, map_bind, map_pure] at does
  convert does using 4 with taken
  cases taken
  · rfl
  · simp [Control.follow, machine, ht]

/-- A jump is taken. -/
theorem does_goto (h : all[p]? = some (.inst (.goto label)))
    (ht : Line.target? all label = some there) (a : Activation D.Value) :
  (machine D all).Does 1 p a (pure (.inl (there, a)))
  := by
  have does := does_line (D := D) (a := a) h
  simpa [Line.exec, Inst.exec, Control.follow, machine, ht] using does

/-- A jump on one operand. -/
theorem does_test {e : Operand} {cond : Cond}
    (w : (do site.load e; Emit.inst (.jumpIf cond label)).Writes s ls r t)
    (h : Holds all p ls) (hq : q = p + ls.length) (ht : Line.target? all label = some there)
    (a : Activation D.Value) :
  (machine D all).Does 1 p a (do
    let v ← e.eval (fetch site.method.slotOf a.slots)
    let taken ← Eff.decide (D.test (cond.holds · 0) v)
    pure (.inl (if taken then there else q, a)))
  := by
  obtain ⟨l₁, _, t₁, l₂, w₁, w₂, rfl⟩ := w.of_bind
  obtain ⟨rfl, -⟩ := w₂.of_inst
  obtain ⟨h₁, h₂⟩ := h.append
  obtain rfl : q = p + l₁.length + 1 := by
    simp at hq
    omega
  have operand := does_operand w₁ h₁ rfl a
  have jump := fun v => does_jumpIf h₂.head ht v a.stack a.slots
  apply (operand.bind jump).mono (by omega)

/-- A literal that writes zero is read as zero in every type. -/
theorem Site.literalValue?_of_zero {value : String} (written : Text.integer? 64 value = some 0) (ty : Ty) :
  literalValue? value ty = some 0
  := by
  have notWord : value ≠ "true" ∧ value ≠ "false" := by
    constructor
    · rintro rfl
      simp [show Text.integer? 64 "true" = none by decide +kernel] at written
    · rintro rfl
      simp [show Text.integer? 64 "false" = none by decide +kernel] at written
  simp [literalValue?, notWord.1, notWord.2, Text.integer?_zero written]

/-- A literal that writes zero stands for zero in every type. -/
theorem literalNumber?_of_zero {value : String} (written : Text.integer? 64 value = some 0) (ty : Ty) :
  literalNumber? value ty = some 0
  := by
  rw [← Site.literalValue?_eq, Site.literalValue?_of_zero written]

/-- A literal that writes zero has the value zero, unless it is a text. -/
theorem Operand.eval_of_isZero {e : Operand} (zero : e.isZero = true)
    (int : e.ty.isIntLike = true) (read : String → Except Fault D.Value) :
  e.eval read = pure (D.int 0)
  := by
  cases e with
  | var x ty => simp [isZero] at zero
  | item x index ty => simp [isZero] at zero
  | literal value ty =>
      have written : Text.integer? 64 value = some 0 := by simpa [isZero] using zero
      have notText : ty ≠ .string := by
        rintro rfl
        simp [Operand.ty, Ty.isIntLike] at int
      rw [Operand.eval, literalConstant, if_neg notText, literalNumber?_of_zero written ty]
      rfl

/-- A literal that writes zero has a value such that a comparison with it is a test of the other value. -/
def Operand.ZeroIn (D : Domain) (e : Operand) : Prop :=
  e.isZero = true → ∃ z : D.Value, (∀ read, e.eval read = pure z)
    ∧ (∀ r v, D.compare r v z = D.test (r · 0) v)
    ∧ ∀ r v, D.compare r z v = D.test (r 0) v

/-- Comparing with an integer zero is a test. -/
theorem Operand.zeroIn_of_isIntLike (lawful : D.Lawful) {e : Operand} (int : e.ty.isIntLike = true) :
  e.ZeroIn D
  := by
  intro zero
  use D.int 0, eval_of_isZero zero int
  constructor
  · intro r v
    funext h
    apply lawful.compare_zero
  · intro r v
    funext h
    apply lawful.zero_compare

/-- The code of a comparison jumps if the comparison holds; one with zero tests the other operand
alone. -/
theorem does_compare {op : BinaryOp} {lhs rhs : Operand}
    (w : (site.jumpIfCompare op lhs rhs label).Writes s ls r t) (h : Holds all p ls)
    (hq : q = p + ls.length) (ht : Line.target? all label = some there)
    (zeros : lhs.ZeroIn D ∧ rhs.ZeroIn D) (a : Activation D.Value) :
  (machine D all).Does 1 p a (do
    let taken ← evalCompare (fetch site.method.slotOf a.slots) op lhs rhs
    pure (.inl (if taken then there else q, a)))
  := by
  unfold Site.jumpIfCompare at w
  unfold evalCompare
  split at w
  · apply w.of_fail.elim
  · next cond found =>
      simp only [BinaryOp.relation?_of_ofOp? found]
      split at w
      · next zero =>
          obtain ⟨z, meaning, test, -⟩ := zeros.2 zero
          simp only [meaning, pure_bind, bind_assoc, test]
          apply does_test w h hq ht a
      · split at w
        · next zero =>
            obtain ⟨z, meaning, -, test⟩ := zeros.1 zero
            have swapped : (cond.swap.holds · 0) = cond.holds 0 := by
              funext x
              apply Cond.holds_swap
            simp only [meaning, pure_bind, bind_assoc, test, ← swapped]
            apply does_test w h hq ht a
        · obtain ⟨l₁, _, t₁, l₂, w₁, w₂, rfl⟩ := w.of_bind
          obtain ⟨l₃, _, t₃, l₄, w₃, w₄, rfl⟩ := w₂.of_bind
          obtain ⟨rfl, -⟩ := w₄.of_inst
          obtain ⟨h₁, h₂⟩ := h.append
          obtain ⟨h₃, h₄⟩ := h₂.append
          obtain rfl : q = p + l₁.length + l₃.length + 1 := by
            simp at hq
            omega
          have left := does_operand w₁ h₁ rfl a
          have right := fun v => does_operand w₃ h₃ rfl ⟨v :: a.stack, a.slots⟩
          have jump := fun v w => does_jumpIfCompare h₄.head ht v w a.stack a.slots
          simp only [bind_assoc]
          apply (left.bind fun v => (right v).bind fun w => jump v w).mono (by omega)

/-- The code of a test on either of two operands jumps if one passes; the second is tested only when
the first fails. -/
theorem does_either {cond : Cond} {lhs rhs : Operand}
    (w : (site.jumpIfEither cond lhs rhs label).Writes s ls r t) (h : Holds all p ls)
    (hq : q = p + ls.length) (ht : Line.target? all label = some there) (a : Activation D.Value) :
  (machine D all).Does 1 p a (do
    let taken ← evalEither (fetch site.method.slotOf a.slots) (cond.holds · 0) lhs rhs
    pure (.inl (if taken then there else q, a)))
  := by
  obtain ⟨l₁, _, t₁, l₂, w₁, w₂, rfl⟩ := w.of_bind
  obtain ⟨l₃, _, t₃, l₄, w₃, w₄, rfl⟩ := w₂.of_bind
  obtain ⟨rfl, rfl⟩ := w₃.of_inst
  obtain ⟨h₁, h₂⟩ := h.append
  have left := does_operand w₁ h₁ rfl a
  have jump := fun v => does_jumpIf h₂.head ht v a.stack a.slots
  have right := does_test w₄ h₂.tail (q := q) (by simp at hq ⊢; omega) ht a
  have after : ∀ taken : Bool,
      (machine D all).Does 0 (if taken then there else p + l₁.length + 1) a
        ((if taken then pure true else
            rhs.eval (fetch site.method.slotOf a.slots) >>= fun v =>
              Eff.decide (D.test (cond.holds · 0) v))
          >>= fun held => pure (.inl (if held then there else q, a))) := by
    intro taken
    cases taken with
    | true => apply Control.Does.stay
    | false =>
        simp only [Bool.false_eq_true, if_false, bind_assoc]
        apply right.mono (by omega)
  have whole := left.bind fun v => (jump v).bind after
  simp only [evalEither, bind_assoc]
  apply whole.mono (by omega)

/-- The code that chooses between two integers: control that gets to its first line leaves with
`here`, and control that jumps to its label `target` with `there`. -/
theorem does_choose (nodup : (Line.labelNames all).Nodup) {here other : Int} {target stop : String}
    (w : (Site.choose here other target stop).Writes s ls r t) (h : Holds all p ls)
    (hq : q = p + ls.length) (fits : Text.Fits 32 here ∧ Text.Fits 32 other) :
  ∃ there, Line.target? all target = some there ∧ ∀ (taken : Bool) (a : Activation D.Value),
    (machine D all).Does 1 (if taken then there else p) a
      (pure (.inl (q, ⟨D.int (if taken then other else here) :: a.stack, a.slots⟩)))
  := by
  obtain ⟨l₁, _, t₁, l₂, w₁, w₂, rfl⟩ := w.of_bind
  obtain ⟨rfl, rfl⟩ := w₁.of_inst
  obtain ⟨l₃, _, t₃, l₄, w₃, w₄, rfl⟩ := w₂.of_bind
  obtain ⟨rfl, rfl⟩ := w₃.of_inst
  obtain ⟨l₅, _, t₅, l₆, w₅, w₆, rfl⟩ := w₄.of_bind
  obtain ⟨rfl, rfl⟩ := w₅.of_label
  obtain ⟨l₇, _, t₇, l₈, w₇, w₈, rfl⟩ := w₆.of_bind
  obtain ⟨rfl, rfl⟩ := w₇.of_inst
  obtain ⟨rfl, rfl⟩ := w₈.of_label
  obtain rfl : q = p + 1 + 1 + 1 + 1 + 1 := hq
  have atTarget := Line.target?_of_nodup nodup h.tail.tail.head
  have atStop := Line.target?_of_nodup nodup h.tail.tail.tail.tail.head
  use p + 1 + 1, atTarget
  intro taken a
  have out : ∀ b : Activation D.Value,
      (machine D all).Does 1 (p + 1 + 1 + 1 + 1) b (pure (.inl (p + 1 + 1 + 1 + 1 + 1, b))) :=
    fun b => does_move h.tail.tail.tail.tail.head rfl
  cases taken with
  | false =>
      have push := does_push h.head fits.1 a
      have jump := does_goto h.tail.head atStop ⟨D.int here :: a.stack, a.slots⟩
      apply (((out _).after jump).after push).mono (by omega)
  | true =>
      have enter : (machine D all).Does 1 (p + 1 + 1) a (pure (.inl (p + 1 + 1 + 1, a))) :=
        does_move h.tail.tail.head rfl
      have push := does_push h.tail.tail.tail.head fits.2 a
      apply (((out _).after push).after enter).mono (by omega)

end Tests

/-! ### Expressions -/

section Expressions

variable {D : Domain} {site : Site} {s t : LabelSupply} {r : Unit}

/-- Code that jumps if a decision is made, followed by the choice between two integers. -/
theorem does_chosen (nodup : (Line.labelNames all).Nodup) {x : Eff D Bool} {here other : Int}
    {stem stem' : String} {code : String → Emit Unit} {a : Activation D.Value}
    (decision : ∀ {s t ls label there mid}, (code label).Writes s ls () t → Holds all p ls →
      mid = p + ls.length → Line.target? all label = some there →
      (machine D all).Does 1 p a (do
        let taken ← x
        pure (.inl (if taken then there else mid, a))))
    (w : (do
      let (target, stop) ← Emit.freshPair stem stem'
      code target
      Site.choose here other target stop).Writes s ls r t)
    (h : Holds all p ls) (hq : q = p + ls.length)
    (fits : Text.Fits 32 here ∧ Text.Fits 32 other) :
  (machine D all).Does 1 p a (do
    let taken ← x
    pure (.inl (q, ⟨D.int (if taken then other else here) :: a.stack, a.slots⟩)))
  := by
  obtain ⟨l₁, ⟨target, stop⟩, t₁, l₂, w₁, w₂, rfl⟩ := w.of_bind
  obtain ⟨rfl, -⟩ := w₁.of_freshPair
  obtain ⟨l₃, _, t₃, l₄, w₃, w₄, rfl⟩ := w₂.of_bind
  have held : Holds all p (l₃ ++ l₄) := h
  obtain ⟨h₃, h₄⟩ := held.append
  obtain ⟨there, ht, leaves⟩ := does_choose (D := D) nodup w₄ h₄ rfl fits
  obtain rfl : q = p + l₃.length + l₄.length := by
    simp at hq
    omega
  have whole := (decision w₃ h₃ rfl ht).bind fun taken => leaves taken a
  apply whole.mono (by omega)

/-- The code of an arithmetic operation does what the operation does. -/
theorem does_arithmetic {i : Inst} {op : Arith} {lhs rhs : Operand}
    (hi : ∀ a : Activation D.Value, i.exec a = Inst.execArith op a)
    (w : (site.arithmetic i lhs rhs).Writes s ls r t) (h : Holds all p ls)
    (hq : q = p + ls.length) (a : Activation D.Value) :
  (machine D all).Does 1 p a (do
    let v ← evalArith (fetch site.method.slotOf a.slots) op lhs rhs
    pure (.inl (q, ⟨v :: a.stack, a.slots⟩)))
  := by
  obtain ⟨l₁, _, t₁, l₂, w₁, w₂, rfl⟩ := w.of_bind
  obtain ⟨l₃, _, t₃, l₄, w₃, w₄, rfl⟩ := w₂.of_bind
  obtain ⟨rfl, -⟩ := w₄.of_inst
  obtain ⟨h₁, h₂⟩ := h.append
  obtain ⟨h₃, h₄⟩ := h₂.append
  obtain rfl : q = p + l₁.length + l₃.length + 1 := by
    simp at hq
    omega
  have left := does_operand w₁ h₁ rfl a
  have right := fun v => does_operand w₃ h₃ rfl ⟨v :: a.stack, a.slots⟩
  have operation := fun v w : D.Value =>
    does_on (a := ⟨w :: v :: a.stack, a.slots⟩) h₄.head (hi _)
  have whole := left.bind fun v => (right v).bind fun w => operation v w
  simp only [evalArith, bind_assoc]
  apply whole.mono (by omega)

/-- The code of a binary operation pushes its value. -/
theorem does_binary (nodup : (Line.labelNames all).Nodup) {op : BinaryOp}
    {lhs rhs : Operand} (w : (site.binary op lhs rhs).Writes s ls r t) (h : Holds all p ls)
    (hq : q = p + ls.length)
    (zeros : op.isRelational = true → lhs.ZeroIn D ∧ rhs.ZeroIn D)
    (a : Activation D.Value) :
  (machine D all).Does 1 p a (do
    let v ← evalBinary (fetch site.method.slotOf a.slots) op lhs rhs
    pure (.inl (q, ⟨v :: a.stack, a.slots⟩)))
  := by
  cases op with
  | add =>
      apply does_arithmetic _ w h hq a
      intro _
      rfl
  | sub =>
      apply does_arithmetic _ w h hq a
      intro _
      rfl
  | mul =>
      apply does_arithmetic _ w h hq a
      intro _
      rfl
  | div =>
      apply does_arithmetic _ w h hq a
      intro _
      rfl
  | and =>
      have chosen := does_chosen nodup (fun w h hq ht => does_either w h hq ht a) w h hq (by decide)
      have flipped (taken : Bool) : D.ofBool (!taken) = D.int (if taken then 0 else 1) := by
        cases taken <;> rfl
      simp only [evalBinary, bind_assoc, pure_bind, flipped]
      apply chosen
  | or =>
      have chosen := does_chosen nodup (fun w h hq ht => does_either w h hq ht a) w h hq (by decide)
      simp only [evalBinary, bind_assoc, pure_bind]
      apply chosen
  | lt | gt | le | ge | eq | ne =>
      have chosen := does_chosen nodup (fun w h hq ht => does_compare w h hq ht (zeros rfl) a)
        w h hq (by decide)
      simp only [evalBinary, bind_assoc, pure_bind]
      apply chosen

/-- The code of a unary operation pushes its value. -/
theorem does_unary {op : UnaryOp} {e : Operand} (w : (site.unary op e).Writes s ls r t)
    (h : Holds all p ls) (hq : q = p + ls.length) (a : Activation D.Value) :
  (machine D all).Does 1 p a (do
    let v ← evalUnary (fetch site.method.slotOf a.slots) op e
    pure (.inl (q, ⟨v :: a.stack, a.slots⟩)))
  := by
  obtain ⟨l₁, _, t₁, l₂, w₁, w₂, rfl⟩ := w.of_bind
  obtain ⟨h₁, h₂⟩ := h.append
  have operand := does_operand w₁ h₁ rfl a
  cases op with
  | not =>
      obtain ⟨l₃, _, t₃, l₄, w₃, w₄, rfl⟩ := w₂.of_bind
      obtain ⟨rfl, rfl⟩ := w₃.of_inst
      obtain ⟨rfl, rfl⟩ := w₄.of_inst
      obtain rfl : q = p + l₁.length + 1 + 1 := by
        simp at hq
        omega
      have one := fun v => does_push h₂.head (by decide) ⟨v :: a.stack, a.slots⟩
      have flip := fun v : D.Value =>
        does_on (a := ⟨D.int 1 :: v :: a.stack, a.slots⟩) h₂.tail.head rfl
      have whole := operand.bind fun v => (flip v).after (one v)
      simp only [evalUnary, bind_assoc]
      apply whole.mono (by omega)
  | neg =>
      obtain ⟨rfl, rfl⟩ := w₂.of_inst
      obtain rfl : q = p + l₁.length + 1 := by
        simp at hq
        omega
      have negation := fun v : D.Value =>
        does_on (a := ⟨v :: a.stack, a.slots⟩) h₂.head rfl
      have whole := operand.bind negation
      simp only [evalUnary, bind_assoc]
      apply whole.mono (by omega)

end Expressions

end StackBackend
