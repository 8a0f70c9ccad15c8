import StackBackend.Proofs.Execution.Discipline
import StackBackend.Slots.Liveness

/-!
# What an instruction depends on

An instruction run with its variables at two places does the same in both, when the variables it reads have
the same values there; it writes one value to the variable it writes, or nothing. When its operands fit the
places where they stand, and the variables it reads hold values of their sorts, it keeps to the bounds of a
discipline, and what it writes is of the sort of the expression that is assigned.

Both are proved together, going through the meaning of programs once.
-/

namespace StackBackend

variable {D : Domain} {α β : Type}

/-- What an instruction uses are the names of the operands that it reads. -/
theorem Instr.mem_uses {i : Instr} {x : String} :
  x ∈ i.uses ↔ ∃ e ∈ i.reads, x ∈ e.names
  := by
  simp [Instr.uses]

/-- The variables that an instruction writes are at most one. -/
theorem Instr.mem_defs {i : Instr} {x : String} :
  x ∈ i.defs ↔ ∃ ty, i.target? = some (.var x ty)
  := by
  unfold Instr.defs
  split
  · next name ty h => simp [h]
  · next h =>
      constructor
      · intro mem
        apply (Std.ExtTreeSet.not_mem_empty mem).elim
      · rintro ⟨ty, same⟩
        apply (h x ty same).elim

/-- A name of an operand has a type there. -/
theorem Operand.mem_names {e : Operand} {x : String} :
  x ∈ e.names ↔ ∃ ty, (x, ty) ∈ e.typedNames
  := by
  simp [names]

/-! ### Operands in their places -/

section Places

variable {u : ClassUnit} (δ : Discipline D u)

/-- The index of an element fits its place, and a literal has a type that it may have. -/
def Operand.Sorted : Operand → Prop
  | .literal _ ty => δ.Writes ty
  | .var .. => True
  | .item _ index _ => index.Sorted ∧ δ.Fits (δ.sort index.ty) .int

/-- The operand may stand where a value of the kind is asked for. -/
def Operand.Suits (kind : Kind) (e : Operand) : Prop :=
  e.Sorted δ ∧ δ.Fits (δ.sort e.ty) kind

/-- The sort of the value of an expression. -/
def Instr.valueSort : Instr → δ.S
  | .single e => δ.sort e.ty
  | .call _ _ _ _ result => δ.sort result
  | .new ty _ => δ.made ty
  | .getField _ _ fieldTy => δ.sort fieldTy
  | _ => δ.sort .int

/-- Every operand of an instruction fits its place. -/
def Instr.Sorted : Instr → Prop
  | .assign dest _ rhs => dest.Sorted δ ∧ rhs.Sorted ∧ δ.Fits (rhs.valueSort δ) (.ofTy dest.ty)
  | .single e => e.Sorted δ
  | .binary _ lhs rhs _ => lhs.Suits δ .int ∧ rhs.Suits δ .int
  | .unary _ e _ => e.Suits δ .int
  | .ret ty value => ∀ e ∈ value, e.Suits δ (.ofTy ty)
  | .call kind receiver _ args _ => (kind ≠ .static → receiver.Suits δ .ref) ∧ ∀ e ∈ args, e.Sorted δ
  | .new (.array _) args => ∀ e ∈ args, e.Suits δ .int
  | .new _ _ => True
  | .getField object _ _ => object.Suits δ .ref
  | .putField object _ fieldTy value => object.Suits δ .ref ∧ value.Suits δ (.ofTy fieldTy)
  | .goto _ => True
  | .branch cond _ => ∀ e ∈ cond.operands, e.Suits δ .int
  | .arrayLength e => e.Suits δ .ref

/-- The types that become part of a name in an instruction. -/
def Instr.spelled : Instr → List Ty
  | .assign _ _ rhs => rhs.spelled
  | .call _ _ _ args result => result :: args.map Operand.ty
  | .new ty _ => [ty]
  | _ => []

variable {δ}

/-- Where everything fits, operands fit their places. -/
theorem Operand.sorted_of_fits (writes : ∀ ty, δ.Writes ty) (fits : ∀ s kind, δ.Fits s kind) (e : Operand) :
  e.Sorted δ
  := by
  induction e with
  | literal value ty => apply writes
  | var x ty => trivial
  | item x index ty ih =>
      use ih
      apply fits

/-- If everything fits, every instruction is sorted. -/
theorem Instr.sorted_of_fits (writes : ∀ ty, δ.Writes ty) (fits : ∀ s kind, δ.Fits s kind) (i : Instr) :
  i.Sorted δ
  := by
  have suits (kind : Kind) (e : Operand) : e.Suits δ kind := by
    use e.sorted_of_fits writes fits
    apply fits
  induction i with
  | assign dest ty rhs ih =>
      use dest.sorted_of_fits writes fits, ih
      apply fits
  | new ty args => cases ty <;> simp [Sorted, suits]
  | single | binary | unary | ret | call | getField | putField | goto | branch | arrayLength =>
      simp [Sorted, suits, Operand.sorted_of_fits writes fits]

end Places

/-! ### Values -/

section Values

variable {u : ClassUnit} {δ : Discipline D u} {read read' : String → Except Fault D.Value}

/-- A variable is read as the same, with a value of the sort. -/
def Discipline.Reads (δ : Discipline D u) (read read' : String → Except Fault D.Value) (x : String) (ty : Ty) :
    Prop :=
  read x = read' x ∧ δ.Grants (δ.Has · (δ.sort ty)) (read x)

/-- The variables of the operands are read as the same, with values of their sorts. -/
def Discipline.Holds (δ : Discipline D u) (read read' : String → Except Fault D.Value) (es : List Operand) :
    Prop :=
  ∀ e ∈ es, ∀ x ty, (x, ty) ∈ e.typedNames → δ.Reads read read' x ty

/-- A variable that is read with a type. -/
theorem fetchAs_shares {x : String} {ty : Ty} (reads : δ.Reads read read' x ty) :
  Eff.Shares δ.toBounds (δ.Has · (δ.sort ty)) (fetchAs read (.ofTy ty) x) (fetchAs read' (.ofTy ty) x)
  := by
  obtain ⟨same, granted⟩ := reads
  rw [fetchAs, fetchAs, ← same]
  apply (Eff.shares_ofExcept granted).bind
  rintro v _ ⟨rfl, has⟩
  apply (Eff.shares_ofExcept (δ.check has (δ.fits_sort ty))).bind
  intro _ _ _
  apply Eff.Within.pure ⟨rfl, has⟩

/-- An operand, by its names; the index of an array element is an operand again. -/
theorem Operand.eval_shares {e : Operand} (sorted : e.Sorted δ)
    (holds : ∀ x ty, (x, ty) ∈ e.typedNames → δ.Reads read read' x ty) :
  Eff.Shares δ.toBounds (δ.Has · (δ.sort e.ty)) (e.eval read) (e.eval read')
  := by
  induction e with
  | literal value ty => apply Eff.shares_ofExcept (δ.literal sorted)
  | var x ty =>
      apply fetchAs_shares
      apply holds x ty
      simp [typedNames]
  | item x index ty ih =>
      have array : δ.Reads read read' x (.array ty) := holds x (.array ty) (by simp [typedNames])
      apply (fetchAs_shares array).bind
      rintro v _ ⟨rfl, has⟩
      apply (ih sorted.1 fun y ty' mem => holds y ty' (by simp [typedNames, mem])).bind
      rintro w _ ⟨rfl, has'⟩
      apply (δ.load has has' sorted.2).shares

/-- Operands in a row, each of the sort of its type. -/
theorem Operand.evalAll_shares {es : List Operand} (sorted : ∀ e ∈ es, e.Sorted δ)
    (holds : δ.Holds read read' es) :
  Eff.Shares δ.toBounds (List.Forall₂ (fun v e => δ.Has v (δ.sort (Operand.ty e))) · es)
    (evalAll read es) (evalAll read' es)
  := by
  induction es with
  | nil =>
      apply Eff.Within.pure
      use rfl
      apply List.Forall₂.nil
  | cons e es ih =>
      rw [List.forall_mem_cons] at sorted
      rw [Discipline.Holds, List.forall_mem_cons] at holds
      apply (eval_shares sorted.1 holds.1).bind
      rintro v _ ⟨rfl, has⟩
      apply (ih sorted.2 holds.2).bind
      rintro vs _ ⟨rfl, all⟩
      apply Eff.Within.pure
      use rfl
      constructor
      · apply has
      · apply all

theorem evalEither_shares {p : Int32 → Bool} {lhs rhs : Operand} (left : lhs.Suits δ .int)
    (right : rhs.Suits δ .int) (holds : δ.Holds read read' [lhs, rhs]) :
  Eff.Shares δ.toBounds (fun _ => True) (evalEither read p lhs rhs) (evalEither read' p lhs rhs)
  := by
  apply (Operand.eval_shares left.1 (holds lhs (by simp))).bind
  rintro v _ ⟨rfl, has⟩
  apply (Eff.shares_decide fun h => δ.test p h has left.2).bind
  rintro passed _ ⟨rfl, -⟩
  cases passed with
  | true => apply Eff.Within.pure ⟨rfl, trivial⟩
  | false =>
      apply (Operand.eval_shares right.1 (holds rhs (by simp))).bind
      rintro w _ ⟨rfl, has'⟩
      apply Eff.shares_decide fun h => δ.test p h has' right.2

/-- A comparison of words. -/
theorem evalCompare_shares {op : BinaryOp} {lhs rhs : Operand} (left : lhs.Suits δ .int)
    (right : rhs.Suits δ .int) (holds : δ.Holds read read' [lhs, rhs]) :
  Eff.Shares δ.toBounds (fun _ => True) (evalCompare read op lhs rhs) (evalCompare read' op lhs rhs)
  := by
  unfold evalCompare
  split
  · next r _ =>
      apply (Operand.eval_shares left.1 (holds lhs (by simp))).bind
      rintro v _ ⟨rfl, has⟩
      apply (Operand.eval_shares right.1 (holds rhs (by simp))).bind
      rintro w _ ⟨rfl, has'⟩
      apply Eff.shares_decide fun h => δ.compare r h has left.2 has' right.2
  · apply Eff.Within.fail (δ.excuses id)

/-- A condition, by its three forms. -/
theorem Condition.eval_shares {cond : Condition} (sorted : ∀ e ∈ cond.operands, e.Suits δ .int)
    (holds : δ.Holds read read' cond.operands) :
  Eff.Shares δ.toBounds (fun _ => True) (cond.eval read) (cond.eval read')
  := by
  cases cond with
  | not e | test e =>
      have suits : e.Suits δ .int := sorted e (by simp [operands])
      apply (Operand.eval_shares suits.1 (holds e (by simp [operands]))).bind
      rintro v _ ⟨rfl, has⟩
      apply Eff.shares_decide fun h => δ.test _ h has suits.2
  | compare op lhs rhs =>
      have left : lhs.Suits δ .int := sorted lhs (by simp [operands])
      have right : rhs.Suits δ .int := sorted rhs (by simp [operands])
      cases op with
      | and =>
          apply (Operand.eval_shares left.1 (holds lhs (by simp [operands]))).bind
          rintro v _ ⟨rfl, has⟩
          apply (Eff.shares_decide fun h => δ.test isFalse h has left.2).bind
          rintro failed _ ⟨rfl, -⟩
          cases failed with
          | true => apply Eff.Within.pure ⟨rfl, trivial⟩
          | false =>
              apply (Operand.eval_shares right.1 (holds rhs (by simp [operands]))).bind
              rintro w _ ⟨rfl, has'⟩
              apply Eff.shares_decide fun h => δ.test isTrue h has' right.2
      | or => apply evalEither_shares left right holds
      | add | sub | mul | div | lt | gt | le | ge | eq | ne =>
          simp only [eval]
          apply evalCompare_shares left right holds

/-- A binary operation gives a word. -/
theorem evalBinary_shares {op : BinaryOp} {lhs rhs : Operand} (left : lhs.Suits δ .int)
    (right : rhs.Suits δ .int) (holds : δ.Holds read read' [lhs, rhs]) :
  Eff.Shares δ.toBounds (δ.Has · (δ.sort .int)) (evalBinary read op lhs rhs) (evalBinary read' op lhs rhs)
  := by
  have arith (op : Arith) : Eff.Shares δ.toBounds (δ.Has · (δ.sort .int)) (evalArith read op lhs rhs)
      (evalArith read' op lhs rhs) := by
    apply (Operand.eval_shares left.1 (holds lhs (by simp))).bind
    rintro v _ ⟨rfl, has⟩
    apply (Operand.eval_shares right.1 (holds rhs (by simp))).bind
    rintro w _ ⟨rfl, has'⟩
    apply Eff.shares_ofExcept (δ.arith op has left.2 has' right.2)
  cases op with
  | add | sub | mul | div => apply arith
  | and | or =>
      apply (evalEither_shares left right holds).bind
      rintro held _ ⟨rfl, -⟩
      apply Eff.Within.pure ⟨rfl, δ.int _⟩
  | lt | gt | le | ge | eq | ne =>
      apply (evalCompare_shares left right holds).bind
      rintro held _ ⟨rfl, -⟩
      apply Eff.Within.pure ⟨rfl, δ.int _⟩

/-- A call gives a value of its result type, if its signature is written in proper names. -/
theorem evalCall_shares {kind : CallKind} {receiver : Operand} {method : String} {args : List Operand}
    {result : Ty} (sorted : (Instr.call kind receiver method args result).Sorted δ)
    (named : ∀ ty ∈ (Instr.call kind receiver method args result).spelled, δ.Names ty)
    (holds : δ.Holds read read' (callOperands kind receiver args)) :
  Eff.Shares δ.toBounds (∀ v ∈ ·, δ.Has v (δ.sort result)) (evalCall u read kind receiver method args result)
    (evalCall u read' kind receiver method args result)
  := by
  unfold evalCall
  split
  · next owner _ =>
      rw [Instr.spelled, List.forall_mem_cons, List.forall_mem_map] at named
      have operands : ∀ e ∈ callOperands kind receiver args, e.Sorted δ := by
        intro e mem
        unfold callOperands at mem
        split at mem
        · apply sorted.2 e mem
        · next other =>
            obtain rfl | mem := List.mem_cons.1 mem
            · apply (sorted.1 other).1
            · apply sorted.2 e mem
      apply (Operand.evalAll_shares operands holds).bind
      rintro vs _ ⟨rfl, all⟩
      have called := δ.invoke owner method named.2 named.1 (fun other => (sorted.1 other).2) all
      apply called.shares.bind
      rintro v _ ⟨rfl, has⟩
      apply Eff.Within.pure
      cases void : result.isVoid <;> simp [has, void]
  · apply Eff.Within.fail (δ.excuses id)

/-- A new array or object has the sort of its type. -/
theorem evalNew_shares {ty : Ty} {args : List Operand} (sorted : (Instr.new ty args).Sorted δ)
    (named : δ.Names ty) (holds : δ.Holds read read' args) :
  Eff.Shares δ.toBounds (δ.Has · (δ.made ty)) (evalNew u read ty args) (evalNew u read' ty args)
  := by
  unfold evalNew
  split
  · next elem length =>
      have suits : length.Suits δ .int := sorted length (by simp)
      apply (Operand.eval_shares suits.1 (holds length (by simp))).bind
      rintro n _ ⟨rfl, has⟩
      apply (δ.newArray named has suits.2).shares
  · apply Eff.Within.fail (δ.excuses id)
  · next other => apply (δ.new other).shares
  · apply Eff.Within.fail (δ.excuses id)

/-- The value of an expression, if it has one, is of its sort. -/
theorem Instr.eval_shares {i : Instr} (sorted : i.Sorted δ) (named : ∀ ty ∈ i.spelled, δ.Names ty)
    (holds : δ.Holds read read' i.reads) :
  Eff.Shares δ.toBounds (∀ v ∈ ·, δ.Has v (i.valueSort δ)) (i.eval u read) (i.eval u read')
  := by
  have given {x y : Eff D D.Value} {s : δ.S} (shares : Eff.Shares δ.toBounds (δ.Has · s) x y) :
      Eff.Shares δ.toBounds (∀ v ∈ ·, δ.Has v s) (some <$> x) (some <$> y) := by
    apply shares.map
    rintro v _ ⟨rfl, has⟩
    use rfl
    rintro _ ⟨⟩
    apply has
  cases i with
  | single e => apply given (Operand.eval_shares sorted (holds e (by simp [reads])))
  | binary op lhs rhs ty => apply given (evalBinary_shares sorted.1 sorted.2 holds)
  | unary op e ty =>
      apply given
      apply (Operand.eval_shares sorted.1 (holds e (by simp [reads]))).bind
      rintro v _ ⟨rfl, has⟩
      cases op with
      | not =>
          apply Eff.shares_ofExcept
          apply δ.arith .xor has sorted.2 (δ.int 1) (δ.fits_sort .int)
      | neg => apply Eff.shares_ofExcept (δ.neg has sorted.2)
  | call kind receiver method args result => apply evalCall_shares sorted named holds
  | new ty args => apply given (evalNew_shares sorted (named ty (by simp [spelled])) holds)
  | getField object field fieldTy =>
      apply (Operand.eval_shares sorted.1 (holds object (by simp [reads]))).bind
      rintro o _ ⟨rfl, has⟩
      apply given (δ.getField _ fieldTy has sorted.2).shares
  | arrayLength e =>
      apply (Operand.eval_shares sorted.1 (holds e (by simp [reads]))).bind
      rintro v _ ⟨rfl, has⟩
      apply given (δ.length has sorted.2).shares
  | assign | ret | putField | goto | branch => apply Eff.Within.fail (δ.excuses id)

/-- An expression gives a value of its sort. -/
theorem Instr.evalValue_shares {i : Instr} (sorted : i.Sorted δ) (named : ∀ ty ∈ i.spelled, δ.Names ty)
    (holds : δ.Holds read read' i.reads) :
  Eff.Shares δ.toBounds (δ.Has · (i.valueSort δ)) (i.evalValue u read) (i.evalValue u read')
  := by
  apply (eval_shares sorted named holds).bind
  rintro o _ ⟨rfl, has⟩
  cases o with
  | none => apply Eff.Within.fail (δ.excuses id)
  | some v => apply Eff.Within.pure ⟨rfl, has v rfl⟩

end Values

/-! ### Cells at two kinds of addresses -/

/-- Two ways on: both go on, jump to the same label, or return the same value, and the data are
related. -/
inductive Next.Both {σ τ V : Type} (P : σ → τ → Prop) : Next σ V → Next τ V → Prop
  | on {d : σ} {d' : τ} (related : P d d') : Next.Both P (.on d) (.on d')
  | jump {d : σ} {d' : τ} (label : String) (related : P d d') :
      Next.Both P (.jump label d) (.jump label d')
  | ret (v : Option V) : Next.Both P (.ret v) (.ret v)

section Cells

variable [DecidableEq α] [DecidableEq β] {u : ClassUnit} {δ : Discipline D u} {address : String → Option α}
  {address' : String → Option β} {i : Instr} {cells : α → D.Value} {cells' : β → D.Value}

/-- The instruction assigns the variable a value of the sort of the expression. -/
def Instr.Assigns (δ : Discipline D u) (x : String) (v : D.Value) : Instr → Prop
  | .assign (.var y _) _ rhs => x = y ∧ δ.Has v (rhs.valueSort δ)
  | _ => False

/-- The cells after an instruction, at two places: as they were, if it writes no variable, or with one
value in the cells of the variable it writes. -/
inductive Written (δ : Discipline D u) (i : Instr) (address : String → Option α) (address' : String → Option β)
    (cells : α → D.Value) (cells' : β → D.Value) : (α → D.Value) → (β → D.Value) → Prop
  | none (free : ∀ x, x ∉ i.defs) : Written δ i address address' cells cells' cells cells'
  | one {x : String} {a : α} {b : β} {v : D.Value} (assigns : i.Assigns δ x v) (defs : ∀ y, y ∈ i.defs ↔ y = x)
      (at_a : address x = some a) (at_b : address' x = some b) :
      Written δ i address address' cells cells' (Function.update cells a v) (Function.update cells' b v)

/-- An instruction without target writes nothing. -/
theorem Written.of_target_eq_none (free : i.target? = .none) :
  Written δ i address address' cells cells' cells cells'
  := by
  apply Written.none
  intro x defined
  obtain ⟨ty, target⟩ := Instr.mem_defs.1 defined
  simp [free] at target

/-- An assignment gives its variable a value of the sort of the right side. -/
theorem execAssign_within {dest : Operand} {ty : Ty} {rhs : Instr} (sorted : (Instr.assign dest ty rhs).Sorted δ)
    (named : ∀ ty ∈ rhs.spelled, δ.Names ty)
    (holds : δ.Holds (fetch address cells) (fetch address' cells') (Instr.assign dest ty rhs).reads)
    (located : ∀ x ∈ (Instr.assign dest ty rhs).defs, (address x).isSome = (address' x).isSome) :
  Eff.Within δ.toBounds (Written δ (.assign dest ty rhs) address address' cells cells')
    (execAssign u address dest rhs cells) (execAssign u address' dest rhs cells')
  := by
  obtain ⟨place, sorted, fits⟩ := sorted
  cases dest with
  | literal value ty => apply Eff.Within.fail (δ.excuses id)
  | var x ty' =>
      have defs : ∀ y, y ∈ (Instr.assign (.var x ty') ty rhs).defs ↔ y = x := by
        intro y
        rw [Instr.mem_defs]
        simp [Instr.target?, eq_comm]
      apply (Instr.evalValue_shares sorted named holds).bind
      rintro v _ ⟨rfl, has⟩
      apply (Eff.shares_ofExcept (δ.check has fits)).bind
      intro _ _ _
      have both := located x ((defs x).2 rfl)
      rw [writeVar, writeVar]
      cases at_a : address x with
      | none =>
          rw [at_a, Option.isSome_none, eq_comm, Option.isSome_eq_false_iff, Option.isNone_iff_eq_none] at both
          rw [both]
          apply Eff.Within.fail (δ.excuses id)
      | some a =>
          rw [at_a, Option.isSome_some, eq_comm, Option.isSome_iff_exists] at both
          obtain ⟨b, at_b⟩ := both
          rw [at_b]
          apply Eff.Within.pure
          have assigns : (Instr.assign (.var x ty') ty rhs).Assigns δ x v := ⟨rfl, has⟩
          apply Written.one assigns defs at_a at_b
  | item x index ty' =>
      have reads (y : String) (ty'' : Ty) (mem : (y, ty'') ∈ (Operand.item x index ty').typedNames) :
          δ.Reads (fetch address cells) (fetch address' cells') y ty'' :=
        holds (.item x index ty') (by simp [Instr.reads]) y ty'' mem
      have right : δ.Holds (fetch address cells) (fetch address' cells') rhs.reads := by
        intro e mem
        apply holds e
        simp [Instr.reads, mem]
      have array := fetchAs_shares (reads x (.array ty') (by simp [Operand.typedNames]))
      apply array.bind
      rintro v _ ⟨rfl, has⟩
      apply (Operand.eval_shares place.1 fun y ty'' mem => reads y ty'' (by simp [Operand.typedNames, mem])).bind
      rintro j _ ⟨rfl, has'⟩
      apply (Instr.evalValue_shares sorted named right).bind
      rintro w _ ⟨rfl, has''⟩
      apply (δ.store has has' place.2 has'' fits).shares.bind
      intro _ _ _
      apply Eff.Within.pure
      apply Written.none
      intro y defined
      obtain ⟨ty'', target⟩ := Instr.mem_defs.1 defined
      simp [Instr.target?] at target

/-- An instruction does the same at two places where the variables it reads have the same values, and keeps to
the bounds of a discipline. -/
theorem Instr.exec_within (sorted : i.Sorted δ) (named : ∀ ty ∈ i.spelled, δ.Names ty)
    (holds : δ.Holds (fetch address cells) (fetch address' cells') i.reads)
    (located : ∀ x ∈ i.defs, (address x).isSome = (address' x).isSome) :
  Eff.Within δ.toBounds (Next.Both (Written δ i address address' cells cells')) (i.exec u address cells)
    (i.exec u address' cells')
  := by
  cases i with
  | assign dest ty rhs =>
      apply (execAssign_within sorted named holds located).map
      intro after after' written
      apply Next.Both.on written
  | ret ty value =>
      cases value with
      | none =>
          simp only [exec, execRet]
          split
          · apply Eff.Within.pure (.ret none)
          · apply Eff.Within.fail (δ.excuses id)
      | some e =>
          have suits : e.Suits δ (.ofTy ty) := sorted e rfl
          apply (Operand.eval_shares suits.1 (holds e (by simp [reads]))).bind
          rintro v _ ⟨rfl, has⟩
          apply (Eff.shares_ofExcept (δ.check has suits.2)).bind
          intro _ _ _
          apply Eff.Within.pure (.ret (some v))
  | goto label => apply Eff.Within.pure (.jump label (.of_target_eq_none rfl))
  | branch cond label =>
      apply (Condition.eval_shares sorted holds).bind
      rintro taken _ ⟨rfl, -⟩
      apply Eff.Within.pure
      cases taken with
      | true => apply Next.Both.jump label (.of_target_eq_none rfl)
      | false => apply Next.Both.on (.of_target_eq_none rfl)
  | putField object field fieldTy value =>
      apply (Operand.eval_shares sorted.1.1 (holds object (by simp [reads]))).bind
      rintro o _ ⟨rfl, has⟩
      apply (Operand.eval_shares sorted.2.1 (holds value (by simp [reads]))).bind
      rintro v _ ⟨rfl, has'⟩
      apply (δ.putField _ fieldTy has sorted.1.2 has' sorted.2.2).shares.bind
      intro _ _ _
      apply Eff.Within.pure (.on (.of_target_eq_none rfl))
  | single | binary | unary | call | new | getField | arrayLength =>
      apply (eval_shares sorted named holds).bind
      intro _ _ _
      apply Eff.Within.pure (.on (.of_target_eq_none rfl))

end Cells

/-! ### No discipline -/

/-- No bounds. -/
def Bounds.any (D : Domain) : Bounds D where
  Allows _ := True
  Excuses _ := True

theorem Bounds.grants_any (x : Except Fault α) :
  (any D).Grants (fun _ => True) x
  := by
  apply grants_of_forall
  · intro f
    trivial
  · intro a
    trivial

theorem Eff.obeys_any (a : Action) (vs : List D.Value) :
  (act a vs).Obeys (.any D) fun _ => True
  := by
  apply obeys_act trivial
  intro h
  apply Bounds.grants_any

/-- The discipline that allows everything. -/
def Discipline.any (D : Domain) (u : ClassUnit) : Discipline D u where
  toBounds := .any D
  S := Unit
  Has _ _ := True
  sort _ := ()
  made _ := ()
  Fits _ _ := True
  Writes _ := True
  Names _ := True
  excuses _ := trivial
  fits_sort _ := trivial
  int _ := trivial
  literal _ := Bounds.grants_any _
  check _ _ := Bounds.grants_any _
  arith _ _ _ _ _ := Bounds.grants_any _
  neg _ _ := Bounds.grants_any _
  test _ _ _ _ := Bounds.grants_any _
  compare _ _ _ _ _ _ := Bounds.grants_any _
  load _ _ _ := Eff.obeys_any _ _
  store _ _ _ _ _ := Eff.obeys_any _ _
  length _ _ := Eff.obeys_any _ _
  getField _ _ _ _ := Eff.obeys_any _ _
  putField _ _ _ _ _ _ := Eff.obeys_any _ _
  invoke _ _ _ _ _ _ := by simpa using Eff.obeys_any _ _
  newArray _ _ _ := Eff.obeys_any _ _
  new _ := Eff.obeys_any _ _

/-- An instruction does the same at two places where the variables it reads have the same values. -/
theorem Instr.exec_rel [DecidableEq α] [DecidableEq β] {u : ClassUnit} {address : String → Option α}
    {address' : String → Option β} {i : Instr} {cells : α → D.Value} {cells' : β → D.Value}
    (same : ∀ x ∈ i.uses, fetch address cells x = fetch address' cells' x)
    (located : ∀ x ∈ i.defs, (address x).isSome = (address' x).isSome) :
  Eff.Rel (Next.Both (Written (.any D u) i address address' cells cells')) (i.exec u address cells)
    (i.exec u address' cells')
  := by
  have sorted : i.Sorted (.any D u) := by
    apply sorted_of_fits
    · intro ty
      trivial
    · intro s kind
      trivial
  have holds : (Discipline.any D u).Holds (fetch address cells) (fetch address' cells') i.reads := by
    intro e mem x ty named
    constructor
    · apply same x
      rw [mem_uses]
      use e, mem
      rw [Operand.mem_names]
      use ty
    · apply Bounds.grants_any
  apply (exec_within sorted _ holds located).same
  intro ty _
  trivial

end StackBackend
