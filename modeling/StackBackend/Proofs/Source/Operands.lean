import Mathlib.Tactic.Use
import StackBackend.Proofs.Source.Recognition
import StackBackend.Source.Reader

/-!
# Reading types and operands

The readers of types, operands, receivers and operators recognise their forms. Where productions
begin alike their union is written with the common beginning taken out, which is how the readers go
about it. An operand nests, and its reader goes down a bounded number of levels; the same bound on
the form is reached by every operand, since each level takes a token.
-/

namespace StackBackend

/-! ### Types -/

namespace Form

variable {ts : List (Located Token)}

/-- The type that a name stands for. -/
theorem namesTy_iff {x : String} {ty : Ty} :
  NamesTy x ty ↔ ty = .ofName x
  := by
  constructor
  · intro names
    cases names with
    | int | bool | string | void => rfl
    | object free =>
        simp only [List.mem_cons, List.not_mem_nil, not_or] at free
        simp [Ty.ofName, free]
  · rintro rfl
    unfold Ty.ofName
    split
    · next same => exact same ▸ .int
    · split
      · next same => exact same ▸ .bool
      · split
        · next same => exact same ▸ .string
        · split
          · next same => exact same ▸ .void
          · apply NamesTy.object
            simp [*]

/-- A word or mark is a single token. -/
theorem word_iff {f : Fixed} :
  word f ts () ↔ ∃ t, ts = [t] ∧ t.value = .fixed f
  := List.map_eq_singleton_iff

theorem ident_iff {x : String} :
  ident ts x ↔ ∃ t, ts = [t] ∧ t.value = .ident x
  := List.map_eq_singleton_iff

theorem int_iff {x : String} :
  int ts x ↔ ∃ t, ts = [t] ∧ t.value = .int x
  := List.map_eq_singleton_iff

/-- One dimension of an array type. -/
def dimension : Form Unit := do
  word .wArray
  word .dot

theorem dimension_begins :
  Begins (· = .fixed .wArray) dimension
  := (word_begins _).bind

theorem ident_begins :
  Begins (fun t => ∃ x, t = .ident x) ident
  := terminal_begins _

/-- A type is written as its dimensions and then a name. -/
theorem ty_iff {ty : Ty} :
  Form.ty ts ty ↔ (do
    let dims ← Many dimension
    let x ← ident
    return dims.foldr (fun _ t => Ty.array t) (.ofName x) : Form Ty) ts ty
  := by
  constructor
  · intro writes
    induction writes with
    | name word names =>
        obtain rfl := namesTy_iff.1 names
        apply row_bind Many.nil
        apply row_bind (ident_iff.2 ⟨_, rfl, word⟩)
        apply row_pure
    | @array a d ts elem word dot _ ih =>
        obtain ⟨us, _, dims, rfl, rows, vs, _, x, rfl, name, rfl, rfl⟩ := ih
        have row : dimension [a, d] () := row_bind (word_iff.2 ⟨a, rfl, word⟩) (word_iff.2 ⟨d, rfl, dot⟩)
        apply row_bind (Many.cons row rows)
        apply row_bind name
        apply row_pure
  · rintro ⟨us, _, dims, rfl, rows, vs, _, x, rfl, row, rfl, rfl⟩
    obtain ⟨t, rfl, name⟩ := ident_iff.1 row
    induction rows with
    | nil => apply Form.WritesTy.name name (namesTy_iff.2 rfl)
    | cons first _ ih =>
        obtain ⟨_, _, _, rfl, row, row'⟩ := first
        obtain ⟨a, rfl, word⟩ := word_iff.1 row
        obtain ⟨d, rfl, dot⟩ := word_iff.1 row'
        apply Form.WritesTy.array word dot ih

theorem tySuffix_begins :
  Begins (· = .fixed .dot) tySuffix
  := (word_begins _).bind

end Form

namespace Reader

theorem dimension_reads :
  Reads (do fixed .wArray; fixed .dot) Form.dimension Any
  := by
  apply (fixed_reads _).step
  intro _
  apply fixed_reads

/-- A type is read through its dimensions to its name. -/
theorem ty_reads (role : TypeRole) :
  Reads (ty role) Form.ty Any
  := by
  apply Reads.congr _ fun _ _ => Form.ty_iff
  have dimensions : Reads (many (· = .fixed .wArray) (do fixed .wArray; fixed .dot))
      (Form.Many Form.dimension) (fun t => ∃ x, t = some (.ident x)) := by
    apply many_reads dimension_reads
    · apply Form.dimension_begins.mono (by simp)
    · simp [Any]
    · rintro _ ⟨x, rfl⟩
      simp [Goes, Any]
  apply dimensions.bind
  · intro dims
    apply ident_reads.step
    intro x
    apply Reads.endType
    apply pure_reads
  · intro dims ts ty rest row _
    obtain ⟨_, first, x, rfl⟩ := Form.front_append_of_begins Form.ident_begins.bind row rest
    use x, first

theorem tySuffix_reads (role : TypeRole) :
  Reads (tySuffix role) Form.tySuffix Any
  := by
  apply (fixed_reads _).step
  intro _
  apply ty_reads role

end Reader

/-! ### Operands -/

namespace Form

variable {ts : List (Located Token)} {e : Operand}

/-- The operand that a name with a type stands for. -/
theorem namesOperand_iff {x : String} {ty : Ty} :
  NamesOperand ty x e ↔ e = Reader.namedOperand x ty
  := by
  constructor
  · intro names
    cases names with
    | true | false => rfl
    | var h h' => simp [Reader.namedOperand, h, h']
  · rintro rfl
    unfold Reader.namedOperand
    split
    · next same => exact same ▸ .true
    · next other =>
        split
        · next same => exact same ▸ .false
        · next other' => apply Form.NamesOperand.var other other'

/-- A literal as it is written with digits. -/
def literal : Form Operand := do
  let digits ← int
  let ty ← tySuffix
  return .literal digits ty

/-- What follows the name `x` of an operand; the index of an array element is a row of `G`. -/
def operandAfter (G : Form Operand) (x : String) : Form Operand :=
  (do
    let ty ← tySuffix
    return Reader.namedOperand x ty)
  ∪ do
    word .lbracket
    let index ← G
    word .rbracket
    let ty ← tySuffix
    return .item x index ty

/-- An operand is a literal, or begins with a name. -/
theorem operand_iff :
  operand ts e ↔ (literal ∪ (ident >>= operandAfter operand)) ts e
  := by
  constructor
  · intro writes
    cases writes with
    | @literal t ts digits ty word suffix =>
        left
        rw [← List.append_nil ts]
        apply row_bind (int_iff.2 ⟨t, rfl, word⟩)
        apply row_bind suffix
        apply row_pure
    | @named t ts x ty e word suffix names =>
        obtain rfl := namesOperand_iff.1 names
        right
        rw [← List.append_nil ts]
        apply row_bind (ident_iff.2 ⟨t, rfl, word⟩)
        left
        apply row_bind suffix
        apply row_pure
    | @item t l r us ts x index ty word left inner right suffix =>
        right
        rw [← List.append_nil ts]
        apply row_bind (ident_iff.2 ⟨t, rfl, word⟩)
        right
        apply row_bind (word_iff.2 ⟨l, rfl, left⟩)
        apply row_bind inner
        apply row_bind (word_iff.2 ⟨r, rfl, right⟩)
        apply row_bind suffix
        apply row_pure
  · rintro (⟨us, _, digits, rfl, row, vs, _, ty, rfl, suffix, rfl, rfl⟩ | ⟨us, vs, x, rfl, row, after⟩)
    · obtain ⟨t, rfl, word⟩ := int_iff.1 row
      simpa [operand] using WritesOperand.literal word suffix
    · obtain ⟨t, rfl, word⟩ := ident_iff.1 row
      obtain ⟨vs, _, ty, rfl, suffix, rfl, rfl⟩ | after := after
      · simpa [operand] using WritesOperand.named word suffix (namesOperand_iff.2 rfl)
      · obtain ⟨us, _, _, rfl, row, is, _, index, rfl, inner, after⟩ := after
        obtain ⟨l, rfl, left⟩ := word_iff.1 row
        obtain ⟨us, _, _, rfl, row, vs, _, ty, rfl, suffix, rfl, rfl⟩ := after
        obtain ⟨r, rfl, right⟩ := word_iff.1 row
        simpa [operand] using WritesOperand.item word left inner right suffix

mutual

/-- What follows the name of an operand that is nested less than so deep. -/
def operandAfterUpTo (x : String) : Nat → Form Operand
  | 0 => fun _ _ => False
  | n + 1 => operandAfter (operandUpTo n) x

/-- Operands that are nested less than so deep. -/
def operandUpTo : Nat → Form Operand
  | 0 => fun _ _ => False
  | n + 1 => literal ∪ (ident >>= fun x => operandAfterUpTo x n)

end

/-- What follows a name depends on the form of the index only by its rows. -/
theorem operandAfter_mono {G G' : Form Operand} (weaker : ∀ ts e, G ts e → G' ts e) {x : String}
    (row : operandAfter G x ts e) :
  operandAfter G' x ts e
  := by
  obtain row | ⟨us, vs, u, same, left, is, ws, index, same', inner, rest⟩ := row
  · left
    apply row
  · right
    use us, vs, u, same, left, is, ws, index, same', weaker _ _ inner

mutual

/-- Bounded nesting is nesting. -/
theorem operandAfter_of_upTo {n : Nat} {x : String} {ts : List (Located Token)} {e : Operand}
    (row : operandAfterUpTo x n ts e) :
  operandAfter operand x ts e
  := by
  cases n with
  | zero => apply row.elim
  | succ n =>
      apply operandAfter_mono _ row
      intro _ _ row
      apply operand_of_upTo row

theorem operand_of_upTo {n : Nat} {ts : List (Located Token)} {e : Operand}
    (row : operandUpTo n ts e) :
  operand ts e
  := by
  rw [operand_iff]
  cases n with
  | zero => apply row.elim
  | succ n =>
      obtain row | ⟨us, vs, x, rfl, name, after⟩ := row
      · left
        apply row
      · right
        use us, vs, x, rfl, name, operandAfter_of_upTo after

end

mutual

/-- What follows a name is nested less deep than it has tokens. -/
theorem operandAfterUpTo_of_operandAfter {n : Nat} {x : String} {ts : List (Located Token)} {e : Operand}
    (row : operandAfter operand x ts e) (deep : ts.length < n) :
  operandAfterUpTo x n ts e
  := by
  cases n with
  | zero => simp at deep
  | succ n =>
      obtain row | ⟨us, vs, u, rfl, left, is, ws, index, rfl, inner, rest⟩ := row
      · left
        apply row
      · have short : is.length < n := by
          have := (word_begins _).length_pos left
          grind
        right
        apply row_bind left
        apply row_bind (operandUpTo_of_operand inner short) rest

/-- An operand is nested less deep than it has tokens. -/
theorem operandUpTo_of_operand {n : Nat} {ts : List (Located Token)} {e : Operand}
    (row : operand ts e) (deep : ts.length < n) :
  operandUpTo n ts e
  := by
  rw [operand_iff] at row
  cases n with
  | zero => simp at deep
  | succ n =>
      obtain row | ⟨us, vs, x, rfl, name, after⟩ := row
      · left
        apply row
      · have short : vs.length < n := by
          have := ident_begins.length_pos name
          grind
        right
        use us, vs, x, rfl, name, operandAfterUpTo_of_operandAfter after short

end

theorem literal_begins :
  Begins (fun t => ∃ digits, t = .int digits) literal
  := (terminal_begins _).bind

/-- Operands begin as the reader expects. -/
theorem operand_begins :
  Begins (Reader.beginsOperand · = true) operand
  := by
  intro ts e row
  obtain row | row := operand_iff.1 row
  · obtain ⟨_, first, digits, rfl⟩ := literal_begins row
    exact ⟨_, first, rfl⟩
  · obtain ⟨_, first, x, rfl⟩ := ident_begins.bind row
    exact ⟨_, first, rfl⟩

end Form

namespace Reader

variable {F : Option Token → Prop}

/-- A reader that is stuck reads the form without rows. -/
theorem stuck_reads {α : Type} :
  Reads (stuck : Reader α) (fun _ _ => False) Any
  := by
  intro t
  constructor
  · rintro c d a _ ⟨⟩
  · intro c ts rest a _ _ row
    apply row.elim

/-- The reader of a literal has seen its digits before it passes them. -/
theorem literal_reads (digits : String) :
  ReadsFrom (some (.int digits)) (do
    let _ ← accept some
    return .literal digits (← tySuffix .operand)) Form.literal Any
  := by
  have token : Reads (accept some) (Form.terminal id) Any := by
    apply terminal_reads
    simp
  have after : Reads (do
      let _ ← accept some
      return Operand.literal digits (← tySuffix .operand))
      (do
        let _ ← Form.terminal id
        let ty ← Form.tySuffix
        return Operand.literal digits ty) Any := by
    apply token.step
    intro _
    apply (tySuffix_reads _).step
    intro ty
    apply pure_reads
  apply (after _).of_rows
  · rintro _ _ rest place ⟨us, vs, t, rfl, row, suffix⟩
    obtain ⟨u, rfl, rfl⟩ := List.map_eq_singleton_iff.1 row
    have value : u.value = .int digits := by simpa using place
    use [u], vs, digits, rfl
    constructor
    · apply Form.int_iff.2
      use u, rfl, value
    · apply suffix
  · rintro _ _ rest place ⟨us, vs, digits', rfl, row, suffix⟩ _
    obtain ⟨u, rfl, value⟩ := Form.int_iff.1 row
    obtain rfl : digits' = digits := by simpa [value] using place
    have seen : Form.terminal id [u] u.value := rfl
    constructor
    · apply Form.row_bind seen
      apply suffix
    · trivial

mutual

/-- The bound of the reader is the depth of nesting that is read; by induction on it, together with
operands. -/
theorem operandAfterUpTo_reads (x : String) (n : Nat) :
  Reads (operandAfterUpTo x n) (Form.operandAfterUpTo x n) Any
  := by
  cases n with
  | zero => apply stuck_reads
  | succ n =>
      have named : Reads (do return namedOperand x (← tySuffix .operand))
          (do return namedOperand x (← Form.tySuffix)) Any := by
        apply (tySuffix_reads _).step
        intro ty
        apply pure_reads
      have item : Reads
          (do
            fixed .lbracket
            let index ← operandUpTo n
            fixed .rbracket
            return Operand.item x index (← tySuffix .operand))
          (do
            Form.word .lbracket
            let index ← Form.operandUpTo n
            Form.word .rbracket
            let ty ← Form.tySuffix
            return Operand.item x index ty) Any := by
        apply (fixed_reads _).step
        intro _
        apply (operandUpTo_reads n).step
        intro index
        apply (fixed_reads _).step
        intro _
        apply (tySuffix_reads _).step
        intro ty
        apply pure_reads
      intro t
      apply ReadsFrom.nextIs
      split
      · next bracket =>
          apply (item t).right Form.tySuffix_begins.bind
          grind
      · next other =>
          apply (named t).left (Form.word_begins _).bind
          grind

/-- Operands up to a depth of nesting. -/
theorem operandUpTo_reads (n : Nat) :
  Reads (operandUpTo n) (Form.operandUpTo n) Any
  := by
  cases n with
  | zero => apply stuck_reads
  | succ n =>
      intro t
      apply ReadsFrom.peek
      split
      · next digits =>
          apply (literal_reads digits).left Form.ident_begins.bind
          simp
      · next other =>
          have named : Reads (ident >>= fun x => operandAfterUpTo x n)
              (Form.ident >>= fun x => Form.operandAfterUpTo x n) Any := by
            apply ident_reads.step
            intro x
            apply operandAfterUpTo_reads x n
          apply (named _).right Form.literal_begins
          rintro _ rfl ⟨digits, rfl⟩
          apply other digits rfl

end

/-- The number of tokens bounds the depth of nesting, so that the bound does not show. -/
theorem operandAfter_reads (x : String) :
  Reads (operandAfter x) (Form.operandAfter Form.operand x) Any
  := by
  intro t
  constructor
  · intro c d e place read
    obtain ⟨ts, left, row, stop⟩ := (operandAfterUpTo_reads x _).sound read
    use ts, left, Form.operandAfter_of_upTo row, stop
  · intro c ts rest e _ left row _
    apply (operandAfterUpTo_reads x _).complete left (Form.operandAfterUpTo_of_operandAfter row _) trivial
    grind [depth]

theorem operand_reads :
  Reads operand Form.operand Any
  := by
  intro t
  constructor
  · intro c d e place read
    obtain ⟨ts, left, row, stop⟩ := (operandUpTo_reads _).sound read
    use ts, left, Form.operand_of_upTo row, stop
  · intro c ts rest e _ left row _
    apply (operandUpTo_reads _).complete left (Form.operandUpTo_of_operand row _) trivial
    grind [depth]

end Reader

/-! ### Receivers and arguments -/

namespace Form

variable {ts : List (Located Token)} {e : Operand}

/-- A bare name: a variable of the class of that name. -/
def bare (x : String) : Form Operand := pure (.var x (.object x))

/-- A receiver is a literal, or begins with a name. -/
theorem receiver_iff :
  receiver ts e ↔ (literal ∪ (ident >>= fun x => operandAfter operand x ∪ bare x)) ts e
  := by
  constructor
  · rintro (row | row)
    · obtain row | ⟨us, vs, x, rfl, name, after⟩ := operand_iff.1 row
      · left
        apply row
      · right
        use us, vs, x, rfl, name
        left
        apply after
    · obtain ⟨us, vs, x, rfl, name, bare⟩ := row
      right
      use us, vs, x, rfl, name
      right
      apply bare
  · rintro (row | ⟨us, vs, x, rfl, name, after | bare⟩)
    · left
      apply operand_iff.2 (.inl row)
    · left
      apply operand_iff.2
      right
      use us, vs, x, rfl, name, after
    · right
      use us, vs, x, rfl, name
      apply bare

/-- After a name comes a dot or a bracket. -/
theorem operandAfter_begins {G : Form Operand} {x : String} :
  Begins (fun t => t = .fixed .dot ∨ t = .fixed .lbracket) (operandAfter G x)
  := by
  apply Begins.union
  · apply tySuffix_begins.bind.mono fun _ => .inl
  · apply (word_begins _).bind.mono fun _ => .inr

end Form

namespace Reader

/-- A comma follows. -/
def Comma : Option Token → Prop := (· = some (.fixed .comma))

/-- A receiver is read up to the comma after it; without a dot or a bracket it is a bare name. -/
theorem receiver_reads :
  Reads receiver Form.receiver Comma
  := by
  apply Reads.congr _ fun _ _ => Form.receiver_iff
  have after (x : String) : Reads (do
      if (← nextIs .dot) || (← nextIs .lbracket) then operandAfter x
      else return .var x (.object x))
      (Form.operandAfter Form.operand x ∪ Form.bare x) Comma := by
    intro t
    apply ReadsFrom.nextIs
    apply ReadsFrom.nextIs
    split
    · next more =>
        apply ((operandAfter_reads x).any t).goOn
        grind [Comma]
    · next done =>
        apply ReadsFrom.stop Form.operandAfter_begins
        grind
  intro t
  apply ReadsFrom.peek
  split
  · next x =>
      apply ReadsFrom.right _ Form.literal_begins (by simp)
      apply ident_reads.step after _
  · next other =>
      apply (operand_reads t).of_rows
      · intro ts e rest place row
        obtain row | row := Form.operand_iff.1 row
        · left
          apply row
        · obtain ⟨_, first, x, rfl⟩ := Form.front_append_of_begins Form.ident_begins.bind row rest
          apply (other x (place.symm.trans first)).elim
      · rintro ts e rest place (row | row) _
        · use Form.operand_iff.2 (.inl row)
          trivial
        · obtain ⟨_, first, x, rfl⟩ := Form.front_append_of_begins Form.ident_begins.bind row rest
          apply (other x (place.symm.trans first)).elim

theorem fieldRef_reads :
  Reads fieldRef Form.fieldRef Any
  := by
  apply ident_reads.step
  intro x
  apply (tySuffix_reads _).step
  intro ty
  apply pure_reads

/-- Something else than a comma follows. -/
def NoComma : Option Token → Prop := (· ≠ some (.fixed .comma))

theorem argument_reads :
  Reads (do fixed .comma; operand) (do Form.word .comma; Form.operand) Any
  := by
  apply (fixed_reads _).step
  intro _
  apply operand_reads

/-- Arguments are read as long as commas follow. -/
theorem args_reads :
  Reads args Form.args NoComma
  := by
  apply many_reads argument_reads
  · apply (Form.word_begins _).bind.mono (by simp)
  · simp [Any]
  · intro t other
    constructor
    · cases t <;> simp_all [NoComma]
    · trivial

/-! ### Operators -/

theorem binaryOp_reads :
  Reads (accept binaryOp?) Form.binaryOp Any
  := by
  apply oneOf_reads
  · decide
  · intro t op found
    unfold binaryOp? at found
    split at found <;> cases found <;> exact ⟨_, by simp, rfl⟩

theorem unaryOp_reads :
  Reads (accept unaryOp?) Form.unaryOp Any
  := by
  apply oneOf_reads
  · decide
  · intro t op found
    unfold unaryOp? at found
    split at found <;> cases found <;> exact ⟨_, by simp, rfl⟩

theorem callKind_reads :
  Reads (accept callKind?) Form.callKind Any
  := by
  apply oneOf_reads
  · decide
  · intro t kind found
    unfold callKind? at found
    split at found <;> cases found <;> exact ⟨_, by simp, rfl⟩

end Reader

end StackBackend
