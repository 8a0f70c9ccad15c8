import StackBackend.Proofs.Source.Methods

/-!
# The numbers of slots

The variable table of a method that is read says no more than its declaration does. The receiver has the
first slot, each parameter the one it comes in, and the variables of the body, which is gone through in the
order in which they appear, the slots after these without a gap. A variable that appears again, or has the
name of a parameter, gets no second slot.
-/

namespace StackBackend

/-! ### Appearances -/

/-- The variables of an operand with their types, in the order in which they appear: those of an index
before the array. -/
def Operand.appearances : Operand → List (String × Ty)
  | .literal _ _ => []
  | .var x ty => [(x, ty)]
  | .item x index ty => index.appearances ++ [(x, .array ty)]

/-- The variables of an instruction, in the order in which they appear: those of the operand it writes
before those of the operands it reads. -/
def Instr.appearances (i : Instr) : List (String × Ty) :=
  (i.target?.toList ++ i.reads).flatMap Operand.appearances

/-- The names that appear in an operand, in whatever order. -/
theorem Operand.mem_appearances {e : Operand} {a : String × Ty} :
  a ∈ e.appearances ↔ a ∈ e.typedNames
  := by
  induction e with
  | literal value ty => rfl
  | var x ty => rfl
  | item x index ty ih => rw [appearances, typedNames, List.mem_append, List.mem_singleton, List.mem_cons, ih, or_comm]

/-- The names of an operand appear in it with some type. -/
theorem Operand.mem_names_iff_appearances {e : Operand} {x : String} :
  x ∈ e.names ↔ ∃ ty, (x, ty) ∈ e.appearances
  := by
  simp [names, mem_appearances]

namespace Method

/-- The variables of the body of a method, in the order in which they appear. -/
def appearances (m : Method) : List (String × Ty) := m.body.flatMap Instr.appearances

/-- The first appearances of the variables that do not come into a method. -/
def temporaries (m : Method) : List (String × Ty) :=
  (m.appearances.filter fun a => a.1 ≠ "this" ∧ a.1 ∉ m.params.map Param.name).eraseDupsBy
    fun a b => a.1 == b.1

/-- The slot of the first parameter. -/
def paramBase (m : Method) : Nat := if m.isStatic then 0 else 1

/-- The variables of a method of the class `owner` with the slots that they are given. -/
inductive Numbers (m : Method) (owner : String) : String → Variable → Prop where
  /-- The receiver has the first slot, unless a parameter takes its name. -/
  | receiver (instance' : m.isStatic = false) (alone : ∀ p ∈ m.params, p.name ≠ "this") :
      Numbers m owner "this" ⟨.receiver, 0, .object owner⟩
  /-- A parameter has the slot of the last declaration of its name. -/
  | parameter {j : Nat} {p : Param} (declared : m.params[j]? = some p)
      (last : ∀ q ∈ m.params.drop (j + 1), q.name ≠ p.name) :
      Numbers m owner p.name ⟨.parameter, m.paramBase + j, p.ty⟩
  /-- The other variables follow in the order of their first appearances. -/
  | temporary {n : Nat} {x : String} {ty : Ty} (appears : m.temporaries[n]? = some (x, ty)) :
      Numbers m owner x ⟨.temporary, m.paramBase + m.params.length + n, ty⟩

/-- The table of a method of the class `owner` has the variables with the slots that they are given, all
different; its names are those that come in and those that the instructions read or write, the receiver
apart. -/
structure IsNumbered (m : Method) (owner : String) : Prop where
  apart : ∀ (x y : String) (v w : Variable), m.vars[x]? = some v → m.vars[y]? = some w →
    v.slot = w.slot → x = y
  entries : ∀ (x : String) (v : Variable), m.vars[x]? = some v ↔ m.Numbers owner x v
  names : ∀ x : String, x ∈ m.vars
    ↔ (m.isStatic = false ∧ x = "this" ∨ ∃ p ∈ m.params, p.name = x)
      ∨ x ≠ "this" ∧ ∃ i ∈ m.body, ∃ e ∈ i.target?.toList ++ i.reads, x ∈ e.names

end Method

/-! ### Tables in the making -/

namespace Registry

variable {r : Registry} {x : String} {v : Variable}

/-- Enters variables one after the other. -/
def enterAll (r : Registry) (as : List (String × Ty)) : Registry :=
  as.foldl (fun r a => r.enter a.1 a.2) r

/-- An operand enters its appearances in their order. -/
theorem enterOperand_eq_enterAll (r : Registry) (e : Operand) :
  r.enterOperand e = r.enterAll e.appearances
  := by
  induction e generalizing r with
  | literal value ty => rfl
  | var y ty => rfl
  | item y index ty ih => simp [enterOperand, Operand.appearances, ih, enterAll]

/-- A body enters the appearances of its instructions in their order. -/
theorem foldl_enterInstr_eq_enterAll (r : Registry) (body : List Instr) :
  body.foldl enterInstr r = r.enterAll (body.flatMap Instr.appearances)
  := by
  rw [enterAll, List.foldl_flatMap]
  congr
  funext r i
  rw [enterInstr, Instr.appearances, List.foldl_flatMap]
  congr
  funext r e
  apply r.enterOperand_eq_enterAll e

/-- The first appearances of the variables that are not in the table yet. -/
def fresh (r : Registry) (as : List (String × Ty)) : List (String × Ty) :=
  (as.filter fun a => a.1 ≠ "this" ∧ a.1 ∉ r.table).eraseDupsBy fun a b => a.1 == b.1

/-- A name that is known is passed over. -/
theorem fresh_cons_of_known {a : String × Ty} (known : a.1 = "this" ∨ a.1 ∈ r.table)
    (as : List (String × Ty)) :
  r.fresh (a :: as) = r.fresh as
  := by
  rw [fresh, List.filter_cons_of_neg, ← fresh]
  simpa [imp_iff_not_or] using known

/-- A new name is the next fresh one, and known from then on. -/
theorem fresh_cons_of_new {a : String × Ty} (new : ¬ (a.1 = "this" ∨ a.1 ∈ r.table))
    (as : List (String × Ty)) (v : Variable) (next : Nat) :
  r.fresh (a :: as) = a :: fresh ⟨r.table.insert a.1 v, next⟩ as
  := by
  rw [fresh, List.filter_cons_of_pos (by simpa [not_or] using new), List.eraseDupsBy_cons, List.filter_filter,
    fresh]
  congr 3
  funext b
  have known : b.1 ∈ r.table.insert a.1 v ↔ a.1 = b.1 ∨ b.1 ∈ r.table := by
    rw [Std.ExtTreeMap.mem_insert, Std.compare_eq_iff_eq]
  rw [Bool.eq_iff_iff]
  simp only [known, beq_eq_false_iff_ne, Bool.and_eq_true, decide_eq_true_eq, not_or, eq_comm (a := a.1)]
  rw [and_left_comm]

/-- After variables are entered, the table has what it had and the new ones in the order of their first
appearances. -/
theorem getElem?_enterAll {as : List (String × Ty)} :
  (r.enterAll as).table[x]? = some v
    ↔ r.table[x]? = some v ∨ ∃ n ty, (r.fresh as)[n]? = some (x, ty) ∧ v = ⟨.temporary, r.next + n, ty⟩
  := by
  induction as generalizing r with
  | nil => simp [enterAll, fresh, List.eraseDupsBy, List.eraseDupsBy.loop]
  | cons a as ih =>
      have first : r.enterAll (a :: as) = (r.enter a.1 a.2).enterAll as := rfl
      by_cases known : a.1 = "this" ∨ a.1 ∈ r.table
      · rw [first, enter, if_pos known, fresh_cons_of_known known, ih]
      · have absent : r.table[a.1]? = none :=
          Std.ExtTreeMap.getElem?_eq_none fun mem => known (.inr mem)
        rw [first, enter, if_neg known, ih, fresh_cons_of_new known as ⟨.temporary, r.next, a.2⟩ (r.next + 1),
          Std.ExtTreeMap.getElem?_insert]
        constructor
        · rintro (entry | ⟨n, ty, later, rfl⟩)
          · split at entry
            · next same =>
                obtain rfl := Std.compare_eq_iff_eq.1 same
                right
                use 0, a.2, rfl, (Option.some.inj entry).symm
            · left
              apply entry
          · right
            use n + 1, ty, later
            rw [Nat.add_right_comm, Nat.add_assoc]
        · rintro (entry | ⟨n, ty, appears, rfl⟩)
          · left
            rw [if_neg, entry]
            rw [Std.compare_eq_iff_eq]
            rintro rfl
            simp [absent] at entry
          · cases n with
            | zero =>
                obtain rfl : a = (x, ty) := by simpa using appears
                simp
            | succ n =>
                right
                use n, ty, appears
                rw [Nat.add_right_comm, Nat.add_assoc]

/-- After variables are entered, the table has the names it had and theirs, that of the receiver apart. -/
theorem mem_enterAll {as : List (String × Ty)} :
  x ∈ (r.enterAll as).table ↔ x ∈ r.table ∨ x ≠ "this" ∧ ∃ ty, (x, ty) ∈ as
  := by
  induction as generalizing r with
  | nil => simp [enterAll]
  | cons a as ih =>
      have first : r.enterAll (a :: as) = (r.enter a.1 a.2).enterAll as := rfl
      have entered : x ∈ (r.enter a.1 a.2).table ↔ x ∈ r.table ∨ x ≠ "this" ∧ x = a.1 := by
        unfold enter
        split
        · next known => grind
        · next new =>
            rw [Std.ExtTreeMap.mem_insert, Std.compare_eq_iff_eq]
            grind
      have listed : (∃ ty, (x, ty) ∈ a :: as) ↔ x = a.1 ∨ ∃ ty, (x, ty) ∈ as := by
        obtain ⟨y, ty⟩ := a
        simp [exists_or]
      rw [first, ih, entered, listed, and_or_left, or_assoc]

/-- After parameters are entered, the table has the last one of each name, and what it had under the other
names. -/
theorem getElem?_foldl_enterParam {params : List Param} :
  (params.foldl enterParam r).table[x]? = some v
    ↔ (∃ j p, params[j]? = some p ∧ p.name = x ∧ (∀ q ∈ params.drop (j + 1), q.name ≠ p.name)
        ∧ v = ⟨.parameter, r.next + j, p.ty⟩)
      ∨ (∀ p ∈ params, p.name ≠ x) ∧ r.table[x]? = some v
  := by
  induction params generalizing r with
  | nil => simp
  | cons p params ih =>
      rw [List.foldl_cons, ih]
      have entered : (r.enterParam p).table[x]?
          = if p.name = x then some ⟨.parameter, r.next, p.ty⟩ else r.table[x]? := by
        simp only [enterParam, Std.ExtTreeMap.getElem?_insert, Std.compare_eq_iff_eq]
      constructor
      · rintro (⟨j, q, at_j, named, last, rfl⟩ | ⟨others, entry⟩)
        · left
          use j + 1, q, at_j, named, last
          simp [enterParam, Nat.add_right_comm, Nat.add_assoc]
        · rw [entered] at entry
          split at entry
          · next named =>
              refine .inl ⟨0, p, rfl, named, ?_, (Option.some.inj entry).symm⟩
              simpa [named] using others
          · next other => exact .inr ⟨List.forall_mem_cons.2 ⟨other, others⟩, entry⟩
      · rintro (⟨j, q, at_j, named, last, rfl⟩ | ⟨others, entry⟩)
        · cases j with
          | zero =>
              obtain rfl : p = q := by simpa using at_j
              refine .inr ⟨by simpa [named] using last, ?_⟩
              simp [entered, named]
          | succ j =>
              left
              use j, q, at_j, named, last
              simp [enterParam, Nat.add_right_comm, Nat.add_assoc]
        · rw [List.forall_mem_cons] at others
          right
          use others.2
          rw [entered, if_neg others.1, entry]

/-- Each parameter takes one slot, whether or not its name is new. -/
theorem next_foldl_enterParam (params : List Param) (r : Registry) :
  (params.foldl enterParam r).next = r.next + params.length
  := by
  induction params generalizing r with
  | nil => rfl
  | cons p params ih =>
      rw [List.foldl_cons, ih, List.length_cons]
      simp only [enterParam]
      omega

end Registry

/-! ### Variable tables -/

section Table

variable {m : Method} {owner x : String} {v : Variable}

theorem mem_entry {isStatic : Bool} :
  x ∈ (Registry.entry isStatic owner).table ↔ isStatic = false ∧ x = "this"
  := by
  cases isStatic with
  | true => simp [Registry.entry]
  | false => simp [Registry.entry, eq_comm (a := x)]

/-- At the entry of a method that is not static the receiver has slot zero. -/
theorem getElem?_entry {isStatic : Bool} :
  (Registry.entry isStatic owner).table[x]? = some v
    ↔ isStatic = false ∧ x = "this" ∧ v = ⟨.receiver, 0, .object owner⟩
  := by
  cases isStatic with
  | true => simp [Registry.entry]
  | false =>
      simp only [Registry.entry, Bool.false_eq_true, if_false, Std.ExtTreeMap.getElem?_insert,
        Std.compare_eq_iff_eq]
      split
      · next same => simp [← same, eq_comm]
      · next other => simp [Ne.symm other]

/-- The table of a method has the variables of the method with the slots that they are given. -/
theorem getElem?_variableTable :
  (variableTable m.isStatic owner m.params m.body)[x]? = some v ↔ m.Numbers owner x v
  := by
  have start : (m.params.foldl Registry.enterParam (.entry m.isStatic owner)).next
      = m.paramBase + m.params.length := by
    rw [Registry.next_foldl_enterParam, Method.paramBase, Registry.entry]
    split <;> rfl
  have base : (Registry.entry m.isStatic owner).next = m.paramBase := by
    rw [Method.paramBase, Registry.entry]
    split <;> rfl
  have fresh : (m.params.foldl Registry.enterParam (.entry m.isStatic owner)).fresh m.appearances
      = m.temporaries := by
    rw [Registry.fresh, Method.temporaries]
    congr 2
    funext a
    have entered : a.1 ∈ (m.params.foldl Registry.enterParam (.entry m.isStatic owner)).table
        ↔ m.isStatic = false ∧ a.1 = "this" ∨ ∃ p ∈ m.params, p.name = a.1 := by
      rw [Registry.mem_foldl_enterParam, mem_entry]
    rw [decide_eq_decide, entered, List.mem_map]
    apply and_congr_right
    intro other
    simp [other]
  rw [variableTable, Registry.foldl_enterInstr_eq_enterAll, Registry.getElem?_enterAll,
    Registry.getElem?_foldl_enterParam, getElem?_entry, start, base, ← Method.appearances, fresh]
  constructor
  · rintro ((⟨j, p, declared, rfl, last, rfl⟩ | ⟨alone, instance', rfl, rfl⟩) | ⟨n, ty, appears, rfl⟩)
    · apply Method.Numbers.parameter declared last
    · apply Method.Numbers.receiver instance' alone
    · apply Method.Numbers.temporary appears
  · intro numbered
    cases numbered with
    | receiver instance' alone =>
        left
        right
        use alone, instance'
    | parameter declared last => exact .inl (.inl ⟨_, _, declared, rfl, last, rfl⟩)
    | temporary appears => exact .inr ⟨_, _, appears, rfl⟩

/-- The variables of a body, by its operands. -/
theorem exists_mem_appearances :
  (∃ ty, (x, ty) ∈ m.appearances) ↔ ∃ i ∈ m.body, ∃ e ∈ i.target?.toList ++ i.reads, x ∈ e.names
  := by
  simp only [Method.appearances, Instr.appearances, List.mem_flatMap, Operand.mem_names_iff_appearances]
  constructor
  · rintro ⟨ty, i, listed, e, operand, appears⟩
    use i, listed, e, operand, ty, appears
  · rintro ⟨i, listed, e, operand, ty, appears⟩
    use ty, i, listed, e, operand, appears

/-- The names in the table of a method are those that come in and those of the body. -/
theorem mem_variableTable_iff :
  x ∈ variableTable m.isStatic owner m.params m.body
    ↔ (m.isStatic = false ∧ x = "this" ∨ ∃ p ∈ m.params, p.name = x)
      ∨ x ≠ "this" ∧ ∃ i ∈ m.body, ∃ e ∈ i.target?.toList ++ i.reads, x ∈ e.names
  := by
  rw [variableTable, Registry.foldl_enterInstr_eq_enterAll, Registry.mem_enterAll,
    Registry.mem_foldl_enterParam, mem_entry, ← Method.appearances, exists_mem_appearances]

end Table

/-- In a method that a text declares, different variables have different slots: the receiver the first one,
unless a parameter takes its name, each parameter that of its last declaration, and then, without a gap, the
other variables those that follow, in the order of their first appearances and with the types they appear
with. There are no other names in the table. -/
theorem isNumbered_of_parse {text : String} {u : ClassUnit} (read : parse text = .ok u) {m : Method}
    (mem : m ∈ u.methods) :
  m.IsNumbered u.name
  := by
  have table := vars_of_parse read mem
  constructor
  · apply ((declared_of_parse read).2 m mem).apart
  · intro x v
    rw [table]
    apply getElem?_variableTable
  · intro x
    rw [table]
    apply mem_variableTable_iff

/-- A class with a method that declares a parameter twice, and uses arrays in indices. -/
def shadowingText : String :=
  "A\x7b.method f(p.i32,q.array.i32,p.bool).V\x7ba[q[i.i32].i32].i32:=.i32 b.i32;"
    ++ "p.i32:=.i32 i.i32;invokestatic(io,\"print\",c.i32,this.A).V;\x7d\x7d"

/-- Two parameters of one name take two slots, of which the second one counts. -/
theorem shadowing_isNumbered :
  ∃ u m, parse shadowingText = .ok u ∧ m ∈ u.methods
    ∧ m.vars.toList = [
      ("a", ⟨.temporary, 5, .array .int⟩), ("b", ⟨.temporary, 6, .int⟩), ("c", ⟨.temporary, 7, .int⟩),
      ("i", ⟨.temporary, 4, .int⟩), ("p", ⟨.parameter, 3, .bool⟩), ("q", ⟨.parameter, 2, .array .int⟩),
      ("this", ⟨.receiver, 0, .object "A"⟩)]
    ∧ m.IsNumbered u.name
  := by
  have checked : ((parse shadowingText).toOption.any fun u =>
      u.methods[0]?.any fun m => decide (m.vars.toList = [
        ("a", ⟨.temporary, 5, .array .int⟩), ("b", ⟨.temporary, 6, .int⟩), ("c", ⟨.temporary, 7, .int⟩),
        ("i", ⟨.temporary, 4, .int⟩), ("p", ⟨.parameter, 3, .bool⟩), ("q", ⟨.parameter, 2, .array .int⟩),
        ("this", ⟨.receiver, 0, .object "A"⟩)])) = true := by
    decide +kernel
  rw [Option.any_eq_true] at checked
  obtain ⟨u, parsed, checked⟩ := checked
  rw [Option.any_eq_true] at checked
  obtain ⟨m, declared, table⟩ := checked
  have parsed := eq_ok_of_toOption parsed
  have mem : m ∈ u.methods := List.mem_of_getElem? declared
  use u, m, parsed, mem, of_decide_eq_true table
  apply isNumbered_of_parse parsed mem

end StackBackend
