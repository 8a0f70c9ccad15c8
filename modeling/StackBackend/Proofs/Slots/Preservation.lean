import StackBackend.Proofs.Execution.Reading
import StackBackend.Proofs.Execution.World
import StackBackend.Proofs.Slots.Allocation

/-!
# Allocation keeps the meaning

A method may be run with its variables at any addresses, as long as no instruction writes to the
address of another variable that is live after it. Two runs at such addresses stay alike in the
variables that are live. The names themselves are such addresses, and so are the slots that
allocation leaves.
-/

namespace StackBackend

variable {D : Domain} {α β : Type}

/-! ### Where control goes -/

namespace Method

variable {m : Method} {index target : Nat} {i : Instr} {label : String}

/-- Control goes on to the next instruction, unless it leaves. -/
theorem next_mem_successorsOf (stays : i.leaves = false) (inside : index + 1 < m.body.length) :
  index + 1 ∈ m.successorsOf i index
  := by
  have next : m.nextIndex? index = some (index + 1) := by rw [nextIndex?, if_pos inside]
  cases i with
  | goto | ret => simp [Instr.leaves] at stays
  | branch cond label =>
      rw [successorsOf, next]
      by_cases jump : index + 1 ∈ (m.jumpIndex? label).toList
      · apply List.mem_append_left _ jump
      · apply List.mem_append_right
        simpa using jump
  | assign | single | binary | unary | call | new | getField | putField | arrayLength =>
      simp [successorsOf, next]

/-- Control goes to the target of a jump. -/
theorem target_mem_successorsOf (jumps : i.jumpLabel? = some label)
    (found : m.labelIndex? label = some target) (inside : target < m.body.length) :
  target ∈ m.successorsOf i index
  := by
  have jump : m.jumpIndex? label = some target := by simp [jumpIndex?, found, inside]
  cases i with
  | goto label' =>
      obtain rfl : label' = label := by simpa [Instr.jumpLabel?] using jumps
      simp [successorsOf, jump]
  | branch cond label' =>
      obtain rfl : label' = label := by simpa [Instr.jumpLabel?] using jumps
      simp [successorsOf, jump]
  | assign | single | binary | unary | ret | call | new | getField | putField | arrayLength =>
      simp [Instr.jumpLabel?] at jumps

end Method

/-! ### Addresses that keep live variables apart -/

/-- The variables that are written have addresses, which are not those of other variables that are
live afterwards. -/
structure Method.Separates (m : Method) (address : String → Option α) : Prop where
  located : ∀ i ∈ m.body, ∀ x ∈ i.defs, (address x).isSome
  apart : ∀ (index : Nat) (i : Instr) (next : Nat) (x y : String), m.body[index]? = some i →
    x ∈ i.defs → next ∈ m.successorsOf i index → LiveAt m.flowNodes y next → x ≠ y →
    address x ≠ address y

/-- With a cell for each name the variables are apart. -/
theorem Method.separates_some (m : Method) :
  m.Separates some
  where
  located _ _ _ _ := rfl
  apart _ _ _ _ _ _ _ _ _ different := by simpa using different

/-- A variable that has been written. -/
theorem fetch_update_self [DecidableEq α] {address : String → Option α} {x : String} {a : α}
    (at_a : address x = some a) (cells : α → D.Value) (v : D.Value) :
  fetch address (Function.update cells a v) x = .ok v
  := by
  simp [fetch, at_a]

/-- A variable with another address keeps its value. -/
theorem fetch_update_of_ne [DecidableEq α] {address : String → Option α} {x y : String} {a : α}
    (at_a : address x = some a) (different : address x ≠ address y) (cells : α → D.Value)
    (v : D.Value) :
  fetch address (Function.update cells a v) y = fetch address cells y
  := by
  unfold fetch
  cases at_b : address y with
  | none => rfl
  | some b =>
      have other : b ≠ a := by
        rintro rfl
        apply different (at_a.trans at_b.symm)
      simp [Function.update_of_ne other]

section Simulation

variable [DecidableEq α] [DecidableEq β] {u : ClassUnit} {m : Method} {address : String → Option α}
  {address' : String → Option β}

/-- The variables that are live at an index have the same values at both places. -/
def Method.AgreeAt (m : Method) (address : String → Option α) (address' : String → Option β)
    (index : Nat) (cells : α → D.Value) (cells' : β → D.Value) : Prop :=
  ∀ x, LiveAt m.flowNodes x index → fetch address cells x = fetch address' cells' x

/-- After an instruction the variables that are live at a successor have the same values, if those
that were live before it had: one value is written at both places, and over no live variable. -/
theorem Method.AgreeAt.written {δ : Discipline D u} {index next : Nat} {i : Instr} {cells d : α → D.Value}
    {cells' d' : β → D.Value} (sep : m.Separates address) (sep' : m.Separates address')
    (at_index : m.body[index]? = some i) (agree : m.AgreeAt address address' index cells cells')
    (written : Written δ i address address' cells cells' d d')
    (goes : next ∈ m.successorsOf i index) :
  m.AgreeAt address address' next d d'
  := by
  intro y live
  cases written with
  | none free => apply agree y (liveAt_of_successor at_index goes (free y) live)
  | @one x a b v _ defs at_a at_b =>
      by_cases same : x = y
      · subst same
        rw [fetch_update_self at_a, fetch_update_self at_b]
      · have x_def : x ∈ i.defs := (defs x).2 rfl
        have kept : y ∉ i.defs := fun hy => same ((defs y).1 hy).symm
        rw [fetch_update_of_ne at_a (sep.apart index i next x y at_index x_def goes live same),
          fetch_update_of_ne at_b (sep'.apart index i next x y at_index x_def goes live same)]
        apply agree y (liveAt_of_successor at_index goes kept live)

/-- Two states of the same method are alike: control is at the same place, the heaps are the same, and
so are the values of the live variables. -/
structure Method.Alike (m : Method) (address : String → Option α) (address' : String → Option β)
    (s : State D (α → D.Value)) (t : State D (β → D.Value)) : Prop where
  index : s.index = t.index
  heap : s.heap = t.heap
  agree : m.AgreeAt address address' s.index s.data t.data

/-- The places that control goes to after an instruction at two kinds of addresses meet. -/
theorem Method.follow_meets {δ : Discipline D u} {index : Nat} {i : Instr} {cells : α → D.Value} {cells' : β → D.Value}
    (sep : m.Separates address) (sep' : m.Separates address')
    (at_index : m.body[index]? = some i) (agree : m.AgreeAt address address' index cells cells')
    {next : Next (α → D.Value) D.Value} {next' : Next (β → D.Value) D.Value}
    (both : Next.Both (Written δ i address address' cells cells') next next')
    (given : (i.exec u address cells).Gives next) :
  Control.Meets (m.Alike (D := D) address address')
    ((program u address D m).follow (index + 1) next)
    ((program u address' D m).follow (index + 1) next')
  := by
  have goes := Instr.exec_gives u address given
  cases both with
  | on related =>
      intro h
      use rfl, rfl
      intro x live
      have inside : index + 1 < m.body.length := lt_length_of_liveAt live
      apply agree.written sep sep' at_index related (next_mem_successorsOf goes inside) x live
  | jump label related =>
      simp only [Control.follow, program]
      cases found : m.labelIndex? label with
      | none => rfl
      | some target =>
          intro h
          use rfl, rfl
          intro x live
          have inside : target < m.body.length := lt_length_of_liveAt live
          apply agree.written sep sep' at_index related
            (target_mem_successorsOf goes found inside) x live
  | ret v => rfl

/-- A method run at two kinds of addresses that keep live variables apart goes the same way. -/
theorem Method.follows_of_separates (sep : m.Separates address) (sep' : m.Separates address') :
  Follows (program u address D m).automaton (program u address' D m).automaton
    (m.Alike address address')
  := by
  apply Control.follows_of_does
  rintro ⟨index, cells, heap⟩ ⟨index', cells', heap'⟩ ⟨rfl, rfl, agree⟩
  refine ⟨rfl, _, .perform, ?_⟩
  simp only [Control.perform, program]
  cases at_index : m.body[index]? with
  | none => exact .pure rfl
  | some i =>
      have mem : i ∈ m.body := List.mem_of_getElem? at_index
      have same (x : String) (used : x ∈ i.uses) : fetch address cells x = fetch address' cells' x := by
        apply agree x (liveAt_of_uses at_index used)
      have located (x : String) (defined : x ∈ i.defs) : (address x).isSome = (address' x).isSome := by
        rw [sep.located i mem x defined, sep'.located i mem x defined]
      apply (Instr.exec_rel (u := u) same located).with_gives.map
      rintro next next' ⟨both, given⟩
      apply follow_meets sep sep' at_index agree both given

end Simulation

/-! ### Allocated slots -/

namespace Method

variable {m : Method} {k : Nat} {x y : String} {n : Nat}

/-- What allocation is given: each variable that is read or written is in the table, no entry is a
field, and pinned variables have slots of their own. -/
structure Allocatable (m : Method) : Prop where
  entered : ∀ i ∈ m.body, ∀ x, x ∈ i.uses ∨ x ∈ i.defs → x ∈ m.vars
  unfielded : ∀ (x : String) (v : Variable), m.vars[x]? = some v → v.scope ≠ .field
  pinned : ∀ (x y : String) (n : Nat), m.vars.pinnedSlot? x = some n →
    m.vars.pinnedSlot? y = some n → x = y

/-- What is asked of the table of a method can be checked. -/
theorem allocatable_iff :
  m.Allocatable
    ↔ (∀ i ∈ m.body, ∀ x ∈ i.uses.toList ++ i.defs.toList, x ∈ m.vars)
      ∧ (∀ e ∈ m.vars.toList, e.2.scope ≠ .field)
      ∧ ∀ e ∈ m.vars.toList, ∀ f ∈ m.vars.toList, e.2.isPinned = true → f.2.isPinned = true →
        e.2.slot = f.2.slot → e.1 = f.1
  := by
  constructor
  · intro ready
    and_intros
    · intro i mem x hx
      apply ready.entered i mem x
      simpa using hx
    · intro e he
      apply ready.unfielded e.1 e.2 (Std.ExtTreeMap.mem_toList_iff_getElem?_eq_some.1 he)
    · intro e he f hf pe pf same
      apply ready.pinned e.1 f.1 e.2.slot
      · apply VarTable.pinnedSlot?_eq_some.2
        use e.2
        and_intros
        · apply Std.ExtTreeMap.mem_toList_iff_getElem?_eq_some.1 he
        · apply pe
        · rfl
      · apply VarTable.pinnedSlot?_eq_some.2
        use f.2
        and_intros
        · apply Std.ExtTreeMap.mem_toList_iff_getElem?_eq_some.1 hf
        · apply pf
        · apply same.symm
  · rintro ⟨entered, unfielded, pinned⟩
    constructor
    · intro i mem x hx
      apply entered i mem x
      simpa using hx
    · intro x v entry
      apply unfielded (x, v) (Std.ExtTreeMap.mem_toList_iff_getElem?_eq_some.2 entry)
    · intro x y n px py
      obtain ⟨v, entry, fixed, rfl⟩ := VarTable.pinnedSlot?_eq_some.1 px
      obtain ⟨w, entry', fixed', same⟩ := VarTable.pinnedSlot?_eq_some.1 py
      apply pinned (x, v) (Std.ExtTreeMap.mem_toList_iff_getElem?_eq_some.2 entry) (y, w)
        (Std.ExtTreeMap.mem_toList_iff_getElem?_eq_some.2 entry') fixed fixed' same.symm

instance (m : Method) : Decidable m.Allocatable := decidable_of_iff' _ allocatable_iff

/-- A pinned variable keeps its slot. -/
theorem slotOf_allocated_of_pinned (body : m.body ≠ []) (pinned : m.vars.pinnedSlot? x = some n) :
  (m.allocated k).slotOf x = some n
  := by
  obtain ⟨v, entry, fixed, rfl⟩ := VarTable.pinnedSlot?_eq_some.1 pinned
  rw [slotOf, allocated_pinned body entry fixed, Option.map_some]

/-- Any other variable gets the slot of its color. -/
theorem slotOf_allocated_of_free (ready : m.Allocatable) (body : m.body ≠ []) (mem : x ∈ m.vars)
    (free : m.vars.pinnedSlot? x = none) :
  ∃ n, (m.coloring k).slots[x]? = some n ∧ (m.allocated k).slotOf x = some n
  := by
  rw [Std.ExtTreeMap.mem_iff_isSome_getElem?, Option.isSome_iff_exists] at mem
  obtain ⟨v, entry⟩ := mem
  have unpinned : v.isPinned = false := by simpa [VarTable.pinnedSlot?, entry] using free
  obtain ⟨n, given, allocated⟩ :=
    allocated_temporary (k := k) body entry unpinned (ready.unfielded x v entry)
  use n, given
  rw [slotOf, allocated, Option.map_some]

/-- A slot that was given is none of a pinned variable. -/
theorem pinnedSlot_lt_coloring {n' : Nat} (pinned : m.vars.pinnedSlot? x = some n)
    (given : (m.coloring k).slots[y]? = some n') :
  n < n'
  := by
  obtain ⟨v, entry, fixed, rfl⟩ := VarTable.pinnedSlot?_eq_some.1 pinned
  have low := VarTable.pinned_lt_firstFree entry fixed
  have high := (Graph.color_fits _ m.vars k).free y n' given
  omega

/-- Without fields every name may take a slot. -/
theorem takesSlot_of_unfielded (unfielded : ∀ (x : String) (v : Variable),
    m.vars[x]? = some v → v.scope ≠ .field) (x : String) :
  m.vars.takesSlot x = true
  := by
  unfold VarTable.takesSlot
  split
  · next v entry => simpa using unfielded x v entry
  · rfl

/-- Variables that interfere do not share a slot. -/
theorem slotOf_allocated_ne
    (pinned : ∀ (x y : String) (n : Nat), m.vars.pinnedSlot? x = some n →
      m.vars.pinnedSlot? y = some n → x = y)
    (body : m.body ≠ []) (joined : y ∈ (m.interference m.liveness).neighbors x)
    (slot : (m.allocated k).slotOf x = some n) :
  (m.allocated k).slotOf y ≠ some n
  := by
  intro slot'
  obtain ⟨different, takes, takes', alive, mem, hx, hy⟩ := mem_neighbors_interference.1 joined
  have node := contains_interference.2 ⟨takes, .inr ⟨alive, mem, hx⟩⟩
  have node' := contains_interference.2 ⟨takes', .inr ⟨alive, mem, hy⟩⟩
  obtain px | given := slotOf_allocated body node slot
  · obtain py | given' := slotOf_allocated body node' slot'
    · apply different (pinned x y n px py)
    · apply Nat.lt_irrefl n (pinnedSlot_lt_coloring px given')
  · obtain py | given' := slotOf_allocated body node' slot'
    · apply Nat.lt_irrefl n (pinnedSlot_lt_coloring py given)
    · apply (Graph.color_fits _ m.vars k).apart x y n given given' joined

/-- The slots that allocation leaves keep live variables apart, if the variables that are written have
slots. -/
theorem separates_of_located
    (unfielded : ∀ (x : String) (v : Variable), m.vars[x]? = some v → v.scope ≠ .field)
    (pinned : ∀ (x y : String) (n : Nat), m.vars.pinnedSlot? x = some n →
      m.vars.pinnedSlot? y = some n → x = y)
    (located : ∀ i ∈ m.body, ∀ x ∈ i.defs, ((m.allocated k).slotOf x).isSome) :
  m.Separates (m.allocated k).slotOf
  := by
  use located
  intro index i next x y at_index written goes live different
  have mem : i ∈ m.body := List.mem_of_getElem? at_index
  obtain ⟨n, slot⟩ := Option.isSome_iff_exists.1 (located i mem x written)
  have takes := takesSlot_of_unfielded unfielded
  have joined := interferes_of_liveAt at_index written goes live different (takes x) (takes y)
  rw [slot]
  apply (slotOf_allocated_ne pinned (List.ne_nil_of_mem mem) joined slot).symm

/-- A live variable has an entry. -/
theorem Allocatable.mem_of_liveAt (ready : m.Allocatable) {index : Nat}
    (live : LiveAt m.flowNodes x index) :
  x ∈ m.vars
  := by
  obtain ⟨i, mem, used⟩ := exists_uses_of_liveAt live
  apply ready.entered i mem x (.inl used)

/-- Variables that are live together have different slots, pinned or not. -/
theorem separates_allocated (ready : m.Allocatable) (k : Nat) :
  m.Separates (m.allocated k).slotOf
  := by
  apply separates_of_located ready.unfielded ready.pinned
  intro i mem x hx
  have body : m.body ≠ [] := List.ne_nil_of_mem mem
  cases px : m.vars.pinnedSlot? x with
  | some n => simp [slotOf_allocated_of_pinned body px]
  | none =>
      have entered := ready.entered i mem x (.inr hx)
      obtain ⟨n, -, slot⟩ := slotOf_allocated_of_free (k := k) ready body entered px
      simp [slot]

/-! ### The cells at the start -/

/-- At the start pinned variables have the values they are given, and all others the default. -/
def namedCells {V : Type} (m : Method) (args : String → V) (default : V) (x : String) : V :=
  if (m.vars.pinnedSlot? x).isSome then args x else default

/-- At the start the slots of pinned variables have the values of those, and all others the
default. -/
def slotCells {V : Type} (m : Method) (args : String → V) (default : V) (n : Nat) : V :=
  match m.vars.keys.find? fun x => m.vars.pinnedSlot? x = some n with
  | some x => args x
  | none => default

/-- The slot of a pinned variable holds its argument at the start. -/
theorem slotCells_of_pinned {V : Type} (ready : m.Allocatable)
    (pinned : m.vars.pinnedSlot? x = some n) (args : String → V) (default : V) :
  m.slotCells args default n = args x
  := by
  have found : m.vars.keys.find? (fun x => m.vars.pinnedSlot? x = some n) = some x := by
    have some_found : (m.vars.keys.find? fun x => m.vars.pinnedSlot? x = some n).isSome := by
      rw [List.find?_isSome]
      obtain ⟨v, entry, -, -⟩ := VarTable.pinnedSlot?_eq_some.1 pinned
      refine ⟨x, ?_, by simpa using pinned⟩
      rw [Std.ExtTreeMap.mem_keys, Std.ExtTreeMap.mem_iff_isSome_getElem?, entry]
      rfl
    obtain ⟨y, found⟩ := Option.isSome_iff_exists.1 some_found
    have same : m.vars.pinnedSlot? y = some n := by simpa using List.find?_some found
    rw [found, ready.pinned x y n pinned same]
  rw [slotCells, found]

/-- The slot of any other variable holds the default. -/
theorem slotCells_of_coloring {V : Type} (given : (m.coloring k).slots[x]? = some n)
    (args : String → V) (default : V) :
  m.slotCells args default n = default
  := by
  have absent : m.vars.keys.find? (fun x => m.vars.pinnedSlot? x = some n) = none := by
    rw [List.find?_eq_none]
    intro y _ pinned
    have lt := pinnedSlot_lt_coloring (of_decide_eq_true pinned) given
    omega
  rw [slotCells, absent]

/-- At the start the variables have the same values by name and by slot. -/
theorem agreeAt_start (ready : m.Allocatable) (args : String → D.Value) (default : D.Value) :
  m.AgreeAt some (m.allocated k).slotOf 0 (m.namedCells args default) (m.slotCells args default)
  := by
  intro x live
  have body : m.body ≠ [] := List.length_pos_iff.1 (lt_length_of_liveAt live)
  simp only [fetch, namedCells]
  cases px : m.vars.pinnedSlot? x with
  | some n =>
      rw [slotOf_allocated_of_pinned body px]
      simp [slotCells_of_pinned ready px]
  | none =>
      obtain ⟨n, given, slot⟩ :=
        slotOf_allocated_of_free (k := k) ready body (ready.mem_of_liveAt live) px
      rw [slot]
      simp [slotCells_of_coloring given]

end Method

/-- Allocation keeps the meaning of a method: run with a cell for each name, and run with a cell for
each slot that allocation leaves, it makes the same requests and ends alike. -/
theorem allocated_sameBehaviour {m : Method} (ready : m.Allocatable) (u : ClassUnit) (D : Domain)
    (k : Nat) (args : String → D.Value) (default : D.Value) (heap : D.Heap) :
  Automaton.SameBehaviour
    (program u some D m).automaton ⟨0, m.namedCells args default, heap⟩
    (program u (m.allocated k).slotOf D (m.allocated k)).automaton
    ⟨0, m.slotCells args default, heap⟩
  := by
  have same : program u (m.allocated k).slotOf D (m.allocated k)
      = program u (m.allocated k).slotOf D m := by
    rw [program, program, m.allocated_with_vars k]
    rfl
  rw [same]
  apply (Method.follows_of_separates m.separates_some (m.separates_allocated ready k)).sameBehaviour
  use rfl, rfl, m.agreeAt_start ready args default

/-- A method with a loop whose two temporaries are never live together. -/
def halving : Method where
  name := "halving"
  access := .everyone
  isStatic := true
  isConstructor := false
  params := [⟨"n", .int⟩]
  ret := .int
  body := [
    .assign (.var "half" .int) .int (.binary .div (.var "n" .int) (.literal "2" .int) .int),
    .assign (.var "n" .int) .int (.single (.var "half" .int)),
    .assign (.var "more" .bool) .bool (.binary .gt (.var "n" .int) (.literal "9" .int) .bool),
    .branch (.test (.var "more" .bool)) "again",
    .ret .int (some (.var "n" .int))]
  labels := [("again", 0)]
  vars := Std.ExtTreeMap.ofList [("half", Variable.mk .temporary 1 .int),
    ("more", Variable.mk .temporary 2 .bool), ("n", Variable.mk .parameter 0 .int)]

/-- A method in which two variables share a slot. -/
theorem halving_allocated_sameBehaviour :
  halving.Allocatable
    ∧ (halving.allocated 1).slotOf "half" = some 1 ∧ (halving.allocated 1).slotOf "more" = some 1
    ∧ Automaton.SameBehaviour
      (program ⟨"Halves", none, [], [], [halving]⟩ some World.barren.domain halving).automaton
      ⟨0, halving.namedCells (fun _ => .int 100) (.int 0), ()⟩
      (program ⟨"Halves", none, [], [], [halving]⟩ (halving.allocated 1).slotOf World.barren.domain
        (halving.allocated 1)).automaton
      ⟨0, halving.slotCells (fun _ => .int 100) (.int 0), ()⟩
  := by
  have ready : halving.Allocatable := by decide +kernel
  use ready
  and_intros
  · decide +kernel
  · decide +kernel
  · apply allocated_sameBehaviour ready _ World.barren.domain 1 _ _ _

end StackBackend
