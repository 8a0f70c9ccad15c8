import Mathlib.Data.List.Perm.Subperm
import StackBackend.Proofs.Slots.Needed
import StackBackend.Proofs.Slots.Preservation

/-!
# How far allocation widens a frame

A coloring needs no more slots than there are nodes, and among nodes that are not joined to each other one
more than there are others. Without allocation each variable that the code touches has a slot of its own;
those whose slots are fused away are each passed from one instruction to the next and not joined to each
other. So allocation widens the frame of a method by one slot at most, and only where a variable was fused
away that lay beyond the frame.
-/

namespace StackBackend

/-! ### Slots among some of the nodes -/

/-- All neighbours are singled out, as kept or as lone, and lone ones are not joined to each other. -/
structure Graph.Splits (g : Graph) (kept lone : String → Bool) : Prop where
  cover : ∀ x y, y ∈ g.neighbors x → kept y = true ∨ lone y = true
  apart : ∀ x y, y ∈ g.neighbors x → lone x = true → lone y = false

namespace Coloring

variable {g : Graph} {vars : VarTable} {k : Nat} {c : Coloring} {done : List String} {kept lone : String → Bool}

/-- The slots that the nodes singled out may take: one for each that is kept, and one for all others. -/
def room (kept lone : String → Bool) (nodes : List String) : Nat :=
  nodes.countP kept + if nodes.any lone then 1 else 0

/-- A further node takes no room away. -/
theorem room_le_room_cons (kept lone : String → Bool) (x : String) (nodes : List String) :
  room kept lone nodes ≤ room kept lone (x :: nodes)
  := by
  unfold room
  apply Nat.add_le_add
  · apply (List.sublist_cons_self x nodes).countP_le
  · split
    · next some => simp [some]
    · apply Nat.zero_le

/-- The room of some nodes does not depend on their order. -/
theorem room_perm {nodes nodes' : List String} (same : nodes.Perm nodes') :
  room kept lone nodes = room kept lone nodes'
  := by
  have some : nodes.any lone = nodes'.any lone := by
    rw [Bool.eq_iff_iff, List.any_eq_true, List.any_eq_true]
    simp only [same.mem_iff]
  rw [room, room, same.countP_eq, some]

/-- The nodes singled out that have slots keep to their room. -/
def Tight (kept lone : String → Bool) (done : List String) (c : Coloring) : Prop :=
  ∀ (x : String) (n : Nat), kept x = true ∨ lone x = true → c.slots[x]? = some n →
    n < c.offset + room kept lone done

/-- A lone node gets one of the first slots, as many as there are kept ones. -/
theorem choice_le_countP (splits : g.Splits kept lone) (fits : Fits g vars done c) {x : String}
    (alone : lone x = true) :
  c.choice g vars x ≤ done.countP kept
  := by
  rw [List.countP_eq_length_filter]
  apply choice_le_length fits
  intro y joined placed
  rw [List.mem_filter]
  use placed
  apply (splits.cover x y joined).resolve_right
  simp [splits.apart x y joined alone]

/-- A further node keeps to the room. A lone one gets one of the first slots, and for a kept one the first
slot after the room is that of no neighbour. -/
theorem place_tight (splits : g.Splits kept lone) (fits : Fits g vars done c) (tight : Tight kept lone done c)
    (x : String) :
  Tight kept lone (x :: done) (c.place g vars k x)
  := by
  intro y n single given
  rw [getElem?_place] at given
  rw [place_offset]
  split at given
  · next same =>
      subst same
      obtain rfl := Option.some.inj given
      apply Nat.add_lt_add_left
      cases alone : lone x with
      | true =>
          have few := choice_le_countP splits fits alone
          simp only [room, List.countP_cons, List.any_cons, alone, Bool.true_or, if_true]
          omega
      | false =>
          have mine : kept x = true := by simpa [alone] using single
          have grown : room kept lone (x :: done) = room kept lone done + 1 := by
            simp only [room, List.countP_cons, List.any_cons, alone, mine, Bool.false_or, if_true]
            omega
          rw [grown, Nat.lt_succ_iff]
          apply Nat.le_of_not_lt
          intro passed
          obtain ⟨z, joined, held⟩ := exists_neighbor_of_lt fits passed
          have lt := tight z _ (splits.cover x z joined) held
          omega
  · have lt := tight y n single given
    have le := room_le_room_cons kept lone x done
    omega

end Coloring

/-- The nodes singled out keep to their room in a coloring of the graph. -/
theorem Graph.color_slot_lt_room {g : Graph} {vars : VarTable} {k n : Nat} {kept lone : String → Bool}
    (splits : g.Splits kept lone) {x : String} (single : kept x = true ∨ lone x = true)
    (given : (g.color vars k).slots[x]? = some n) :
  n < vars.firstFree
    + Coloring.room kept lone (g.nodes.filter fun x => (vars.pinnedSlot? x).isNone)
  := by
  obtain ⟨done, perm, fits, tight⟩ := g.color_induction vars k (P := Coloring.Tight kept lone)
    (by simp [Coloring.Tight]) fun _ _ x fits _ _ tight => Coloring.place_tight splits fits tight x
  have lt := tight x n single given
  rwa [Coloring.room_perm perm, fits.offset] at lt

/-! ### Variables that are passed on -/

namespace Method

variable {m : Method} {x y : String} {d e j : Nat} {i : Instr}

/-- An instruction without a label comes after the one before it alone. -/
theorem eq_of_succ_mem_successorsOf (straight : m.labelsAt (d + 1) = [])
    (next : d + 1 ∈ m.successorsOf i j) :
  j = d
  := by
  have nowhere (label : String) : m.jumpIndex? label ≠ some (d + 1) := by
    intro jump
    have mem := mem_labelsAt_of_labelIndex? (Option.filter_eq_some_iff.1 jump).1
    simp [straight] at mem
  have onward (found : m.nextIndex? j = some (d + 1)) : j = d := by
    unfold nextIndex? at found
    split at found
    · simpa using found
    · cases found
  cases i with
  | goto label => apply (nowhere label (by simpa [successorsOf] using next)).elim
  | branch cond label =>
      simp only [successorsOf, List.mem_append, List.mem_filter, Option.mem_toList] at next
      obtain jump | ⟨found, -⟩ := next
      · apply (nowhere label jump).elim
      · apply onward found
  | ret => simp [successorsOf] at next
  | assign | single | binary | unary | call | new | getField | putField | arrayLength =>
      apply onward (by simpa [successorsOf] using next)

/-- A variable that is passed on is live before its reader alone. -/
theorem Passes.eq_of_liveAt (passes : m.Passes x d) (live : LiveAt m.flowNodes x j) :
  j = d + 1
  := by
  induction live with
  | read at_j used =>
      rw [getElem?_flowNodes, Option.map_eq_some_iff] at at_j
      obtain ⟨i, at_j, rfl⟩ := at_j
      apply passes.reads _ i at_j used
  | onward at_j kept next _ ih =>
      rw [getElem?_flowNodes, Option.map_eq_some_iff] at at_j
      obtain ⟨i, at_j, rfl⟩ := at_j
      subst ih
      obtain rfl := eq_of_succ_mem_successorsOf passes.straight next
      obtain ⟨i', at_j', defined⟩ := passes.writer
      obtain rfl := Option.some.inj (at_j.symm.trans at_j')
      apply (kept defined).elim

/-- What is occupied after an instruction is written by it or live before a successor. -/
theorem exists_of_mem_occupiedSets {alive : NameSet} (mem : alive ∈ m.liveness.occupiedSets) :
  ∃ j i, m.body[j]? = some i
    ∧ ∀ x, x ∈ alive ↔ x ∈ i.defs ∨ ∃ s ∈ m.successorsOf i j, LiveAt m.flowNodes x s
  := by
  obtain ⟨j, at_j⟩ := List.mem_iff_getElem?.1 mem
  rw [getElem?_occupiedSets, Option.map_eq_some_iff] at at_j
  obtain ⟨i, at_j, rfl⟩ := at_j
  use j, i, at_j
  intro x
  rw [← mem_livenessInOrder_after m.mem_reverse_range_body at_j]
  apply Std.ExtTreeSet.mem_union_iff

/-- A variable that occupies a slot somewhere is one of the body. -/
theorem mentions_of_mem_occupiedSets {alive : NameSet} (mem : alive ∈ m.liveness.occupiedSets)
    (occupied : x ∈ alive) :
  m.Mentions x
  := by
  obtain ⟨j, i, at_j, held⟩ := exists_of_mem_occupiedSets mem
  obtain defined | ⟨s, -, live⟩ := (held x).1 occupied
  · use i, List.mem_of_getElem? at_j
    right
    apply defined
  · obtain ⟨i', listed, used⟩ := exists_uses_of_liveAt live
    use i', listed
    left
    apply used

/-- A variable that is passed on is occupied after its writer alone. -/
theorem Passes.eq_of_occupied (passes : m.Passes x d) (at_j : m.body[j]? = some i)
    (occupied : x ∈ i.defs ∨ ∃ s ∈ m.successorsOf i j, LiveAt m.flowNodes x s) :
  j = d
  := by
  obtain defined | ⟨s, next, live⟩ := occupied
  · apply passes.writes j i at_j defined
  · obtain rfl := passes.eq_of_liveAt live
    apply eq_of_succ_mem_successorsOf passes.straight next

/-- Variables that are passed on are not joined to each other: both would be written by one instruction, and
an instruction writes one variable at most. -/
theorem Passes.not_joined (passes : m.Passes x d) (passes' : m.Passes y e) :
  y ∉ (m.interference m.liveness).neighbors x
  := by
  rw [mem_neighbors_interference]
  rintro ⟨different, -, -, alive, mem, at_x, at_y⟩
  obtain ⟨j, i, at_j, held⟩ := exists_of_mem_occupiedSets mem
  obtain rfl := passes.eq_of_occupied at_j ((held x).1 at_x)
  obtain rfl := passes'.eq_of_occupied at_j ((held y).1 at_y)
  obtain ⟨i₁, at₁, defined⟩ := passes.writer
  obtain ⟨i₂, at₂, defined'⟩ := passes'.writer
  obtain rfl := Option.some.inj (at₁.symm.trans at₂)
  obtain ⟨ty, target⟩ := Instr.mem_defs.1 defined
  obtain ⟨ty', target'⟩ := Instr.mem_defs.1 defined'
  have same := Option.some.inj (target.symm.trans target')
  injection same with same
  apply different same

end Method

/-! ### Slots of temporaries -/

namespace Registry

/-- The slots of variables that do not come in are not among the first `n`. -/
structure Later (n : Nat) (r : Registry) : Prop where
  next : n ≤ r.next
  slots : ∀ (x : String) (v : Variable), r.table[x]? = some v → v.isPinned = false → n ≤ v.slot

/-- A temporary gets the next slot, which is not among the first ones. -/
theorem enter_later {n : Nat} {r : Registry} (later : r.Later n) (name : String) (ty : Ty) :
  (r.enter name ty).Later n
  := by
  unfold enter
  split
  · apply later
  · use Nat.le_succ_of_le later.next
    intro x v entry free
    rw [Std.ExtTreeMap.getElem?_insert] at entry
    split at entry
    · obtain rfl := Option.some.inj entry
      apply later.next
    · apply later.slots x v entry free

/-- Parameters take a slot each and come in. -/
theorem foldl_enterParam_later {r : Registry} (pinned : ∀ (x : String) (v : Variable), r.table[x]? = some v →
    v.isPinned = true) (params : List Param) :
  (params.foldl enterParam r).Later (r.next + params.length)
  := by
  induction params generalizing r with
  | nil =>
      use Nat.le_refl _
      intro x v entry free
      simp [pinned x v entry] at free
  | cons p params ih =>
      rw [List.length_cons, Nat.add_comm params.length, ← Nat.add_assoc]
      apply ih (r := r.enterParam p)
      intro x v entry
      rw [enterParam, Std.ExtTreeMap.getElem?_insert] at entry
      split at entry
      · obtain rfl := Option.some.inj entry
        rfl
      · apply pinned x v entry

end Registry

/-- The variables of a declared method that do not come in have slots after those that do. -/
theorem entrySlots_le_slot {text : String} {u : ClassUnit} (read : parse text = .ok u) {m : Method}
    (mem : m ∈ u.methods) {x : String} {v : Variable} (entry : m.vars[x]? = some v) (free : v.isPinned = false) :
  m.entrySlots ≤ v.slot
  := by
  rw [vars_of_parse read mem] at entry
  have later : Registry.Later m.entrySlots (m.body.foldl Registry.enterInstr
      (m.params.foldl Registry.enterParam (Registry.entry m.isStatic u.name))) := by
    apply Registry.foldl_enterInstr_induction
    · intro r name ty later
      apply Registry.enter_later later
    · have start := Registry.foldl_enterParam_later (r := Registry.entry m.isStatic u.name) (by
        intro x v entry
        cases static : m.isStatic with
        | true => simp [Registry.entry, static] at entry
        | false =>
            simp only [Registry.entry, static, Bool.false_eq_true, if_false,
              Std.ExtTreeMap.getElem?_insert] at entry
            split at entry
            · obtain rfl := Option.some.inj entry
              rfl
            · simp at entry) m.params
      have slots : (Registry.entry m.isStatic u.name).next + m.params.length = m.entrySlots := by
        unfold Registry.entry Method.entrySlots
        split <;> simp [Nat.add_comm]
      rwa [slots] at start
  apply later.slots x v entry free

/-- The variables that allocation gives a slot: those in the graph that do not come in. -/
def Method.freeNodes (m : Method) : List String :=
  (m.interference m.liveness).nodes.filter fun x => (m.vars.pinnedSlot? x).isNone

theorem Method.nodup_freeNodes (m : Method) :
  m.freeNodes.Nodup
  := by
  apply List.Nodup.filter
  apply Std.ExtTreeMap.nodup_keys

/-- A variable that allocation gives a slot has one before, after those that come in. -/
theorem slot_of_mem_freeNodes {text : String} {u : ClassUnit} (read : parse text = .ok u) {m : Method}
    (mem : m ∈ u.methods) {x : String} (listed : x ∈ m.freeNodes) {slot : Nat} (found : m.slotOf x = some slot) :
  ∃ v, m.vars[x]? = some v ∧ v.isPinned = false ∧ v.slot = slot ∧ m.entrySlots ≤ slot
  := by
  obtain ⟨v, entry, rfl⟩ := Option.map_eq_some_iff.1 found
  rw [Method.freeNodes, List.mem_filter] at listed
  have unpinned : v.isPinned = false := by simpa [VarTable.pinnedSlot?, entry] using listed.2
  use v, entry, unpinned, rfl, entrySlots_le_slot read mem entry unpinned

/-! ### Frames before and after allocation -/

/-- Some of the lines touches the slot. -/
def Line.anyTouches (lines : List Line) (slot : Nat) : Bool := lines.any fun line => line.slot? = some slot

/-- A slot is touched if a line touches it. -/
theorem Line.anyTouches_iff {lines : List Line} {slot : Nat} :
  anyTouches lines slot = true ↔ ∃ line ∈ lines, line.slot? = some slot
  := by
  simp [anyTouches]

namespace Method.Declared

variable {m : Method} {xs : List String} {a b : Nat}

/-- Variables with slots in a range take each slot of it once at most. -/
theorem subperm_slots (declared : m.Declared) (once : xs.Nodup)
    (slots : ∀ x ∈ xs, ∃ slot, m.slotOf x = some slot ∧ a ≤ slot ∧ slot < b) :
  (xs.map fun x => (m.slotOf x).getD 0).Subperm (List.range' a (b - a))
  := by
  have apart : (xs.map fun x => (m.slotOf x).getD 0).Nodup := by
    apply once.map_on
    intro x hx y hy same
    obtain ⟨slot, found, -⟩ := slots x hx
    obtain ⟨slot', found', -⟩ := slots y hy
    obtain ⟨v, entry, rfl⟩ := Option.map_eq_some_iff.1 found
    obtain ⟨w, entry', rfl⟩ := Option.map_eq_some_iff.1 found'
    apply declared.apart x y v w entry entry'
    simpa [found, found'] using same
  apply List.subperm_of_subset apart
  intro n mem
  obtain ⟨x, hx, rfl⟩ := List.mem_map.1 mem
  obtain ⟨slot, found, after, before⟩ := slots x hx
  rw [found, Option.getD_some, List.mem_range'_1]
  omega

/-- Variables with slots in a range are no more than the range is long. -/
theorem length_le_of_slots (declared : m.Declared) (once : xs.Nodup)
    (slots : ∀ x ∈ xs, ∃ slot, m.slotOf x = some slot ∧ a ≤ slot ∧ slot < b) :
  xs.length ≤ b - a
  := by
  have le := (declared.subperm_slots once slots).length_le
  rwa [List.length_map, List.length_range'] at le

/-- Variables with slots in a range take all of it if they are as many as it is long. -/
theorem exists_slotOf_of_length (declared : m.Declared) (once : xs.Nodup)
    (slots : ∀ x ∈ xs, ∃ slot, m.slotOf x = some slot ∧ a ≤ slot ∧ slot < b) (full : b - a ≤ xs.length)
    {slot : Nat} (after : a ≤ slot) (before : slot < b) :
  ∃ x ∈ xs, m.slotOf x = some slot
  := by
  have same := (declared.subperm_slots once slots).perm_of_length_le (by simpa using full)
  have mem : slot ∈ xs.map fun x => (m.slotOf x).getD 0 := by
    rw [same.mem_iff, List.mem_range'_1]
    omega
  obtain ⟨x, hx, rfl⟩ := List.mem_map.1 mem
  obtain ⟨slot, found, -⟩ := slots x hx
  use x, hx
  rw [found, Option.getD_some]

end Method.Declared

section Frames

variable {u : ClassUnit} {m : Method} {code : MethodCode} {body : List Line} {left : LabelSupply} {f f' : Frame}
  {x y : String}

/-- The code touches the slot of the variable. -/
def MethodCode.keeps (code : MethodCode) (m : Method) (x : String) : Bool :=
  (m.slotOf x).any (Line.anyTouches code.listing.lines)

/-- The lines touch the slot of the variable before increments are fused, and the code does not. -/
def MethodCode.drops (code : MethodCode) (m : Method) (lines : List Line) (x : String) : Bool :=
  (m.slotOf x).any fun slot => Line.anyTouches lines slot && !Line.anyTouches code.listing.lines slot

namespace MethodCode.Made

/-- A variable of the body keeps a slot in the code, or is dropped by a fused increment. -/
theorem keeps_or_drops (made : Made u m code body left f f') (mentioned : m.Mentions x) :
  code.keeps m x = true ∨ code.drops m (body ++ m.closing f) x = true
  := by
  obtain ⟨slot, found⟩ := Option.isSome_iff_exists.1 (made.isSome_slotOf_of_mentions mentioned)
  have touched := Line.anyTouches_iff.2 (made.touched_iff.2 ⟨x, mentioned, found⟩)
  simp only [keeps, drops, found, Option.any_some, touched, Bool.true_and]
  cases Line.anyTouches code.listing.lines slot <;> simp

/-- A variable that is dropped is passed on. -/
theorem passes_of_drops (made : Made u m code body left f f') (declared : m.Declared)
    (drops : code.drops m (body ++ m.closing f) x = true) :
  ∃ d, m.Passes x d
  := by
  obtain ⟨slot, found, gone⟩ := (Option.any_eq_true _ _).1 drops
  rw [Bool.and_eq_true, Bool.not_eq_true'] at gone
  have own (y : String) (found' : m.slotOf y = some slot) : y = x := by
    obtain ⟨v, entry, same⟩ := Option.map_eq_some_iff.1 found
    obtain ⟨w, entry', same'⟩ := Option.map_eq_some_iff.1 found'
    apply declared.apart y x w v entry' entry (same'.trans same.symm)
  obtain ⟨z, mentioned, found'⟩ := made.touched_iff.1 (Line.anyTouches_iff.1 gone.1)
  obtain rfl := own z found'
  apply made.passes_of_gone mentioned found own
  intro line mem touched
  have some := Line.anyTouches_iff.2 ⟨line, mem, touched⟩
  simp [some] at gone

/-- Every neighbour is kept or dropped, and what is dropped is passed on, so that it is not joined to what
else is dropped. -/
theorem splits (made : Made u m code body left f f') (declared : m.Declared) :
  (m.interference m.liveness).Splits (code.keeps m) (code.drops m (body ++ m.closing f))
  := by
  constructor
  · intro x y joined
    obtain ⟨-, -, -, alive, mem, -, occupied⟩ := Method.mem_neighbors_interference.1 joined
    apply made.keeps_or_drops (Method.mentions_of_mem_occupiedSets mem occupied)
  · intro x y joined drops
    cases drops' : code.drops m (body ++ m.closing f) y with
    | false => rfl
    | true =>
        obtain ⟨d, passes⟩ := made.passes_of_drops declared drops
        obtain ⟨e, passes'⟩ := made.passes_of_drops declared drops'
        apply (passes.not_joined passes' joined).elim

/-- After allocation the frame of the code takes the slots that come in and the room of the others. -/
theorem maxSlots_le_room (made : Made u m code body left f f') (declared : m.Declared) {k : Nat} {u' : ClassUnit}
    {code' : MethodCode} {body' : List Line} {left' : LabelSupply} {g g' : Frame}
    (made' : Made u' (m.allocated k) code' body' left' g g') :
  code'.listing.frame.maxSlots ≤ m.entrySlots
    + Coloring.room (code.keeps m) (code.drops m (body ++ m.closing f)) m.freeNodes
  := by
  rw [made'.maxSlots_le_iff]
  constructor
  · rw [m.allocated_with_vars k]
    apply Nat.le_add_right
  · intro line mem slot touched
    obtain ⟨x, mentioned, found⟩ := made'.exists_mentions_of_touched mem touched
    have mentioned : m.Mentions x := by
      rw [m.allocated_with_vars k] at mentioned
      apply mentioned
    obtain pinned | given := declared.slotOf_allocated_cases mentioned.body_ne_nil found
    · have lt := declared.pinnedSlot_lt pinned
      omega
    · have lt := Graph.color_slot_lt_room (made.splits declared) (made.keeps_or_drops mentioned) given
      have le := declared.firstFree_le
      rw [Method.freeNodes]
      omega

/-- A variable that is neither pinned nor dropped, but kept, has a slot of its own in the frame. -/
theorem slot_of_keeps (made : Made u m code body left f f') (keeps : code.keeps m x = true) :
  ∃ slot, m.slotOf x = some slot ∧ slot < code.listing.frame.maxSlots
  := by
  obtain ⟨slot, found, touched⟩ := (Option.any_eq_true _ _).1 keeps
  obtain ⟨line, mem, touched⟩ := Line.anyTouches_iff.1 touched
  use slot, found, (made.maxSlots_le_iff.1 (Nat.le_refl _)).2 line mem slot touched

/-- The number of increments that are fused. -/
theorem fused_eq (made : Made u m code body left f f') (coded : u.methodCode m = .ok code) :
  code.fused = (fuseIncrements (body ++ m.closing f)).2
  := by
  have written : u.lowerBody m (.ofLabels (m.labels.map Prod.fst)) = (body, .ok ((), left)) := made.writes
  simp only [ClassUnit.methodCode, written, Listing.pushAll_eq, Listing.close_eq, Listing.start, made.counted,
    Except.map, mapError_ok, bind, Except.bind, made.closed] at coded
  split at coded
  · cases coded
  · obtain rfl := Except.ok.inj coded
    rfl

/-- A variable that is dropped has been fused away. -/
theorem fused_pos_of_drops (made : Made u m code body left f f') (coded : u.methodCode m = .ok code)
    (drops : code.drops m (body ++ m.closing f) x = true) :
  0 < code.fused
  := by
  apply Nat.pos_of_ne_zero
  intro none
  rw [made.fused_eq coded] at none
  obtain ⟨slot, -, gone⟩ := (Option.any_eq_true _ _).1 drops
  have same : code.listing.lines = body ++ m.closing f := by
    rw [made.lines]
    apply fuseIn_of_count_eq_zero none
  rw [same, Bool.and_not_self] at gone
  cases gone

/-- A kept variable that allocation gives a slot has a slot of its own in the frame after those that come
in. -/
theorem slot_of_kept (made : Made u m code body left f f') {text : String} (read : parse text = .ok u)
    (mem : m ∈ u.methods) (listed : x ∈ m.freeNodes.filter (code.keeps m)) :
  ∃ slot, m.slotOf x = some slot ∧ m.entrySlots ≤ slot ∧ slot < code.listing.frame.maxSlots
  := by
  rw [List.mem_filter] at listed
  obtain ⟨slot, found, lt⟩ := made.slot_of_keeps listed.2
  obtain ⟨v, -, -, -, after⟩ := slot_of_mem_freeNodes read mem listed.1 found
  use slot, found, after, lt

/-- If as many variables are kept as the frame has slots after those that come in, the code touches all these. -/
theorem touched_of_full (made : Made u m code body left f f') {text : String} (read : parse text = .ok u)
    (mem : m ∈ u.methods)
    (full : code.listing.frame.maxSlots - m.entrySlots ≤ (m.freeNodes.filter (code.keeps m)).length) {slot : Nat}
    (after : m.entrySlots ≤ slot) (inside : slot < code.listing.frame.maxSlots) :
  Line.anyTouches code.listing.lines slot = true
  := by
  have declared := (declared_of_parse read).2 m mem
  have once := m.nodup_freeNodes.filter (code.keeps m)
  have slots : ∀ x ∈ m.freeNodes.filter (code.keeps m),
      ∃ slot, m.slotOf x = some slot ∧ m.entrySlots ≤ slot ∧ slot < code.listing.frame.maxSlots := by
    intro x listed
    apply made.slot_of_kept read mem listed
  obtain ⟨x, listed, found⟩ := declared.exists_slotOf_of_length once slots full after inside
  have keeps := (List.mem_filter.1 listed).2
  rwa [MethodCode.keeps, found, Option.any_some] at keeps

/-- Allocation widens the frame by one slot at most, and only where the code touches all of it after what comes in
and a variable beyond it has been fused away. -/
theorem maxSlots_growth (made : Made u m code body left f f') {text : String} (read : parse text = .ok u)
    (mem : m ∈ u.methods) {k : Nat} {u' : ClassUnit} {code' : MethodCode} {body' : List Line}
    {left' : LabelSupply} {g g' : Frame} (made' : Made u' (m.allocated k) code' body' left' g g') :
  code'.listing.frame.maxSlots ≤ code.listing.frame.maxSlots + 1
    ∧ (code.listing.frame.maxSlots < code'.listing.frame.maxSlots →
      (∀ slot, m.entrySlots ≤ slot → slot < code.listing.frame.maxSlots →
        Line.anyTouches code.listing.lines slot = true)
      ∧ ∃ x v, m.vars[x]? = some v ∧ v.isPinned = false ∧ code.listing.frame.maxSlots ≤ v.slot
        ∧ code.drops m (body ++ m.closing f) x = true)
  := by
  have declared := (declared_of_parse read).2 m mem
  have bound := made.maxSlots_le_room declared made'
  rw [Coloring.room, List.countP_eq_length_filter] at bound
  have wide := (made.maxSlots_le_iff.1 (Nat.le_refl _)).1
  have few := declared.length_le_of_slots (m.nodup_freeNodes.filter (code.keeps m)) fun x listed =>
    made.slot_of_kept read mem listed
  split at bound
  · next some =>
      constructor
      · omega
      · intro grown
        have touched (slot : Nat) (after : m.entrySlots ≤ slot) (inside : slot < code.listing.frame.maxSlots) :
            Line.anyTouches code.listing.lines slot = true := by
          apply made.touched_of_full read mem _ after inside
          omega
        obtain ⟨x, listed, drops⟩ := List.any_eq_true.1 some
        obtain ⟨slot, found, gone⟩ := (Option.any_eq_true _ _).1 drops
        obtain ⟨v, entry, unpinned, rfl, after⟩ := slot_of_mem_freeNodes read mem listed found
        use touched, x, v, entry, unpinned
        constructor
        · apply Nat.le_of_not_lt
          intro inside
          simp [touched v.slot after inside] at gone
        · apply drops
  · constructor
    · omega
    · intro grown
      omega

end MethodCode.Made

end Frames

/-- Allocation of a class allocates its methods in their places. -/
theorem ClassUnit.getElem?_allocate_nat (u : ClassUnit) (k n : Nat) :
  (u.allocate k).methods[n]? = u.methods[n]?.map (·.allocated k)
  := by
  rw [u.allocate_eq (Int.natCast_nonneg k), List.getElem?_map, Int.toNat_natCast]

/-- Of a method that a text declares, allocation widens the frame by one slot at most. It does so only where
increments are fused without it, each slot of the frame after what comes in is touched, and a temporary that is
written once and read by the next instruction alone has a slot beyond the frame. -/
theorem maxSlots_allocate_le {text : String} {u : ClassUnit} (read : parse text = .ok u) {k n : Nat} {m m' : Method}
    (at_n : u.methods[n]? = some m) (at_n' : (u.allocate k).methods[n]? = some m') {code code' : MethodCode}
    (coded : u.methodCode m = .ok code) (coded' : (u.allocate k).methodCode m' = .ok code') :
  code'.listing.frame.maxSlots ≤ code.listing.frame.maxSlots + 1
    ∧ (code.listing.frame.maxSlots < code'.listing.frame.maxSlots →
      0 < code.fused
        ∧ (∀ slot, m.entrySlots ≤ slot → slot < code.listing.frame.maxSlots →
          ∃ line ∈ code.listing.lines, line.slot? = some slot)
        ∧ ∃ x v d, m.vars[x]? = some v ∧ v.scope = .temporary
          ∧ code.listing.frame.maxSlots ≤ v.slot ∧ m.Passes x d)
  := by
  have mem := List.mem_of_getElem? at_n
  have declared := (declared_of_parse read).2 m mem
  rw [u.getElem?_allocate_nat, at_n, Option.map_some, Option.some.injEq] at at_n'
  subst at_n'
  obtain ⟨body, left, f, f', made⟩ := ClassUnit.methodCode_eq_ok coded
  obtain ⟨body', left', g, g', made'⟩ := ClassUnit.methodCode_eq_ok coded'
  obtain ⟨bound, beyond⟩ := made.maxSlots_growth read mem made'
  use bound
  intro grown
  obtain ⟨touched, x, v, entry, unpinned, slot, drops⟩ := beyond grown
  obtain ⟨d, passes⟩ := made.passes_of_drops declared drops
  split_ands
  · apply made.fused_pos_of_drops coded drops
  · intro slot after inside
    rw [← Line.anyTouches_iff]
    apply touched slot after inside
  · have unfielded := declared.unfielded x v entry
    have temporary : v.scope = .temporary := by
      cases scope : v.scope <;> simp_all [Variable.isPinned]
    use x, v, d, entry, temporary, slot

/-- Allocation widens the frame of a method that increments its parameter twice. -/
theorem twoIncrements_wider :
  ∃ u m m' code code', parse twoIncrementsText = .ok u ∧ u.methods[0]? = some m
    ∧ (u.allocate 1).methods[0]? = some m' ∧ u.methodCode m = .ok code ∧ (u.allocate 1).methodCode m' = .ok code'
    ∧ ¬ code'.listing.frame.maxSlots ≤ code.listing.frame.maxSlots
  := by
  obtain ⟨u, m, a, code, code', parsed, only, taken, coded, coded', -, narrow, wide⟩ := twoIncrements_code
  have method := (Method.of_allocate_eq_some taken).1
  have allocated := u.getElem?_allocate_nat 1 0
  rw [only, List.getElem?_cons_zero, Option.map_some, ← method] at allocated
  use u, m, a.method, code, code', parsed
  and_intros
  · simp [only]
  · apply allocated
  · apply coded
  · apply coded'
  · omega

/-- Allocation widens the frame of that method by one slot, where an increment was fused before. -/
theorem twoIncrements_allocate_le :
  ∃ u m m' code code', parse twoIncrementsText = .ok u ∧ u.methods[0]? = some m
    ∧ (u.allocate 1).methods[0]? = some m' ∧ u.methodCode m = .ok code ∧ (u.allocate 1).methodCode m' = .ok code'
    ∧ code'.listing.frame.maxSlots = code.listing.frame.maxSlots + 1
    ∧ 0 < code.fused
    ∧ (∀ slot, m.entrySlots ≤ slot → slot < code.listing.frame.maxSlots →
      ∃ line ∈ code.listing.lines, line.slot? = some slot)
    ∧ ∃ x v d, m.vars[x]? = some v ∧ v.scope = .temporary
      ∧ code.listing.frame.maxSlots ≤ v.slot ∧ m.Passes x d
  := by
  obtain ⟨u, m, a, code, code', parsed, only, taken, coded, coded', -, narrow, wide⟩ := twoIncrements_code
  have first : u.methods[0]? = some m := by simp [only]
  have method := (Method.of_allocate_eq_some taken).1
  have allocated := u.getElem?_allocate_nat 1 0
  rw [first, Option.map_some, ← method] at allocated
  obtain ⟨-, grown⟩ := maxSlots_allocate_le parsed first allocated coded coded'
  use u, m, a.method, code, code', parsed, first, allocated, coded, coded'
  constructor
  · omega
  · apply grown
    omega

/-- A class with a static method that increments its parameter once, by way of another variable, while a third
variable is live. -/
def oneIncrementText : String :=
  "A\x7b.method static f(c.i32).i32\x7ba.i32:=.i32 5.i32;b.i32:=.i32 c.i32 +.i32 1.i32;"
    ++ "c.i32:=.i32 b.i32;a.i32:=.i32 a.i32 +.i32 c.i32;ret.i32 a.i32;\x7d\x7d"

/-- One increment is enough for a wider frame: it is fused without allocation and after it, when its temporary has
the lower one of the two slots. -/
theorem oneIncrement_wider :
  ∃ u m a code code', parse oneIncrementText = .ok u ∧ u.methods = [m] ∧ m.allocate 1 = some a
    ∧ u.methodCode m = .ok code ∧ (u.allocate 1).methodCode a.method = .ok code'
    ∧ code.fused = 1 ∧ code'.fused = 1
    ∧ code'.listing.frame.maxSlots = code.listing.frame.maxSlots + 1
  := by
  have checked : ((parse oneIncrementText).toOption.any fun u => u.methods.head?.any fun m =>
      u.methods = [m] && (m.allocate 1).any fun a => (u.methodCode m).toOption.any fun code =>
        ((u.allocate 1).methodCode a.method).toOption.any fun code' => decide (code.fused = 1
          ∧ code'.fused = 1 ∧ code'.listing.frame.maxSlots = code.listing.frame.maxSlots + 1)) = true := by
    decide +kernel
  simp only [Option.any_eq_true, Bool.and_eq_true, decide_eq_true_eq] at checked
  obtain ⟨u, parsed, m, -, only, a, taken, code, coded, code', coded', wider⟩ := checked
  use u, m, a, code, code', eq_ok_of_toOption parsed, only, taken, eq_ok_of_toOption coded,
    eq_ok_of_toOption coded'

end StackBackend
