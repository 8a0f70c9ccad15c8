import StackBackend.Proofs.Lowering.CodeSlots
import StackBackend.Proofs.Slots.Gapless
import StackBackend.Proofs.Slots.Repetition

/-!
# The slots that are needed

The slots of a coloring lie before the first free slot and the number of slots needed. In a method that a
text declares the first free slot comes right after the receiver and the parameters at the latest. So the
frame of its code after allocation is no wider than these and the needed slots.
-/

namespace StackBackend

/-! ### Slots of a declared method -/

namespace Method

variable {m : Method} {k slot : Nat} {x : String}

/-- What comes into a method has a slot among the first ones. -/
theorem Declared.pinnedSlot_lt (declared : m.Declared) (pinned : m.vars.pinnedSlot? x = some slot) :
  slot < m.entrySlots
  := by
  obtain ⟨v, entry, isPinned, rfl⟩ := VarTable.pinnedSlot?_eq_some.1 pinned
  unfold entrySlots
  obtain ⟨instance', -, receiver, -⟩ | ⟨j, p, at_j, -, -, parameter⟩ := declared.incoming x v entry isPinned
  · simp [instance', receiver]
  · have lt := (List.getElem?_eq_some_iff.1 at_j).1
    omega

/-- The first free slot of a declared method is within its entry slots. -/
theorem Declared.firstFree_le (declared : m.Declared) :
  m.vars.firstFree ≤ m.entrySlots
  := by
  rw [VarTable.firstFree_le_iff]
  intro x slot
  apply declared.pinnedSlot_lt

/-- After allocation a variable of a declared method comes in or has a slot of the coloring. -/
theorem Declared.slotOf_allocated_cases (declared : m.Declared) (body : m.body ≠ [])
    (found : (m.allocated k).slotOf x = some slot) :
  m.vars.pinnedSlot? x = some slot ∨ (m.coloring k).slots[x]? = some slot
  := by
  apply slotOf_allocated body _ found
  obtain ⟨v, entry, -⟩ := Option.map_eq_some_iff.1 found
  rw [contains_interference]
  constructor
  · unfold VarTable.takesSlot
    split
    · next w entry' => simpa using declared.unfielded x w entry'
    · rfl
  · by_cases mem : x ∈ m.vars
    · left
      apply mem
    · right
      apply (of_mem_allocated (k := k) mem _).2.2
      rw [Std.ExtTreeMap.mem_iff_isSome_getElem?, entry]
      rfl

/-- After allocation the slots of a declared method are those that come in and those needed. -/
theorem Declared.slotOf_allocated_lt (declared : m.Declared) (body : m.body ≠ [])
    (found : (m.allocated k).slotOf x = some slot) :
  slot < m.entrySlots + (m.coloring k).needed
  := by
  obtain pinned | given := declared.slotOf_allocated_cases body found
  · have lt := declared.pinnedSlot_lt pinned
    omega
  · have lt := Graph.color_slot_lt given
    have le := declared.firstFree_le
    rw [← coloring] at lt
    omega

end Method

/-- A method that mentions a variable has instructions. -/
theorem Method.Mentions.body_ne_nil {m : Method} {x : String} (mentioned : m.Mentions x) :
  m.body ≠ []
  := by
  obtain ⟨i, listed, -⟩ := mentioned
  apply List.ne_nil_of_mem listed

/-- The frame of the code of an allocated method takes the slots that come in and those needed. -/
theorem MethodCode.Made.maxSlots_le_needed {u : ClassUnit} {m : Method} {k : Nat} {code : MethodCode}
    {body : List Line} {left : LabelSupply} {f f' : Frame} (declared : m.Declared)
    (made : Made u (m.allocated k) code body left f f') :
  code.listing.frame.maxSlots ≤ m.entrySlots + (m.coloring k).needed
  := by
  rw [made.maxSlots_le_iff]
  constructor
  · rw [m.allocated_with_vars k]
    apply Nat.le_add_right
  · intro line mem slot touched
    obtain ⟨x, mentioned, found⟩ := made.exists_mentions_of_touched mem touched
    apply declared.slotOf_allocated_lt _ found
    have body := mentioned.body_ne_nil
    rwa [m.allocated_with_vars k] at body

/-! ### The budget -/

/-- The report of a method that is allocated. -/
theorem Method.of_allocate_eq_some {m : Method} {k : Nat} {a : MethodAllocation} (taken : m.allocate k = some a) :
  a.method = m.allocated k ∧ a.report = ⟨m.name, k, (m.coloring k).needed⟩
  := by
  have report := m.map_report_allocate k
  rw [taken, if_neg (by simp), Option.map_some, Option.some.injEq] at report
  constructor
  · rw [allocated, taken]
    rfl
  · apply report

/-- Each method of a class is allocated by itself. -/
theorem ClassUnit.mem_allocation {u : ClassUnit} {k : Nat} {m : Method} {a : Option MethodAllocation} :
  (m, a) ∈ (u.allocation k).methods ↔ m ∈ u.methods ∧ m.allocate k = a
  := by
  simp [allocation, Int.not_lt.2 (Int.natCast_nonneg k)]

/-- In the code of an allocated method of a class that a text declares, the frame takes at most the slots
of the receiver and the parameters and those that the report says are needed; so without an overflow it
keeps to the budget. -/
theorem maxSlots_within_budget {text : String} {u : ClassUnit} (read : parse text = .ok u) {k : Nat} {m : Method}
    {a : MethodAllocation} (taken : (m, some a) ∈ (u.allocation k).methods) {code : MethodCode}
    (coded : (u.allocate k).methodCode a.method = .ok code) :
  code.listing.frame.maxSlots ≤ m.entrySlots + a.report.needed
    ∧ (a.report.isOverflow = false → code.listing.frame.maxSlots ≤ m.entrySlots + k)
  := by
  obtain ⟨mem, taken⟩ := ClassUnit.mem_allocation.1 taken
  obtain ⟨method, report⟩ := Method.of_allocate_eq_some taken
  rw [method] at coded
  obtain ⟨body, left, f, f', made⟩ := ClassUnit.methodCode_eq_ok coded
  have bound := made.maxSlots_le_needed ((declared_of_parse read).2 m mem)
  rw [report]
  use bound
  intro fits
  have within : (m.coloring k).needed ≤ k := by simpa [Report.isOverflow] using fits
  omega

/-- A class with a static method that increments its parameter twice, each time by way of another
variable. -/
def twoIncrementsText : String :=
  "A\x7b.method static f(x.i32).i32\x7bt.i32:=.i32 x.i32 +.i32 1.i32;x.i32:=.i32 t.i32;"
    ++ "u.i32:=.i32 x.i32 +.i32 1.i32;x.i32:=.i32 u.i32;ret.i32 x.i32;\x7d\x7d"

/-- Without allocation the frame of its code is one slot wide, and within a budget of one slot two. -/
theorem twoIncrements_code :
  ∃ u m a code code', parse twoIncrementsText = .ok u ∧ u.methods = [m] ∧ m.allocate 1 = some a
    ∧ u.methodCode m = .ok code ∧ (u.allocate 1).methodCode a.method = .ok code'
    ∧ a.report.isOverflow = false ∧ code.listing.frame.maxSlots = 1 ∧ code'.listing.frame.maxSlots = 2
  := by
  have checked : ((parse twoIncrementsText).toOption.any fun u => u.methods.head?.any fun m =>
      u.methods = [m] && (m.allocate 1).any fun a => !a.report.isOverflow
        && ((u.methodCode m).toOption.any fun code => code.listing.frame.maxSlots = 1)
        && ((u.allocate 1).methodCode a.method).toOption.any fun code => code.listing.frame.maxSlots = 2) = true := by
    decide +kernel
  simp only [Option.any_eq_true, Bool.and_eq_true, Bool.not_eq_true', decide_eq_true_eq] at checked
  obtain ⟨u, parsed, m, -, only, a, taken, ⟨fits, code, coded, narrow⟩, code', coded', wide⟩ := checked
  use u, m, a, code, code', eq_ok_of_toOption parsed, only, taken, eq_ok_of_toOption coded, eq_ok_of_toOption
    coded', fits, narrow, wide

/-- A method within a budget of one slot. -/
theorem twoIncrements_within_budget :
  ∃ u m a code, parse twoIncrementsText = .ok u ∧ (m, some a) ∈ (u.allocation 1).methods
    ∧ (u.allocate 1).methodCode a.method = .ok code ∧ a.report.isOverflow = false
    ∧ code.listing.frame.maxSlots ≤ m.entrySlots + a.report.needed
    ∧ code.listing.frame.maxSlots ≤ m.entrySlots + 1
  := by
  obtain ⟨u, m, a, -, code, parsed, only, taken, -, coded, fits, -⟩ := twoIncrements_code
  have mem : (m, some a) ∈ (u.allocation (1 : Nat)).methods :=
    ClassUnit.mem_allocation.2 ⟨by simp [only], taken⟩
  have bound := maxSlots_within_budget parsed mem coded
  use u, m, a, code, parsed, mem, coded, fits, bound.1, bound.2 fits

end StackBackend
