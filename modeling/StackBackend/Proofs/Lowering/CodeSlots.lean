import StackBackend.Proofs.Lowering.Body
import StackBackend.Proofs.Lowering.MethodCode
import StackBackend.Proofs.Lowering.Touches

/-!
# Slots that the code of a method touches

A line of the code of a method that touches a slot belongs to the code of one instruction. So the slots
that are touched are those of the variables that the body mentions. When fusing increments leaves no line
that touches the slot of a variable, one instruction writes the variable, and the next one, to which no
label leads, is the only one that reads it.
-/

namespace StackBackend

variable {u : ClassUnit} {m : Method} {all : List Line} {stop : Nat} {start : Nat → Nat} {j k p slot : Nat}
  {i : Instr} {line : Line}

/-! ### Lines and instructions -/

/-- The line at `p` belongs to the code of the instruction at `j`. -/
structure InCode (m : Method) (start : Nat → Nat) (j p : Nat) : Prop where
  after : codeStart m start j ≤ p
  before : p < start (j + 1)

namespace Layout

/-- The lines of an instruction are those that it is lowered to. -/
theorem code_at (layout : Layout u m all 0 stop start) (at_j : m.body[j]? = some i) :
  ∃ s ls t, (Site.lower ⟨u, m, i⟩).Writes s ls () t ∧ start (j + 1) = codeStart m start j + ls.length
    ∧ ∀ k, k < ls.length → all[codeStart m start j + k]? = ls[k]?
  := by
  obtain ⟨s, ls, t, w, ⟨rest, held⟩, next⟩ := layout.code j i (Nat.zero_le j) at_j
  use s, ls, t, w, next
  intro k lt
  rw [codeStart, ← List.getElem?_drop, ← held, List.getElem?_append_left lt]

theorem codeStart_lt (layout : Layout u m all 0 stop start) (at_j : m.body[j]? = some i) :
  codeStart m start j < start (j + 1)
  := by
  obtain ⟨s, ls, t, w, next, -⟩ := layout.code_at at_j
  obtain ⟨init, last, rfl, -⟩ := Site.lower_ends w
  simp only [List.length_append, List.length_singleton] at next
  omega

theorem start_le (layout : Layout u m all 0 stop start) (le : j ≤ k) (inside : k ≤ m.body.length) :
  start j ≤ start k
  := by
  obtain ⟨n, rfl⟩ := Nat.exists_eq_add_of_le le
  induction n with
  | zero => rfl
  | succ n ih =>
      have more := layout.codeStart_lt (List.getElem?_eq_getElem (show j + n < m.body.length by omega))
      have before := ih (Nat.le_add_right j n) (by omega)
      rw [codeStart] at more
      rw [← Nat.add_assoc]
      omega

/-- A line belongs to one instruction at most. -/
theorem inCode_unique (layout : Layout u m all 0 stop start) (hj : j < m.body.length) (hk : k < m.body.length)
    (in_j : InCode m start j p) (in_k : InCode m start k p) :
  j = k
  := by
  have apart {j k : Nat} (less : j < k) (hk : k < m.body.length) (in_j : InCode m start j p)
      (in_k : InCode m start k p) : False := by
    have le := layout.start_le (show j + 1 ≤ k from less) (Nat.le_of_lt hk)
    have before := in_j.before
    have after := in_k.after
    rw [codeStart] at after
    omega
  obtain less | same | less := Nat.lt_trichotomy j k
  · apply (apart less hk in_j in_k).elim
  · apply same
  · apply (apart less hj in_k in_j).elim

/-- If the line after the code of an instruction belongs to code as well, then to that of the next
instruction, which has no label. -/
theorem next_of_inCode (layout : Layout u m all 0 stop start) (hj : j < m.body.length) (hk : k < m.body.length)
    (last : p = start (j + 1)) (inside : InCode m start k p) :
  j + 1 = k ∧ m.labelsAt (j + 1) = []
  := by
  have before := inside.before
  have after := inside.after
  rw [codeStart] at after
  have later : j + 1 ≤ k := by
    apply Nat.lt_of_not_le
    intro le
    have starts := layout.start_le (show k + 1 ≤ j + 1 by omega) hj
    omega
  have next : j + 1 = k := by
    apply Nat.le_antisymm later
    apply Nat.le_of_not_lt
    intro less
    have more := layout.codeStart_lt (List.getElem?_eq_getElem (show j + 1 < m.body.length by omega))
    have starts := layout.start_le (show j + 1 + 1 ≤ k by omega) (Nat.le_of_lt hk)
    rw [codeStart] at more
    omega
  subst next
  use rfl
  apply List.length_eq_zero_iff.1
  omega

/-- What stands at a place before the end is a label or belongs to an instruction. -/
theorem locate (layout : Layout u m all 0 stop start) (first : start 0 = 0) (lt : p < stop) :
  (∃ name, all[p]? = some (.label name)) ∨ ∃ j, j < m.body.length ∧ InCode m start j p
  := by
  have label {j : Nat} (le : j ≤ m.body.length) (after : start j ≤ p) (before : p < codeStart m start j) :
      ∃ name, all[p]? = some (.label name) := by
    obtain ⟨rest, held⟩ := layout.labels j (Nat.zero_le j) le
    obtain ⟨k, rfl⟩ := Nat.exists_eq_add_of_le after
    have short : k < (m.labelsAt j).length := by
      rw [codeStart] at before
      omega
    use (m.labelsAt j)[k]
    rw [← List.getElem?_drop, ← held, List.getElem?_append_left (by simpa using short)]
    simp [short]
  have search (n : Nat) (le : n ≤ m.body.length) (before : p < start n) :
      (∃ name, all[p]? = some (.label name)) ∨ ∃ j, j < m.body.length ∧ InCode m start j p := by
    induction n with
    | zero => omega
    | succ n ih =>
        by_cases earlier : p < start n
        · apply ih (Nat.le_of_succ_le le) earlier
        · by_cases labelled : p < codeStart m start n
          · left
            apply label (Nat.le_of_succ_le le) (Nat.le_of_not_lt earlier) labelled
          · right
            use n, le, Nat.le_of_not_lt labelled, before
  by_cases earlier : p < start m.body.length
  · apply search m.body.length (Nat.le_refl _) earlier
  · have last : p < codeStart m start m.body.length := by
      rw [codeStart, layout.stop]
      apply lt
    left
    apply label (Nat.le_refl _) (Nat.le_of_not_lt earlier) last

/-! ### Readers and writers -/

/-- A line that reads a slot reads that of a variable which its instruction reads. -/
theorem exists_uses (layout : Layout u m all 0 stop start) (at_j : m.body[j]? = some i)
    (inside : InCode m start j p) (here : all[p]? = some line) (read : line.readSlot? = some slot) :
  ∃ x ∈ i.uses, m.slotOf x = some slot
  := by
  obtain ⟨s, ls, t, w, next, lines⟩ := layout.code_at at_j
  obtain ⟨k, rfl⟩ := Nat.exists_eq_add_of_le inside.after
  have before := inside.before
  rw [lines k (by omega)] at here
  apply (Site.exists_readSlot_iff w).1
  use line, List.mem_of_getElem? here, read

/-- A line that writes a slot writes that of the variable which its instruction writes, and it is the
last one of the instruction. -/
theorem exists_defs (layout : Layout u m all 0 stop start) (at_j : m.body[j]? = some i)
    (inside : InCode m start j p) (here : all[p]? = some line) (written : line.writtenSlot? = some slot) :
  (∃ x ∈ i.defs, m.slotOf x = some slot) ∧ p + 1 = start (j + 1)
  := by
  obtain ⟨s, ls, t, w, next, lines⟩ := layout.code_at at_j
  obtain ⟨k, rfl⟩ := Nat.exists_eq_add_of_le inside.after
  have before := inside.before
  rw [lines k (by omega)] at here
  constructor
  · apply (Site.exists_writtenSlot_iff w).1
    use line, List.mem_of_getElem? here, written
  · obtain ⟨init, last, rfl, quiet⟩ := Site.lower_ends w
    rw [List.length_append, List.length_singleton] at next
    have late : ¬ k < init.length := by
      intro early
      rw [List.getElem?_append_left early] at here
      have none := List.filterMap_eq_nil_iff.1 quiet line (List.mem_of_getElem? here)
      simp [none] at written
    omega

/-- An instruction that reads a variable has a line that reads its slot. -/
theorem exists_read (layout : Layout u m all 0 stop start) (at_j : m.body[j]? = some i) {x : String}
    (used : x ∈ i.uses) :
  ∃ slot p line, m.slotOf x = some slot ∧ InCode m start j p ∧ all[p]? = some line
    ∧ line.readSlot? = some slot
  := by
  obtain ⟨s, ls, t, w, next, lines⟩ := layout.code_at at_j
  obtain ⟨slot, found⟩ := Site.exists_slotOf w (.inl used)
  obtain ⟨line, mem, read⟩ := (Site.exists_readSlot_iff w).2 ⟨x, used, found⟩
  obtain ⟨k, here⟩ := List.mem_iff_getElem?.1 mem
  obtain ⟨lt, -⟩ := List.getElem?_eq_some_iff.1 here
  refine ⟨slot, codeStart m start j + k, line, found, ⟨by omega, by omega⟩, ?_, read⟩
  rw [lines k lt, here]

/-- An instruction that writes a variable has a line that writes its slot. -/
theorem exists_written (layout : Layout u m all 0 stop start) (at_j : m.body[j]? = some i) {x : String}
    (defined : x ∈ i.defs) :
  ∃ slot p line, m.slotOf x = some slot ∧ InCode m start j p ∧ all[p]? = some line
    ∧ line.writtenSlot? = some slot
  := by
  obtain ⟨s, ls, t, w, next, lines⟩ := layout.code_at at_j
  obtain ⟨slot, found⟩ := Site.exists_slotOf w (.inr defined)
  obtain ⟨line, mem, written⟩ := (Site.exists_writtenSlot_iff w).2 ⟨x, defined, found⟩
  obtain ⟨k, here⟩ := List.mem_iff_getElem?.1 mem
  obtain ⟨lt, -⟩ := List.getElem?_eq_some_iff.1 here
  refine ⟨slot, codeStart m start j + k, line, found, ⟨by omega, by omega⟩, ?_, written⟩
  rw [lines k lt, here]

end Layout

/-! ### Variables of the body -/

namespace Method

/-- Some instruction of the method reads or writes the variable. -/
def Mentions (m : Method) (x : String) : Prop := ∃ i ∈ m.body, x ∈ i.uses ∨ x ∈ i.defs

/-- The instruction at `d` is the only one that writes the variable and the next one, which has no label,
the only one that reads it. -/
structure Passes (m : Method) (x : String) (d : Nat) : Prop where
  writer : ∃ i, m.body[d]? = some i ∧ x ∈ i.defs
  writes : ∀ j i, m.body[j]? = some i → x ∈ i.defs → j = d
  reads : ∀ j i, m.body[j]? = some i → x ∈ i.uses → j = d + 1
  straight : m.labelsAt (d + 1) = []

end Method

namespace MethodCode.Made

variable {code : MethodCode} {body : List Line} {left : LabelSupply} {f f' : Frame} {x : String}

theorem layout (made : Made u m code body left f f') :
  ∃ start, start 0 = 0 ∧ Layout u m (body ++ m.closing f) 0 body.length start
  := by
  have held : Holds (body ++ m.closing f) 0 body := ⟨m.closing f, rfl⟩
  obtain ⟨start, first, layout⟩ := Layout.of_writes rfl (Nat.zero_le _) made.writes held
  rw [Nat.zero_add] at layout
  use start, first

/-- The closing line touches no slot. -/
theorem lt_of_touched (here : (body ++ m.closing f)[p]? = some line) (touched : line.slot? = some slot) :
  p < body.length
  := by
  apply Nat.lt_of_not_le
  intro after
  rw [List.getElem?_append_right after] at here
  have mem := List.mem_of_getElem? here
  unfold Method.closing at mem
  split at mem
  · obtain rfl := List.mem_singleton.1 mem
    simp [Line.slot?, Inst.slot?] at touched
  · simp at mem

/-- A line that touches a slot belongs to an instruction. -/
theorem exists_inCode (first : start 0 = 0) (layout : Layout u m (body ++ m.closing f) 0 body.length start)
    (here : (body ++ m.closing f)[p]? = some line) (touched : line.slot? = some slot) :
  ∃ j i, m.body[j]? = some i ∧ InCode m start j p
  := by
  obtain ⟨name, label⟩ | ⟨j, lt, inside⟩ := layout.locate first (lt_of_touched here touched)
  · obtain rfl := Option.some.inj (label.symm.trans here)
    simp [Line.slot?] at touched
  · use j, m.body[j]
    constructor
    · apply List.getElem?_eq_getElem lt
    · apply inside

/-- The slots that are touched before increments are fused are those of the variables of the body. -/
theorem touched_iff (made : Made u m code body left f f') :
  (∃ line ∈ body ++ m.closing f, line.slot? = some slot) ↔ ∃ x, m.Mentions x ∧ m.slotOf x = some slot
  := by
  obtain ⟨start, first, layout⟩ := made.layout
  constructor
  · rintro ⟨line, mem, touched⟩
    obtain ⟨p, here⟩ := List.mem_iff_getElem?.1 mem
    obtain ⟨j, i, at_j, inside⟩ := exists_inCode first layout here touched
    have listed := List.mem_of_getElem? at_j
    obtain read | written := Line.slot?_eq_some_iff.1 touched
    · obtain ⟨x, used, found⟩ := layout.exists_uses at_j inside here read
      use x
      constructor
      · use i, listed
        left
        apply used
      · apply found
    · obtain ⟨⟨x, defined, found⟩, -⟩ := layout.exists_defs at_j inside here written
      use x
      constructor
      · use i, listed
        right
        apply defined
      · apply found
  · rintro ⟨x, ⟨i, listed, mentioned⟩, found⟩
    obtain ⟨j, at_j⟩ := List.mem_iff_getElem?.1 listed
    obtain used | defined := mentioned
    · obtain ⟨slot', p, line, found', -, here, read⟩ := layout.exists_read at_j used
      obtain rfl := Option.some.inj (found.symm.trans found')
      use line, List.mem_of_getElem? here
      apply Line.slot?_eq_some_iff.2 (.inl read)
    · obtain ⟨slot', p, line, found', -, here, written⟩ := layout.exists_written at_j defined
      obtain rfl := Option.some.inj (found.symm.trans found')
      use line, List.mem_of_getElem? here
      apply Line.slot?_eq_some_iff.2 (.inr written)

/-- The variables of a body that has code have slots. -/
theorem isSome_slotOf_of_mentions (made : Made u m code body left f f') (mentioned : m.Mentions x) :
  (m.slotOf x).isSome
  := by
  obtain ⟨start, -, layout⟩ := made.layout
  obtain ⟨i, listed, used | defined⟩ := mentioned
  · obtain ⟨j, at_j⟩ := List.mem_iff_getElem?.1 listed
    obtain ⟨slot, -, -, found, -⟩ := layout.exists_read at_j used
    simp [found]
  · obtain ⟨j, at_j⟩ := List.mem_iff_getElem?.1 listed
    obtain ⟨slot, -, -, found, -⟩ := layout.exists_written at_j defined
    simp [found]

/-- Fused lines touch slots of variables of the body. -/
theorem exists_mentions_of_touched (made : Made u m code body left f f') (mem : line ∈ code.listing.lines)
    (touched : line.slot? = some slot) :
  ∃ x, m.Mentions x ∧ m.slotOf x = some slot
  := by
  rw [made.lines] at mem
  apply made.touched_iff.1 (exists_slot_of_mem_fuseIn mem touched)

/-- The frame of the code is as wide as what comes in and the slots of its lines make it. -/
theorem maxSlots_le_iff (made : Made u m code body left f f') {n : Nat} :
  code.listing.frame.maxSlots ≤ n
    ↔ m.entrySlots ≤ n ∧ ∀ line ∈ code.listing.lines, ∀ slot, line.slot? = some slot → slot < n
  := Frame.maxSlots_replay_le_iff made.recounted

/-! ### Slots that are fused away -/

/-- A variable whose slot is no other one's, and is touched by no line after fusing, is passed from one
instruction to the next. -/
theorem passes_of_gone (made : Made u m code body left f f') (mentioned : m.Mentions x)
    (found : m.slotOf x = some slot) (own : ∀ y, m.slotOf y = some slot → y = x)
    (gone : ∀ line ∈ code.listing.lines, line.slot? ≠ some slot) :
  ∃ d, m.Passes x d
  := by
  obtain ⟨start, first, layout⟩ := made.layout
  obtain ⟨line, mem, touched⟩ := made.touched_iff.2 ⟨x, mentioned, found⟩
  rw [made.lines] at gone
  obtain ⟨w, n, rest, window, places⟩ := exists_window_of_gone mem touched gone
  have store : (body ++ m.closing f)[w + 3]? = some (.inst (.store .int slot)) := by
    rw [← List.getElem?_drop, window]
    rfl
  have load : (body ++ m.closing f)[w + 4]? = some (.inst (.load .int slot)) := by
    rw [← List.getElem?_drop, window]
    rfl
  obtain ⟨d, i, at_d, inside⟩ := exists_inCode first layout store rfl
  obtain ⟨r, i', at_r, inside'⟩ := exists_inCode first layout load rfl
  have hd := (List.getElem?_eq_some_iff.1 at_d).1
  have hr := (List.getElem?_eq_some_iff.1 at_r).1
  obtain ⟨⟨y, defined, found'⟩, last⟩ := layout.exists_defs at_d inside store rfl
  obtain rfl := own y found'
  obtain ⟨rfl, straight⟩ := layout.next_of_inCode hd hr last inside'
  refine ⟨d, ⟨i, at_d, defined⟩, ?_, ?_, straight⟩
  · intro j i₁ at_j defined₁
    obtain ⟨slot₁, p, line₁, found₁, inside₁, here, written⟩ := layout.exists_written at_j defined₁
    obtain rfl := Option.some.inj (found.symm.trans found₁)
    obtain rfl | rfl := places p line₁ here (Line.slot?_eq_some_iff.2 (.inr written))
    · apply layout.inCode_unique (List.getElem?_eq_some_iff.1 at_j).1 hd inside₁ inside
    · obtain rfl := Option.some.inj (load.symm.trans here)
      simp [Line.writtenSlot?] at written
  · intro j i₁ at_j used
    obtain ⟨slot₁, p, line₁, found₁, inside₁, here, read⟩ := layout.exists_read at_j used
    obtain rfl := Option.some.inj (found.symm.trans found₁)
    obtain rfl | rfl := places p line₁ here (Line.slot?_eq_some_iff.2 (.inl read))
    · obtain rfl := Option.some.inj (store.symm.trans here)
      simp [Line.readSlot?] at read
    · apply layout.inCode_unique (List.getElem?_eq_some_iff.1 at_j).1 hr inside₁ inside'

end MethodCode.Made

end StackBackend
