import Mathlib.Tactic.Use
import StackBackend.Assembly.Inst

/-!
# Lines of code

The labels that lines define, the line that a jump to a label goes to, and whether control may come to
the end of lines.
-/

namespace StackBackend

/-! ### Labels -/

/-- The place of a label: that of its first line. -/
def Line.target? (lines : List Line) (label : String) : Option Nat :=
  lines.findIdx? (· = .label label)

/-- The label that a line is. -/
def Line.labelName? : Line → Option String
  | .label name => some name
  | .inst _ => none

/-- The labels among lines, in order. -/
def Line.labelNames (lines : List Line) : List String := lines.filterMap Line.labelName?

@[simp]
theorem Line.labelNames_nil :
  labelNames [] = []
  := rfl

@[simp]
theorem Line.labelNames_label (label : String) (lines : List Line) :
  labelNames (.label label :: lines) = label :: labelNames lines
  := rfl

@[simp]
theorem Line.labelNames_inst (i : Inst) (lines : List Line) :
  labelNames (.inst i :: lines) = labelNames lines
  := rfl

@[simp]
theorem Line.labelNames_append (l₁ l₂ : List Line) :
  labelNames (l₁ ++ l₂) = labelNames l₁ ++ labelNames l₂
  := List.filterMap_append

/-- A label is among the lines if its name is among their labels. -/
theorem Line.mem_labelNames {lines : List Line} {label : String} :
  label ∈ labelNames lines ↔ .label label ∈ lines
  := by
  rw [labelNames, List.mem_filterMap]
  constructor
  · rintro ⟨line, mem, name⟩
    cases line with
    | inst i => simp [labelName?] at name
    | label l =>
        obtain rfl : l = label := by simpa [labelName?] using name
        apply mem
  · intro mem
    use .label label, mem
    rfl

/-- Among lines whose labels differ, a jump goes to the one line with its label. -/
theorem Line.target?_of_nodup {lines : List Line} (nodup : (labelNames lines).Nodup) {p : Nat}
    {label : String} (h : lines[p]? = some (.label label)) :
  target? lines label = some p
  := by
  induction lines generalizing p with
  | nil => simp at h
  | cons line lines ih =>
      rw [target?, List.findIdx?_cons]
      cases p with
      | zero =>
          obtain rfl : line = .label label := by simpa using h
          simp
      | succ p =>
          have later : label ∈ labelNames lines := mem_labelNames.2 (List.mem_of_getElem? h)
          have other : line ≠ .label label := by
            rintro rfl
            rw [labelNames_label, List.nodup_cons] at nodup
            apply nodup.1 later
          have nodup : (labelNames lines).Nodup := by
            apply List.Nodup.sublist _ nodup
            apply (List.sublist_cons_self line lines).filterMap _
          have found : lines.findIdx? (· = .label label) = some p := ih nodup h
          simp [other, found]

theorem Line.labelNames_map (names : List String) :
  labelNames (names.map Line.label) = names
  := by
  induction names with
  | nil => rfl
  | cons name names ih => rw [List.map_cons, labelNames_label, ih]

/-! ### Ends -/

/-- Whether control is known not to come to the end of the lines, when `b` says so of their
beginning. -/
def Line.ended (b : Bool) (lines : List Line) : Bool :=
  lines.foldl (fun b line => match line with
    | .label _ => false
    | .inst i => b || i.isTerminator) b

@[simp]
theorem Line.ended_nil (b : Bool) :
  ended b [] = b
  := rfl

@[simp]
theorem Line.ended_label (b : Bool) (name : String) (lines : List Line) :
  ended b (.label name :: lines) = ended false lines
  := rfl

@[simp]
theorem Line.ended_inst (b : Bool) (i : Inst) (lines : List Line) :
  ended b (.inst i :: lines) = ended (b || i.isTerminator) lines
  := rfl

/-- Control after lines in a row. -/
theorem Line.ended_append (b : Bool) (l₁ l₂ : List Line) :
  ended b (l₁ ++ l₂) = ended (ended b l₁) l₂
  := List.foldl_append

/-- After a label control may be there. -/
theorem Line.ended_labels (b : Bool) (names : List String) :
  ended b (names.map Line.label) = (b && names.isEmpty)
  := by
  induction names generalizing b with
  | nil => simp
  | cons name names ih => simp [ih]

end StackBackend
