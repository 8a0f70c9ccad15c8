import StackBackend.Proofs.Kinds.Lines
import StackBackend.Proofs.Lowering.Labels
import StackBackend.Proofs.Source.Methods

/-!
# The targets of jumps

The lines of a method are the code of its instructions in order, its labels right before the code of the
instructions that they stand before, with increments fused. The labels that are made for an instruction are
new in the method. So no label stands among the lines twice, and each jump finds the label that it names: the
one made for the same instruction, or the label of the method that the instruction jumps to.
-/

namespace StackBackend

open Piece

variable {u : ClassUnit} {m : Method} {s t : LabelSupply} {ls : List Line} {codes : List (List Line)}
  {index : Nat} {line : Line}

/-! ### Lines and labels -/

/-- Among lines whose labels differ a label stands once or not at all. -/
theorem Line.count_label_of_nodup {lines : List Line} (nodup : (labelNames lines).Nodup) {label : String}
    (mem : .label label ∈ lines) :
  lines.count (.label label) = 1
  := by
  have named (line : Line) : (line.labelName? == some label) = (line == .label label) := by
    cases line <;> simp [labelName?]
  have once := List.count_eq_one_of_mem nodup (mem_labelNames.2 mem)
  rw [labelNames, List.count_filterMap] at once
  simpa only [List.count, named] using once

/-- Pieces that begin with labels keep them. -/
theorem Piece.exists_of_labels {pieces : List Piece} {names : List String} {post : List Line}
    (written : pieces.flatMap before = names.map Line.label ++ post) :
  ∃ qs, pieces = names.map (fun name => .kept (.label name)) ++ qs ∧ qs.flatMap before = post
  := by
  induction names generalizing pieces with
  | nil => use pieces, rfl, written
  | cons name names ih =>
      have first : pieces.flatMap before = [] ++ .label name :: (names.map Line.label ++ post) := written
      obtain ⟨ps, qs, rfl, none, rest⟩ := exists_of_flatMap_before_eq first
      obtain rfl : ps = [] := by
        cases ps with
        | nil => rfl
        | cons piece ps => cases piece <;> simp [before, incrementWindow] at none
      obtain ⟨qs', rfl, later⟩ := ih rest
      use qs', rfl, later

/-! ### Code in place -/

/-- The lines of the code of instructions from the index `index` on, each after its labels, and of the labels
at the end. -/
def Method.inPlace (m : Method) (index : Nat) : List (List Line) → List Line
  | [] => (m.labelsAt index).map Line.label
  | code :: codes => (m.labelsAt index).map Line.label ++ (code ++ m.inPlace (index + 1) codes)

/-- The lines are code of an instruction of a method. The labels among them are those made for it, which are
not labels of the method, and their jumps go to these labels or to the one that the instruction jumps to. -/
structure ClassUnit.IsCode (u : ClassUnit) (m : Method) (i : Instr) (ls : List Line) (s t : LabelSupply) :
    Prop where
  writes : (Site.lower ⟨u, m, i⟩).Writes s ls () t
  made : s.Makes (Line.labelNames ls) t
  new : ∀ label ∈ Line.labelNames ls, label ∉ m.labels.map Prod.fst
  jumps : ∀ label ∈ Line.jumpNames ls, i.jumpLabel? = some label ∨ label ∈ Line.labelNames ls

/-- The lines of a body are the code of its instructions in place. -/
theorem ClassUnit.exists_codes {body : List Instr} {r : Unit}
    (w : (u.lowerFrom m index body).Writes s ls r t)
    (reserved : ∀ label ∈ m.labels.map Prod.fst, label ∈ s.reserved) :
  ∃ codes, ls = m.inPlace index codes ∧ List.Forall₂ (fun i c => ∃ s t, u.IsCode m i c s t) body codes
  := by
  induction body generalizing index s ls with
  | nil =>
      obtain ⟨rfl, rfl⟩ := Emit.labels_writes w
      use [], rfl, .nil
  | cons i body ih =>
      obtain ⟨l₁, _, t₁, l₂, w₁, w₂, rfl⟩ := w.of_bind
      obtain ⟨rfl, rfl⟩ := Emit.labels_writes w₁
      obtain ⟨l₃, _, t₃, l₄, w₃, w₄, rfl⟩ := w₂.of_bind
      have fresh := Site.lower_fresh w₃
      have routed := Site.lower_routed w₃
      obtain ⟨codes, rfl, each⟩ := ih w₄ fun label mem => fresh.grows label (reserved label mem)
      refine ⟨l₃ :: codes, rfl, .cons ⟨_, _, w₃, routed.made, ?_, routed.jumps⟩ each⟩
      intro label mem own
      apply fresh.new label mem (reserved label own)

namespace Method

/-- The labels of an index stand right before its code, or at the end. -/
theorem inPlace_split {j : Nat} (le : j ≤ codes.length) :
  ∃ pre rest, m.inPlace index codes = pre ++ ((m.labelsAt (index + j)).map Line.label ++ rest)
    ∧ (∀ code, codes[j]? = some code → code <+: rest) ∧ (j = codes.length → rest = [])
  := by
  induction codes generalizing index j with
  | nil =>
      obtain rfl : j = 0 := Nat.le_zero.1 le
      use [], []
      and_intros
      · simp [inPlace]
      · simp
      · intro _
        rfl
  | cons code codes ih =>
      cases j with
      | zero =>
          refine ⟨[], code ++ m.inPlace (index + 1) codes, rfl, ?_, by simp⟩
          intro code' first
          obtain rfl : code = code' := by simpa using first
          apply List.prefix_append
      | succ j =>
          obtain ⟨pre, rest, same, begins, ends⟩ := @ih (index + 1) j (Nat.le_of_succ_le_succ le)
          refine ⟨(m.labelsAt index).map Line.label ++ (code ++ pre), rest, ?_, begins, ?_⟩
          · rw [inPlace, same, Nat.add_assoc, Nat.add_comm 1 j]
            simp only [List.append_assoc]
          · intro last
            apply ends (Nat.succ.inj last)

theorem mem_inPlace {code : List Line} (mem : code ∈ codes) (among : line ∈ code) :
  line ∈ m.inPlace index codes
  := by
  induction codes generalizing index with
  | nil => cases mem
  | cons first codes ih =>
      apply List.mem_append_right
      obtain rfl | mem := List.mem_cons.1 mem
      · apply List.mem_append_left _ among
      · apply List.mem_append_right _ (ih mem)

/-- A line that is in place is a label of the method or belongs to the code of an instruction. -/
theorem of_mem_inPlace (mem : line ∈ m.inPlace index codes) :
  (∃ label, line = .label label) ∨ ∃ code ∈ codes, line ∈ code
  := by
  have labels {j : Nat} (mem : line ∈ (m.labelsAt j).map Line.label) : ∃ label, line = .label label := by
    obtain ⟨label, -, rfl⟩ := List.mem_map.1 mem
    use label
  induction codes generalizing index with
  | nil =>
      left
      apply labels mem
  | cons code codes ih =>
      rw [inPlace, List.mem_append, List.mem_append] at mem
      obtain mem | mem | mem := mem
      · left
        apply labels mem
      · right
        use code, List.mem_cons_self .., mem
      · obtain label | ⟨code', mem', among⟩ := ih mem
        · left
          apply label
        · right
          use code', List.mem_cons_of_mem code mem', among

end Method

/-- Among the pieces the label stands, up to other labels, right before the code at the index, or before the
lines `closing` that follow the last code. -/
def Piece.Stands (pieces : List Piece) (codes : List (List Line)) (closing : List Line) (label : String)
    (index : Nat) : Prop :=
  ∃ ps others qs,
    pieces = ps ++ .kept (.label label) :: (List.map (fun name => .kept (.label name)) others ++ qs)
      ∧ (∀ code, codes[index]? = some code → code <+: qs.flatMap before)
      ∧ (index = codes.length → qs.flatMap before = closing)

theorem Piece.Stands.mem {pieces : List Piece} {closing : List Line} {label : String}
    (stands : Stands pieces codes closing label index) :
  .label label ∈ pieces.map after
  := by
  obtain ⟨ps, others, qs, rfl, -⟩ := stands
  simp [after]

/-- The labels of an index stand before its code when the pieces are code in place. -/
theorem Piece.stands_of_mem_labelsAt {pieces : List Piece} {closing : List Line}
    (written : pieces.flatMap before = m.inPlace 0 codes ++ closing) (le : index ≤ codes.length) {label : String}
    (mem : label ∈ m.labelsAt index) :
  Stands pieces codes closing label index
  := by
  obtain ⟨pre, rest, placed, begins, ends⟩ := @Method.inPlace_split m codes 0 index le
  obtain ⟨earlier, later, same⟩ := List.append_of_mem mem
  have parted : pieces.flatMap before
      = (pre ++ earlier.map Line.label) ++ .label label :: (later.map Line.label ++ (rest ++ closing)) := by
    rw [written, placed, Nat.zero_add, same]
    simp
  obtain ⟨ps, qs', rfl, -, follows⟩ := exists_of_flatMap_before_eq parted
  obtain ⟨qs, rfl, onward⟩ := exists_of_labels follows
  use ps, later, qs, rfl
  constructor
  · intro code here
    rw [onward]
    apply (begins code here).trans (List.prefix_append _ _)
  · intro last
    rw [onward, ends last, List.nil_append]

/-! ### The lines of a method -/

theorem Method.closing_eq (m : Method) (f : Frame) :
  m.closing f = [] ∨ m.closing f = [.inst (.ret none)]
  := by
  unfold closing
  split
  · right
    rfl
  · left
    rfl

/-- The jumps of the lines of a method that a text declares, when it has code. No label stands among the lines
twice, and each jump names a label that stands there once. The lines are the code of the instructions in
order, among their labels, with a return at the end where one is needed, and with increments fused. In the
code of an instruction stand exactly the labels that are made for it, none of them a label of the text, and
its jumps go to these labels or to the one that the instruction names. Each label of the text stands among
labels right before the code of the instruction at its index, or at the end. -/
theorem methodCode_targets {text : String} (read : parse text = .ok u) (mem : m ∈ u.methods) {code : MethodCode}
    (coded : u.methodCode m = .ok code) :
  (Line.labelNames code.listing.lines).Nodup
    ∧ (∀ label ∈ Line.jumpNames code.listing.lines, code.listing.lines.count (.label label) = 1)
    ∧ ∃ codes closing pieces,
      pieces.map after = code.listing.lines
        ∧ pieces.flatMap before = m.inPlace 0 codes ++ closing
        ∧ (closing = [] ∨ closing = [.inst (.ret none)])
        ∧ List.Forall₂ (fun i c => ∃ s t, u.IsCode m i c s t) m.body codes
        ∧ ∀ label ∈ m.labels.map Prod.fst, ∃ index ≤ m.body.length, m.labelIndex? label = some index
          ∧ Stands pieces codes closing label index
  := by
  have labelled := ((declared_of_parse read).2 m mem).labelled
  obtain ⟨body, left, f, f', made⟩ := u.methodCode_eq_ok coded
  have nodup := made.final_labelNames_nodup labelled.nodup
  obtain ⟨codes, rfl, each⟩ := ClassUnit.exists_codes made.writes fun _ => LabelSupply.mem_reserved_ofLabels
  obtain ⟨pieces, written, -, fused⟩ :=
    exists_cut (m.inPlace 0 codes ++ m.closing f) (m.inPlace 0 codes ++ m.closing f)
  have final : pieces.map after = code.listing.lines := by rw [made.lines, fuseIncrements, fused]
  have placed : ∀ label ∈ m.labels.map Prod.fst, ∃ index ≤ m.body.length, m.labelIndex? label = some index
      ∧ Stands pieces codes (m.closing f) label index := by
    intro label own
    obtain ⟨index, found, le⟩ := labelled.exists_labelIndex? own
    use index, le, found
    rw [each.length_eq] at le
    apply stands_of_mem_labelsAt written le (Method.mem_labelsAt_of_labelIndex? found)
  have lines : ∀ label, .label label ∈ m.inPlace 0 codes → .label label ∈ code.listing.lines := by
    intro label standing
    rw [← Line.mem_labelNames, made.lines, fuseIncrements, labelNames_fuseIn, Line.mem_labelNames]
    apply List.mem_append_left _ standing
  refine ⟨nodup, ?_, codes, m.closing f, pieces, final, written, m.closing_eq f, each, placed⟩
  intro label jumped
  apply Line.count_label_of_nodup nodup
  obtain ⟨line, listed, jumps⟩ := List.mem_filterMap.1 jumped
  rw [← final] at listed
  obtain old | ⟨n, t, -, rfl⟩ := mem_of_mem_map_after listed
  · rw [written, List.mem_append] at old
    obtain inside | last := old
    · obtain ⟨name, rfl⟩ | ⟨c, among, here⟩ := Method.of_mem_inPlace inside
      · cases jumps
      · obtain ⟨i, instr, s, t, isCode⟩ := exists_of_forall₂ each among
        obtain own | made := isCode.jumps label (List.mem_filterMap.2 ⟨line, here, jumps⟩)
        · obtain ⟨index, -, -, stands⟩ := placed label (labelled.jumps i instr label own)
          rw [← final]
          apply stands.mem
        · apply lines label (Method.mem_inPlace among (Line.mem_labelNames.1 made))
    · obtain none | ret := m.closing_eq f
      · rw [none] at last
        cases last
      · rw [ret] at last
        cases List.mem_singleton.1 last
        cases jumps
  · cases jumps

/-- A class with a method whose labels look like labels that are made. -/
def clashingText : String :=
  "A\x7b.method f(n.i32).V\x7bj_true_0:j_end_1:n.i32:=.V n.i32<.V 9.i32;"
    ++ "if(n.i32&&.V n.i32)goto j_skip_3;j_skip_3:\x7d\x7d"

theorem clashing_targets :
  ∃ u m code, parse clashingText = .ok u ∧ m ∈ u.methods ∧ u.methodCode m = .ok code
    ∧ m.labels = [("j_true_0", 0), ("j_end_1", 0), ("j_skip_3", 2)]
    ∧ Line.labelNames code.listing.lines
      = ["j_true_0", "j_end_1", "j_true_2", "j_end_2", "j_skip_4", "j_skip_3"]
    ∧ Line.jumpNames code.listing.lines = ["j_true_2", "j_end_2", "j_skip_4", "j_skip_3"]
    ∧ ∀ label ∈ Line.jumpNames code.listing.lines, code.listing.lines.count (.label label) = 1
  := by
  have checked : ((parse clashingText).toOption.any fun u => u.methods[0]?.any fun m =>
      decide (m.labels = [("j_true_0", 0), ("j_end_1", 0), ("j_skip_3", 2)])
        && (u.methodCode m).toOption.any fun code => decide (Line.labelNames code.listing.lines
            = ["j_true_0", "j_end_1", "j_true_2", "j_end_2", "j_skip_4", "j_skip_3"]
          ∧ Line.jumpNames code.listing.lines
            = ["j_true_2", "j_end_2", "j_skip_4", "j_skip_3"])) = true := by
    decide +kernel
  rw [Option.any_eq_true] at checked
  obtain ⟨u, parsed, checked⟩ := checked
  rw [Option.any_eq_true] at checked
  obtain ⟨m, first, checked⟩ := checked
  rw [Bool.and_eq_true, Option.any_eq_true] at checked
  obtain ⟨labels, code, coded, names⟩ := checked
  have parsed := eq_ok_of_toOption parsed
  have coded := eq_ok_of_toOption coded
  have mem := List.mem_of_getElem? first
  obtain ⟨labelled, jumping⟩ := of_decide_eq_true names
  use u, m, code, parsed, mem, coded, of_decide_eq_true labels, labelled, jumping
  apply (methodCode_targets parsed mem coded).2.1

end StackBackend
