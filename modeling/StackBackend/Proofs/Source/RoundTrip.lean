import StackBackend.Proofs.Source.Methods
import StackBackend.Proofs.Source.PrintedMembers
import StackBackend.Proofs.Source.Sentences

/-!
# Reading printed classes back

A printed method is accepted by the check: its labels come back at their places, since they are
listed in the order in which they are printed, and its variables get the same entries. A printed
class is read back as the class.
-/

namespace StackBackend

variable {owner : String}

/-! ### What is read back -/

namespace Instr

/-- What an instruction assigns to is read back as it is. -/
theorem target?_reread (i : Instr) :
  (i.reread owner).target? = i.target?
  := by
  cases i <;> rfl

/-- The label that an instruction jumps to is read back as it is. -/
theorem jumpLabel?_reread (i : Instr) :
  (i.reread owner).jumpLabel? = i.jumpLabel?
  := by
  cases i <;> rfl

/-- What an instruction reads does not depend on the receiver of a static call. -/
theorem reads_reread (i : Instr) :
  (i.reread owner).reads = i.reads
  := by
  induction i with
  | assign dest ty rhs ih => cases dest <;> simp [reread, reads, ih]
  | call kind receiver method args result => cases kind <;> rfl
  | _ => rfl

/-- The target of a changed instruction is the changed target. -/
theorem target?_map (f : Operand → Operand) (i : Instr) :
  (i.map f).target? = i.target?.map f
  := by
  cases i <;> rfl

end Instr

/-- The method that is read back. -/
def Method.reread (owner : String) (m : Method) : Method := { m with body := m.body.map (Instr.reread owner) }

/-- The table of variables does not depend on the receivers of static calls. -/
theorem variableTable_reread (isStatic : Bool) (params : List Param) (body : List Instr) :
  variableTable isStatic owner params (body.map (Instr.reread owner)) = variableTable isStatic owner params body
  := by
  have enter : (fun r i => Registry.enterInstr r (Instr.reread owner i)) = Registry.enterInstr := by
    funext r i
    simp only [Registry.enterInstr, Instr.target?_reread, Instr.reads_reread]
  rw [variableTable, List.foldl_map, enter, variableTable]

/-! ### Labels -/

namespace BodyItem

/-- The labels among items, each with the number of instructions before it, counted from `index`. -/
def labelsFrom (index : Nat) : List BodyItem → List (String × Nat)
  | [] => []
  | .label x :: items => (x, index) :: labelsFrom index items
  | .instr _ :: items => labelsFrom (index + 1) items

/-- The instructions among items. -/
def instrs (items : List BodyItem) : List Instr :=
  items.filterMap fun
    | .label _ => none
    | .instr i => some i

/-- Labels stay in their places if instructions are changed. -/
theorem labelsFrom_map (f : Instr → Instr) (index : Nat) (items : List BodyItem) :
  labelsFrom index (items.map (map f)) = labelsFrom index items
  := by
  fun_induction labelsFrom index items with
  | case1 => rfl
  | case2 index x items ih => apply congrArg ((x, index) :: ·) ih
  | case3 index i items ih => apply ih

theorem instrs_map (f : Instr → Instr) (items : List BodyItem) :
  instrs (items.map (map f)) = (instrs items).map f
  := by
  induction items with
  | nil => rfl
  | cons item items ih =>
      cases item with
      | label x => apply ih
      | instr i => apply congrArg (f i :: ·) ih

/-- The places of labels do not depend on where the items stand in the text. -/
theorem placedLabels_eq (index : Nat) (items : List (Located BodyItem)) :
  placedLabels index items = labelsFrom index (items.map Located.value)
  := by
  fun_induction placedLabels index items with
  | case1 => rfl
  | case2 index x span items ih => apply congrArg ((x, index) :: ·) ih
  | case3 index i span items ih => apply ih

/-- Nor do the instructions. -/
theorem itemInstrs_eq (items : List (Located BodyItem)) :
  itemInstrs items = instrs (items.map Located.value)
  := by
  rw [itemInstrs, instrs, List.filterMap_map]
  rfl

/-- Nothing is wrong with items whose labels are distinct and that assign to no literal. -/
theorem itemFault?_eq_none {items : List (Located BodyItem)} {seen : List String} (index : Nat)
    (distinct : ((placedLabels index items).map Prod.fst).Nodup)
    (fresh : ∀ x ∈ (placedLabels index items).map Prod.fst, x ∉ seen)
    (targets : ∀ i ∈ itemInstrs items, ∀ e ∈ i.target?, e.isLiteral = false) :
  itemFault? seen items = none
  := by
  fun_induction itemFault? seen items generalizing index with
  | case1 => rfl
  | case2 seen x span items mem => apply (fresh x (by simp [placedLabels]) mem).elim
  | case3 seen x span items new ih =>
      simp only [placedLabels, List.map_cons, List.nodup_cons, List.forall_mem_cons] at distinct fresh
      apply ih index distinct.2 _ targets
      intro y mem
      rw [List.mem_cons, not_or]
      constructor
      · intro same
        apply distinct.1 (same ▸ mem)
      · apply fresh.2 y mem
  | case4 seen value ty ty' rhs span items =>
      have := targets _ List.mem_cons_self _ rfl
      simp [Operand.isLiteral] at this
  | case5 seen i span items other ih =>
      apply ih (index + 1) distinct fresh
      intro i mem
      apply targets i (List.mem_cons_of_mem _ mem)

/-- A body whose jumps go to its labels has no fault of jumps. -/
theorem jumpFault?_eq_none {items : List (Located BodyItem)} {method : String} {labels : List String}
    (jumps : ∀ i ∈ itemInstrs items, ∀ label ∈ i.jumpLabel?, label ∈ labels) :
  jumpFault? method labels items = none
  := by
  rw [jumpFault?, List.findSome?_eq_none_iff]
  intro item mem
  cases value : item.value with
  | label x => rfl
  | instr i =>
      have listed := mem_itemInstrs.2 ⟨item, mem, value⟩
      simpa using jumps i listed

end BodyItem

namespace Method

/-- The items of a method hold its instructions. -/
theorem instrs_itemsFrom (m : Method) (index : Nat) (body : List Instr) :
  BodyItem.instrs (m.itemsFrom index body) = body
  := by
  have labels (xs : List String) (items : List BodyItem) :
      BodyItem.instrs (xs.map .label ++ items) = BodyItem.instrs items := by
    induction xs with
    | nil => rfl
    | cons x xs ih => apply ih
  induction body generalizing index with
  | nil =>
      rw [itemsFrom, ← List.append_nil (List.map ..), labels]
      rfl
  | cons i body ih =>
      rw [itemsFrom, labels]
      apply congrArg (i :: ·) (ih (index + 1))

/-- The labels from a number on are those at the number and those after it. -/
theorem labels_filter_succ {labels : List (String × Nat)} (sorted : labels.Pairwise (·.2 ≤ ·.2)) (index : Nat) :
  labels.filter (index ≤ ·.2) = labels.filter (·.2 = index) ++ labels.filter (index < ·.2)
  := by
  induction labels with
  | nil => rfl
  | cons label labels ih =>
      obtain ⟨first, sorted⟩ := List.pairwise_cons.1 sorted
      obtain before | here | after := Nat.lt_trichotomy label.2 index
      · simp [ih sorted, Nat.not_le.2 before, Nat.ne_of_lt before, Nat.not_lt.2 (Nat.le_of_lt before)]
      · simp [ih sorted, here]
      · have none : labels.filter (·.2 = index) = [] := by
          rw [List.filter_eq_nil_iff]
          intro l mem
          have := first l mem
          simp
          omega
        simp [ih sorted, none, Nat.le_of_lt after, Nat.ne_of_gt after, after]

/-- The labels printed before an instruction are those with its place. -/
theorem labelsAt_map (m : Method) (index : Nat) :
  (m.labelsAt index).map (·, index) = m.labels.filter (·.2 = index)
  := by
  rw [labelsAt, List.map_map]
  apply Eq.trans _ (List.map_id _)
  apply List.map_congr_left
  rintro ⟨x, k⟩ mem
  simp_all

/-- Listed in order, the labels come back where they stand. -/
theorem labelsFrom_itemsFrom {m : Method} (sorted : m.labels.Pairwise (·.2 ≤ ·.2)) {index : Nat} {body : List Instr}
    (placed : ∀ label ∈ m.labels, label.2 ≤ index + body.length) :
  BodyItem.labelsFrom index (m.itemsFrom index body) = m.labels.filter (index ≤ ·.2)
  := by
  have labels (index : Nat) (xs : List String) (items : List BodyItem) :
      BodyItem.labelsFrom index (xs.map .label ++ items) = xs.map (·, index) ++ BodyItem.labelsFrom index items := by
    induction xs with
    | nil => rfl
    | cons x xs ih => apply congrArg ((x, index) :: ·) ih
  induction body generalizing index with
  | nil =>
      have none : m.labels.filter (index < ·.2) = [] := by
        rw [List.filter_eq_nil_iff]
        intro label mem
        simpa using placed label mem
      rw [labels_filter_succ sorted, none, ← labelsAt_map, itemsFrom]
      simpa [BodyItem.labelsFrom] using labels index (m.labelsAt index) []
  | cons i body ih =>
      rw [labels_filter_succ sorted, ← labelsAt_map, itemsFrom, labels]
      congr 1
      apply ih
      intro label mem
      have := placed label mem
      grind

end Method

/-! ### Checked methods -/

/-- A method is well labelled, its labels are listed in order, and the variables have the entries that a
check gives them. -/
structure Method.IsSettled (owner : String) (m : Method) : Prop where
  labelled : m.WellLabelled
  sorted : m.labels.Pairwise (·.2 ≤ ·.2)
  vars : m.vars = variableTable m.isStatic owner m.params m.body

/-- A statement that can be printed assigns to no literal. -/
theorem Instr.isLiteral_target {i : Instr} (statement : i.IsStatement owner) {e : Operand} (target : e ∈ i.target?) :
  e.isLiteral = false
  := by
  cases i with
  | assign dest ty rhs =>
      obtain rfl : dest = e := by simpa [target?] using target
      apply statement.2.1
  | _ => simp [target?] at target

/-- Typing the receiver makes no literal and removes none. -/
theorem isLiteral_typeReceiver (owner : String) (e : Operand) :
  (typeReceiver owner e).isLiteral = e.isLiteral
  := by
  cases e with
  | literal | item => rfl
  | var x ty => by_cases receiver : x = "this" <;> simp [typeReceiver, receiver, Operand.isLiteral]

/-- The declaration that a printed method is read back as is accepted: each instruction that is read is one of
the method, the receiver aside. -/
theorem MethodDecl.check_of_writes {m : Method} {d : MethodDecl} (printable : m.IsPrintable owner)
    (settled : m.IsSettled owner) (writes : d.Writes owner m) :
  d.check owner = .ok (m.reread owner)
  := by
  obtain ⟨heading, items⟩ := writes
  obtain ⟨name, access, isStatic, isConstructor, params, ret, body⟩ := d
  obtain ⟨rfl, rfl, rfl, rfl, rfl, rfl⟩ : name = m.name ∧ access = m.access ∧ isStatic = m.isStatic
      ∧ isConstructor = m.isConstructor ∧ params = m.params ∧ ret = m.ret := by simpa using heading
  have items : (body.map Located.value).map (·.typed owner) = m.items.map (·.reread owner) := by
    simpa [Function.comp_def] using items
  have labels : placedLabels 0 body = m.labels := by
    rw [BodyItem.placedLabels_eq, ← BodyItem.labelsFrom_map (Instr.map (typeReceiver owner))]
    apply (congrArg _ items).trans
    apply (BodyItem.labelsFrom_map _ _ _).trans
    rw [Method.items, Method.labelsFrom_itemsFrom settled.sorted (by simpa using settled.labelled.inside)]
    simp
  have instrs : (itemInstrs body).map (Instr.map (typeReceiver owner)) = m.body.map (Instr.reread owner) := by
    rw [BodyItem.itemInstrs_eq, ← BodyItem.instrs_map]
    apply (congrArg _ items).trans
    apply (BodyItem.instrs_map _ _).trans
    rw [Method.items, Method.instrs_itemsFrom]
  have each (i : Instr) (mem : i ∈ itemInstrs body) :
      ∃ j ∈ m.body, i.map (typeReceiver owner) = j.reread owner := by
    have := List.mem_map_of_mem (f := Instr.map (typeReceiver owner)) mem
    rw [instrs, List.mem_map] at this
    obtain ⟨j, mem, same⟩ := this
    use j, mem, same.symm
  have fault : itemFault? [] body = none := by
    apply BodyItem.itemFault?_eq_none 0
    · apply labels ▸ settled.labelled.nodup
    · simp
    · intro i mem e target
      obtain ⟨j, mem, same⟩ := each i mem
      have target := congrArg Instr.target? same
      rw [Instr.target?_map, Instr.target?_reread] at target
      rw [← isLiteral_typeReceiver owner]
      apply Instr.isLiteral_target (printable.body j mem)
      simp_all
  have jumps : jumpFault? m.name (m.labels.map Prod.fst) body = none := by
    apply BodyItem.jumpFault?_eq_none
    intro i mem label jump
    obtain ⟨j, mem, same⟩ := each i mem
    have same := congrArg Instr.jumpLabel? same
    rw [Instr.jumpLabel?_map, Instr.jumpLabel?_reread] at same
    apply settled.labelled.jumps j mem label (same ▸ jump)
  simp only [MethodDecl.check, labels, fault, jumps, instrs, variableTable_reread, ← settled.vars]
  rfl

/-! ### Classes -/

/-- The characters of a dotted name. -/
theorem dotted_toList (head : String) (tail : List String) :
  (".".intercalate (head :: tail)).toList
    = head.toList ++ tail.flatMap fun x => Fixed.dot.text.toList ++ x.toList
  := by
  induction tail generalizing head with
  | nil => simp [String.intercalate_singleton]
  | cons x tail ih => simp [String.intercalate_cons_cons, ih, Fixed.text]

/-- The line of an import. -/
def importLine (path : String) : String := "import " ++ path ++ ";"

/-- The line of an import spells its form. -/
theorem importPath_spells {path : String} (dotted : IsDotted path) :
  Spells Anything ((importLine path).toList ++ ['\n']) Form.importPath (· = path)
  := by
  obtain ⟨head, tail, idents, rfl⟩ := dotted
  rw [List.forall_mem_cons] at idents
  have components : SpellsMarked Delimited (tail.flatMap fun x => Fixed.dot.text.toList ++ x.toList)
      (Form.Many do Form.word .dot; Form.ident) (·.map id = tail.map id) :=
    many_marked fun x mem => mark_spellsMarked (by decide) (ident_spells (idents.2 x mem))
  apply Spells.line
  apply Spells.of_eq
  · apply (word_spells _).andThen
    apply space_spellsMarked
    apply (ident_spells idents.1).andThen
    apply components.bind
    intro tail' same
    apply mark_spellsMarked (by decide)
    rw [List.map_id, List.map_id] at same
    apply spells_pure (by rw [same])
  · rw [importLine, String.toList_append, String.toList_append, dotted_toList]
    simp [Fixed.text]

/-- A class that can be written. -/
structure ClassUnit.IsPrintable (u : ClassUnit) : Prop where
  name : IsIdent u.name
  superName : ∀ x ∈ u.superName, IsIdent x
  imports : ∀ path ∈ u.imports, IsDotted path
  fields : ∀ f ∈ u.fields, f.IsPrintable
  methods : ∀ m ∈ u.methods, m.IsPrintable u.name

/-- The text of the superclass, if there is one. -/
theorem superName_spells {superName : Option String} (ident : ∀ x ∈ superName, IsIdent x) :
  SpellsMarked Delimited (match superName with
    | some x => " extends " ++ x
    | none => "").toList
    (Form.opt do
      Form.word .wExtends
      Form.ident) (· = superName)
  := by
  cases superName with
  | none =>
      apply SpellsMarked.right
      exact spellsMarked_pure rfl
  | some x =>
      apply SpellsMarked.left
      apply SpellsMarked.of_eq
      · have named : SpellsMarked Delimited _ (do Form.word .wExtends; Form.ident) (· = x) :=
          space_spellsMarked ((word_spells _).andThen (space_spellsMarked (ident_spells (ident x rfl))))
        exact named.andThen (spellsMarked_pure rfl)
      · simp [Fixed.text]

/-- The members of a printed class: its fields, and then its methods. -/
def ClassUnit.members (u : ClassUnit) : List (Field ⊕ Method) :=
  u.fields.map .inl ++ u.methods.map .inr

/-- The text of a member in a printed class. -/
def memberText (owner : String) : Field ⊕ Method → List Char
  | .inl f => (ClassUnit.fieldLine f).toList ++ ['\n']
  | .inr m => '\n' :: (Text.ofLines (m.lines owner)).toList

/-- A member with the outcome of its check. -/
def Member.checked (owner : String) : Member → Field ⊕ Except SourceError Method
  | .field f => .inl f
  | .method d => .inr (d.check owner)

/-- The outcome of the check of a printed member. -/
def rereadMember (owner : String) : Field ⊕ Method → Field ⊕ Except SourceError Method
  | .inl f => .inl f
  | .inr m => .inr (.ok (m.reread owner))

/-- The text of a member spells its form, and the member is checked as it is read again. -/
theorem member_spells (home : IsIdent owner) {member : Field ⊕ Method}
    (field : ∀ f, member = .inl f → f.IsPrintable)
    (method : ∀ m, member = .inr m → m.IsPrintable owner ∧ m.IsSettled owner) :
  Spells Anything (memberText owner member) Form.member (·.checked owner = rereadMember owner member)
  := by
  cases member with
  | inl f =>
      apply (field_spells (field f rfl)).mono
      rintro _ _ row rfl
      exact ⟨_, row, rfl⟩
  | inr m =>
      obtain ⟨printable, settled⟩ := method m rfl
      apply (method_spells home printable).mono
      rintro _ _ row ⟨d, rfl, writes⟩
      exact ⟨_, row, congrArg Sum.inr (d.check_of_writes printable settled writes)⟩

/-- The text of a class: its imports, the line of its name, its members and the closing brace. -/
theorem ClassUnit.text_toList (u : ClassUnit) :
  u.text.toList = u.imports.flatMap (fun path => (importLine path).toList ++ ['\n'])
    ++ (u.headLine.toList ++ '\n' :: (u.members.flatMap (memberText u.name) ++ ['\x7d', '\n']))
  := by
  simp [text, lines, ofLines_toList, members, memberText, importLine, List.flatMap_map, List.flatMap_assoc]

/-- The class that is read back. -/
def ClassUnit.reread (u : ClassUnit) : ClassUnit := { u with methods := u.methods.map (Method.reread u.name) }

/-- A declaration is accepted if its members are those of a printed class. -/
theorem UnitDecl.check_of_members {u : ClassUnit} {members : List Member}
    (same : members.map (Member.checked u.name) = u.members.map (rereadMember u.name)) :
  UnitDecl.check ⟨u.imports, u.name, u.superName, members⟩ = .ok u.reread
  := by
  have fields : UnitDecl.fields ⟨u.imports, u.name, u.superName, members⟩ = u.fields :=
    calc UnitDecl.fields ⟨u.imports, u.name, u.superName, members⟩
      _ = (members.map (Member.checked u.name)).filterMap Sum.getLeft? := by
        rw [UnitDecl.fields, List.filterMap_map]
        congr
        funext member
        cases member <;> rfl
      _ = u.fields := by
        simp [same, ClassUnit.members, List.filterMap_map, Function.comp_def, rereadMember]
  have methods : (UnitDecl.methods ⟨u.imports, u.name, u.superName, members⟩).map (MethodDecl.check u.name)
      = (u.methods.map (Method.reread u.name)).map .ok :=
    calc (UnitDecl.methods ⟨u.imports, u.name, u.superName, members⟩).map (MethodDecl.check u.name)
      _ = (members.map (Member.checked u.name)).filterMap Sum.getRight? := by
        rw [UnitDecl.methods, List.filterMap_map, List.map_filterMap]
        congr
        funext member
        cases member <;> rfl
      _ = (u.methods.map (Method.reread u.name)).map .ok := by
        simp [same, ClassUnit.members, List.filterMap_map, Function.comp_def, rereadMember]
  rw [← List.forall₂_eq_eq_eq, List.forall₂_map_left_iff, List.forall₂_map_right_iff, ← mapM_eq_ok_iff] at methods
  simp only [check, methods, fields]
  rfl

/-- The text of a class spells its form, and the class is checked as it is read again. -/
theorem unit_spells {u : ClassUnit} (printable : u.IsPrintable) (settled : ∀ m ∈ u.methods, m.IsSettled u.name) :
  Spells Anything u.text.toList Form.unit (·.check = .ok u.reread)
  := by
  have members : ∀ member ∈ u.members, Spells Anything (memberText u.name member) Form.member
      (·.checked u.name = rereadMember u.name member) := by
    intro member mem
    apply member_spells printable.name
    · rintro f rfl
      apply printable.fields f (by simpa [ClassUnit.members] using mem)
    · rintro m rfl
      have mem : m ∈ u.methods := by simpa [ClassUnit.members] using mem
      use printable.methods m mem
      apply settled m mem
  have imports : Spells Anything (u.imports.flatMap fun path => (importLine path).toList ++ ['\n'])
      (Form.Many Form.importPath) (·.map id = u.imports.map id) :=
    many_closed fun path mem => importPath_spells (printable.imports path mem)
  apply Spells.of_eq
  · apply Spells.line
    apply imports.closed
    intro paths same
    rw [List.map_id, List.map_id] at same
    apply (ident_spells printable.name).andThen
    apply (superName_spells printable.superName).andThen
    apply space_spellsMarked
    apply mark_spells (by decide)
    apply blank_spells (c := '\n') rfl
    apply (many_closed members).closed
    intro members same'
    apply mark_spells (by decide)
    apply spells_pure
    rw [same]
    apply UnitDecl.check_of_members same'
  · cases superName : u.superName <;> simp [ClassUnit.text_toList, ClassUnit.headLine, superName, Fixed.text]

/-! ### Whole texts -/

/-- Lexemes that are all ruled give their tokens, and no stray character. -/
theorem Scan.tokens_ofLexemes {ls : List Lexeme} (ruled : ∀ l ∈ ls, l.rule.isSome = true) (start : Nat) :
  (ofLexemes start ls).stray = none
    ∧ (ofLexemes start ls).tokens.map Located.value = ls.filterMap Lexeme.token?
  := by
  induction ls generalizing start with
  | nil =>
      use rfl
      rfl
  | cons l ls ih =>
      rw [List.forall_mem_cons] at ruled
      obtain ⟨noStray, values⟩ := ih ruled.2 (start + byteLength l.chars)
      have notNone : l.rule.isNone = false := by simpa [Option.isNone_iff_eq_none, Option.isSome_iff_ne_none] using ruled.1
      rw [ofLexemes, notNone, List.filterMap_cons]
      cases l.token? with
      | none => use noStray, values
      | some t => use noStray, congrArg (t :: ·) values

/-- A text that spells a unit is read. -/
theorem Scan.read_of_spells {text : String} {Q : UnitDecl → Prop} (spells : Spells Anything text.toList Form.unit Q) :
  ∃ d, (ofText text).read = .ok d ∧ Q d
  := by
  obtain ⟨ls, cut, ruled, row⟩ := spells [] trivial
  have cut : Lexeme.ofChars text.toList = ls := by simpa [Lexeme.ofChars] using cut
  obtain ⟨noStray, values⟩ := tokens_ofLexemes ruled 0
  obtain ⟨d, inside, holds⟩ := row _ values
  refine ⟨d, Scan.read_eq_ok_iff.2 ?_, holds⟩
  rw [ofText, cut]
  use noStray

/-- A printed class is read back, up to the types of the receivers of its static calls. -/
theorem parse_text {u : ClassUnit} (printable : u.IsPrintable) (settled : ∀ m ∈ u.methods, m.IsSettled u.name) :
  parse u.text = .ok u.reread
  := by
  obtain ⟨d, read, checked⟩ := Scan.read_of_spells (unit_spells printable settled)
  rw [parse, readUnit, read]
  apply checked

/-! ### Canonical classes -/

/-- A static call on a name is on the class of that name; the name of the receiver stands for the class
it is in. -/
def Instr.HasClassReceiver (owner : String) : Instr → Prop
  | .assign _ _ rhs => rhs.HasClassReceiver owner
  | .call .static (.var x ty) _ _ _ => ty = .object (if x = "this" then owner else x)
  | _ => True

/-- An instruction is read back as it is if its receiver has the type of its class. -/
theorem Instr.reread_eq_self_iff {i : Instr} :
  i.reread owner = i ↔ i.HasClassReceiver owner
  := by
  induction i with
  | assign dest ty rhs ih => simp [reread, HasClassReceiver, ih]
  | call kind receiver method args result =>
      cases kind with
      | static =>
          cases receiver with
          | var x ty =>
              by_cases receiver : x = "this" <;>
                simp [reread, rereadReceiver, typeReceiver, HasClassReceiver, receiver, eq_comm]
          | literal | item => simp [reread, rereadReceiver, HasClassReceiver]
      | virtual | special => simp [reread, rereadReceiver, HasClassReceiver]
  | _ => simp [reread, HasClassReceiver]

theorem map_eq_self_iff {α : Type} {f : α → α} {as : List α} :
  as.map f = as ↔ ∀ a ∈ as, f a = a
  := by
  have := List.map_inj_left (l := as) (f := f) (g := id)
  rwa [List.map_id] at this

/-- A class is read back unchanged if its static calls are on classes. -/
theorem ClassUnit.reread_eq_self_iff {u : ClassUnit} :
  u.reread = u ↔ ∀ m ∈ u.methods, ∀ i ∈ m.body, i.HasClassReceiver u.name
  := by
  have method (m : Method) : m.reread u.name = m ↔ ∀ i ∈ m.body, i.HasClassReceiver u.name := by
    simp only [← Instr.reread_eq_self_iff, ← map_eq_self_iff]
    constructor
    · apply congrArg Method.body
    · intro same
      rw [Method.reread, same]
  simp only [← method, ← map_eq_self_iff]
  constructor
  · apply congrArg ClassUnit.methods
  · intro same
    rw [reread, same]

/-- A class whose names and literals can be written, whose methods are as a check leaves them, and
whose static calls are on classes. -/
structure ClassUnit.IsCanonical (u : ClassUnit) : Prop where
  printable : u.IsPrintable
  settled : ∀ m ∈ u.methods, m.IsSettled u.name
  receivers : ∀ m ∈ u.methods, ∀ i ∈ m.body, i.HasClassReceiver u.name

/-- Reading undoes printing on canonical classes. -/
theorem parse_text_of_isCanonical {u : ClassUnit} (canonical : u.IsCanonical) :
  parse u.text = .ok u
  := by
  rw [parse_text canonical.printable canonical.settled, ClassUnit.reread_eq_self_iff.2 canonical.receivers]

/-- A method that counts down, with a label in front of its body and one behind it. -/
def tallyMethod : Method :=
  let params : List Param := [⟨"cells", .array .int⟩, ⟨"n", .int⟩]
  let body : List Instr := [
    .assign (.var "n" .int) .int (.binary .add (.var "n" .int) (.literal "-1" .int) .int),
    .assign (.item "cells" (.var "n" .int) .int) .int (.single (.literal "0" .int)),
    .putField (.var "this" (.object "Tally")) "count" .int (.var "n" .int),
    .call .static (.var "io" (.object "io")) "println" [.var "n" .int] .void,
    .branch (.compare .gt (.var "n" .int) (.literal "0" .int)) "loop"]
  { name := "clear", access := .everyone, isStatic := false, isConstructor := false, params, ret := .void, body
    labels := [("loop", 0), ("done", 5)], vars := variableTable false "Tally" params body }

/-- A class with the method. -/
def tally : ClassUnit where
  name := "Tally"
  superName := some "Ledger"
  imports := ["books.Ledger"]
  fields := [⟨"count", .int, .owner, false, true⟩]
  methods := [tallyMethod]

/-- The class can be printed and read back. -/
theorem tally_isCanonical :
  tally.IsCanonical
  := by
  have only {P : Method → Prop} (holds : P tallyMethod) : ∀ m ∈ tally.methods, P m := by
    simpa [tally] using holds
  constructor
  · constructor
    · decide
    · decide
    · intro path mem
      obtain rfl : path = "books.Ledger" := by simpa [tally] using mem
      use "books", ["Ledger"]
      constructor
      · decide
      · rfl
    · intro f mem
      obtain rfl : f = ⟨"count", .int, .owner, false, true⟩ := by simpa [tally] using mem
      constructor
      · decide
      · decide
    · apply only
      constructor
      · decide
      · decide
      · decide
      · decide
      · decide
  · apply only
    constructor
    · constructor
      · decide
      · decide
      · decide
    · decide
    · rfl
  · apply only
    simp [tallyMethod, tally, Instr.HasClassReceiver]

/-- The class is printed and read back as it is. -/
theorem parse_tally :
  tally.IsCanonical ∧ parse tally.text = .ok tally
  := ⟨tally_isCanonical, parse_text_of_isCanonical tally_isCanonical⟩

end StackBackend
