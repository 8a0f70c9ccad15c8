import Mathlib.Tactic.Use
import StackBackend.Program.ClassUnit
import StackBackend.Proofs.Source.Printing

/-!
# Printed members

The lines of a field or a method spell a member of a class. A method is read back as a declaration
with the same heading, whose body has the labels and statements of the method in the order of their
lines.
-/

namespace StackBackend

/-! ### Lines -/

/-- The characters of lines, each with its end. -/
theorem ofLines_toList (lines : List String) :
  (Text.ofLines lines).toList = lines.flatMap fun line => line.toList ++ ['\n']
  := by
  induction lines with
  | nil => rfl
  | cons line lines ih => simp_all [Text.ofLines]

/-! ### Bodies -/

namespace BodyItem

/-- The line of a label or a statement. -/
def line : BodyItem → String
  | .label x => "    " ++ x ++ ":"
  | .instr i => "        " ++ i.text ++ ";"

/-- A label that is an identifier, or a statement that can be written. -/
def IsPrintable (owner : String) : BodyItem → Prop
  | .label x => IsIdent x
  | .instr i => i.IsStatement owner

/-- The item with `f` applied to its instruction. -/
def map (f : Instr → Instr) : BodyItem → BodyItem
  | .label x => .label x
  | .instr i => .instr (f i)

/-- The item with the receiver typed by the class `owner`. -/
def typed (owner : String) : BodyItem → BodyItem := map (Instr.map (typeReceiver owner))

/-- The item that is read back. -/
def reread (owner : String) : BodyItem → BodyItem := map (Instr.reread owner)

end BodyItem

namespace Method

/-- The labels and statements of a body in the order of their lines; the first one has the number
`index`. -/
def itemsFrom (m : Method) (index : Nat) : List Instr → List BodyItem
  | [] => (m.labelsAt index).map .label
  | i :: body => (m.labelsAt index).map .label ++ .instr i :: m.itemsFrom (index + 1) body

/-- The labels and statements of a method in the order of their lines. -/
def items (m : Method) : List BodyItem := m.itemsFrom 0 m.body

/-- The lines of the items from an instruction on: the labels before each instruction and the instruction
itself. -/
theorem itemsFrom_lines (m : Method) (index : Nat) (body : List Instr) :
  (m.itemsFrom index body).map BodyItem.line
    = (body.mapIdx fun k i => m.labelLines (index + k) ++ ["        " ++ i.text ++ ";"]).flatten
      ++ m.labelLines (index + body.length)
  := by
  induction body generalizing index with
  | nil => simp [itemsFrom, labelLines, BodyItem.line, Function.comp_def]
  | cons i body ih =>
      simp [itemsFrom, List.mapIdx_cons, labelLines, BodyItem.line, ih, Function.comp_def, Nat.add_assoc,
        Nat.add_comm 1]

/-- The lines of a method: its heading, its items and the closing brace. -/
theorem lines_eq (m : Method) (owner : String) :
  m.lines owner = m.headLine owner :: (m.items.map BodyItem.line ++ ["    \x7d"])
  := by
  simp [lines, items, itemsFrom_lines]

end Method

variable {owner : String}

/-- A text spells a form with places if it spells the form. -/
theorem placed_spells {α : Type} {F : List Char → Prop} {cs : List Char} {G : Form α} {Q : α → Prop}
    (spells : Spells F cs G Q) :
  Spells F cs (Form.placed G) fun a => Q a.value
  := spells.mono fun ts a row holds => ⟨⟨a, Form.extent ts⟩, ⟨row, rfl⟩, holds⟩

/-- The line of an item spells it, and is read back as the item is read again. -/
theorem item_spells (home : IsIdent owner) {item : BodyItem} (printable : item.IsPrintable owner) :
  Spells Anything (item.line.toList ++ ['\n']) Form.item (·.value.typed owner = item.reread owner)
  := by
  apply Spells.line
  cases item with
  | label x =>
      apply Spells.left
      apply Spells.of_eq
      · apply indent_spells "    " (by decide)
        apply (placed_spells (ident_spells printable)).bind
        rintro ⟨_, span⟩ rfl
        use (word_spells .colon).andThen (spellsMarked_pure rfl)
        intro _ _
        rfl
      · simp [BodyItem.line, Fixed.text]
  | instr i =>
      apply Spells.right
      apply Spells.of_eq
      · apply indent_spells "        " (by decide)
        apply (placed_spells (statement_spells home printable)).bind
        rintro ⟨i', span⟩ same
        apply mark_spellsMarked (by decide)
        exact spells_pure (congrArg BodyItem.instr same)
      · simp [BodyItem.line, Fixed.text]

/-- The lines of a body with the braces around them. -/
theorem body_spells (home : IsIdent owner) {items : List BodyItem}
    (printable : ∀ item ∈ items, item.IsPrintable owner) :
  Spells Anything ('\x7b' :: '\n' :: items.flatMap (fun item => item.line.toList ++ ['\n']) ++ "    \x7d".toList)
    Form.body (·.map (·.value.typed owner) = items.map (·.reread owner))
  := by
  apply Spells.of_eq
  · apply mark_spells (by decide)
    apply blank_spells (c := '\n') rfl
    apply (many_closed fun item mem => item_spells home (printable item mem)).closed
    intro items' same
    apply indent_spells "    " (by decide)
    apply mark_spells (by decide)
    exact spells_pure same
  · simp [Fixed.text]

/-! ### Headings -/

/-- The words of modifiers with what they stand for. -/
def modifierWords (access : Access) (isStatic isFinal : Bool) : List (Fixed × Modifier) :=
  (match access with
    | .everyone => [(.wPublic, .access .everyone)]
    | .owner => [(.wPrivate, .access .owner)]
    | .family => [(.wProtected, .access .family)]
    | .package => [])
  ++ (if isStatic then [(.wStatic, .static)] else []) ++ if isFinal then [(.wFinal, .final)] else []

/-- The words with a blank before each. -/
def modifiersText (access : Access) (isStatic isFinal : Bool) : List Char :=
  (modifierWords access isStatic isFinal).flatMap fun e => ' ' :: e.1.text.toList

/-- The text of modifiers before what they stand in front of. -/
theorem modifiersText_append (access : Access) (isStatic isFinal : Bool) (rest : List Char) :
  modifiersText access isStatic isFinal ++ ' ' :: rest
    = ' ' :: (access.text.toList ++ ((if isStatic then "static " else "").toList
      ++ ((if isFinal then "final " else "").toList ++ rest)))
  := by
  cases access <;> cases isStatic <;> cases isFinal <;>
    simp [Access.text, modifiersText, modifierWords, Fixed.text]

/-- The text of modifiers spells the words of their table. -/
theorem modifiers_spells (access : Access) (isStatic isFinal : Bool) :
  SpellsMarked Delimited (modifiersText access isStatic isFinal)
    (Form.Many Form.modifier) (·.map id = (modifierWords access isStatic isFinal).map Prod.snd)
  := by
  have listed : ∀ e ∈ modifierWords access isStatic isFinal, e ∈ [(Fixed.wPublic, Modifier.access .everyone),
      (.wPrivate, .access .owner), (.wProtected, .access .family), (.wStatic, .static), (.wFinal, .final)] := by
    cases access <;> cases isStatic <;> cases isFinal <;> decide
  apply many_marked
  intro e mem
  apply space_spellsMarked
  apply oneOf_spells (listed e mem)

theorem no_modifiers_spells :
  SpellsMarked Delimited [] (Form.Many Form.modifier) (· = [])
  := ⟨spells_nil .nil rfl, fun _ follows => follows⟩

/-- The modifiers that are printed give back the access. -/
theorem lastAccess_modifierWords (access : Access) (isStatic isFinal : Bool) :
  Form.lastAccess .package ((modifierWords access isStatic isFinal).map Prod.snd) = access
  := by
  cases access <;> cases isStatic <;> cases isFinal <;> rfl

/-- They give back whether a member is static. -/
theorem static_mem_modifierWords (access : Access) (isStatic isFinal : Bool) :
  decide (.static ∈ (modifierWords access isStatic isFinal).map Prod.snd) = isStatic
  := by
  cases access <;> cases isStatic <;> cases isFinal <;> decide

/-- They give back whether a member is final. -/
theorem final_mem_modifierWords (access : Access) (isStatic isFinal : Bool) :
  decide (.final ∈ (modifierWords access isStatic isFinal).map Prod.snd) = isFinal
  := by
  cases access <;> cases isStatic <;> cases isFinal <;> decide

/-- The name and the type of a parameter. -/
theorem param_spells {p : Param} (ident : IsIdent p.name) (named : p.ty.IsNamed) :
  Spells Delimited (p.name ++ "." ++ p.ty.text).toList Form.param (· = p)
  := by
  apply Spells.of_eq
  · apply (ident_spells ident).andThen
    apply (tySuffix_spells named).andThen
    exact spellsMarked_pure rfl
  · simp [Fixed.text]

/-- A list with commas between its elements and none after the last; by induction on the elements. -/
theorem listed_spells {α : Type} {G : Form α} {text : α → String} {as : List α}
    (each : ∀ a ∈ as, Spells Delimited (text a).toList G (· = a)) :
  Spells Delimited (", ".intercalate (as.map text)).toList (Form.listed G) (· = as)
  := by
  induction as with
  | nil => exact spells_nil Reader.listed_nil rfl
  | cons a as ih =>
      rw [List.forall_mem_cons] at each
      cases as with
      | nil =>
          rw [List.map_singleton, String.intercalate_singleton]
          apply each.1.mono
          rintro _ _ row rfl
          exact ⟨_, Reader.listed_last row, rfl⟩
      | cons b as =>
          have row : Spells Delimited (", ".intercalate ((a :: b :: as).map text)).toList
              (do let a ← G; Form.word .comma; let as ← Form.listed G; return a :: as) (· = a :: b :: as) := by
            apply Spells.of_eq
            · apply each.1.andThen
              apply mark_spellsMarked (by decide)
              apply space_spells
              apply (ih each.2).andThen
              exact spellsMarked_pure rfl
            · simp [String.intercalate_cons_cons, Fixed.text]
          apply row.mono
          rintro _ _ ⟨us, _, _, rfl, first, vs, _, _, rfl, comma, ws, _, _, rfl, rest, rfl, rfl⟩ same
          obtain ⟨t, rfl, mark⟩ := Form.word_iff.1 comma
          exact ⟨_, by simpa using Reader.listed_cons first mark rest, same⟩

/-- The parameters in brackets. -/
theorem params_spells {F : List Char → Prop} {params : List Param}
    (named : ∀ p ∈ params, IsIdent p.name ∧ p.ty.IsNamed) :
  SpellsMarked F (Text.enclose (params.map fun p => p.name ++ "." ++ p.ty.text) "(" ", " ")").toList
    Form.params (· = params)
  := by
  apply SpellsMarked.of_eq
  · apply mark_spellsMarked (by decide)
    apply (listed_spells fun p mem => param_spells (named p mem).1 (named p mem).2).andThen
    apply mark_spellsMarked (by decide)
    exact spells_pure rfl
  · simp [Text.enclose, Fixed.text]

/-! ### Members -/

/-- A field with a name and a type that can be written. -/
def Field.IsPrintable (f : Field) : Prop := IsIdent f.name ∧ f.ty.IsNamed

/-- The line of a field spells it as a member. -/
theorem field_spells {f : Field} (printable : f.IsPrintable) :
  Spells Anything ((ClassUnit.fieldLine f).toList ++ ['\n']) Form.member (· = .field f)
  := by
  apply Spells.line
  apply Spells.left
  apply Spells.left
  apply Spells.of_eq
  · apply indent_spells "    " (by decide)
    apply mark_spells (by decide)
    apply (word_spells _).andThen
    apply (modifiers_spells f.access f.isStatic f.isFinal).bind
    intro ms same
    apply space_spellsMarked
    apply (ident_spells printable.1).andThen
    apply (tySuffix_spells printable.2).andThen
    apply mark_spellsMarked (by decide)
    rw [List.map_id] at same
    apply spells_pure (by rw [same, lastAccess_modifierWords, static_mem_modifierWords, final_mem_modifierWords])
  · unfold ClassUnit.fieldLine
    rw [modifiersText_append]
    simp [Fixed.text]

/-- A method that can be written as a member of the class `owner`. -/
structure Method.IsPrintable (owner : String) (m : Method) : Prop where
  name : if m.isConstructor then m.name = "<init>" ∧ m.access = .everyone ∧ m.isStatic = false
    else IsIdent m.name
  params : ∀ p ∈ m.params, IsIdent p.name ∧ p.ty.IsNamed
  ret : m.ret.IsNamed
  body : ∀ i ∈ m.body, i.IsStatement owner
  labels : ∀ label ∈ m.labels, IsIdent label.1

/-- The items of a method that can be printed can be printed. -/
theorem Method.itemsFrom_isPrintable {m : Method} (printable : m.IsPrintable owner) {index : Nat} {body : List Instr}
    (statements : ∀ i ∈ body, i.IsStatement owner) :
  ∀ item ∈ m.itemsFrom index body, item.IsPrintable owner
  := by
  have labels (index : Nat) : ∀ item ∈ (m.labelsAt index).map BodyItem.label, item.IsPrintable owner := by
    simp only [labelsAt, List.map_map, List.mem_map, List.mem_filter]
    rintro _ ⟨label, ⟨mem, -⟩, rfl⟩
    apply printable.labels label mem
  induction body generalizing index with
  | nil => apply labels index
  | cons i body ih =>
      rw [List.forall_mem_cons] at statements
      rw [itemsFrom, List.forall_mem_append, List.forall_mem_cons]
      use labels index, statements.1, ih statements.2

/-- The declaration that a printed method is read back as, places aside. -/
def MethodDecl.Writes (owner : String) (m : Method) (d : MethodDecl) : Prop :=
  { d with body := [] } = ⟨m.name, m.access, m.isStatic, m.isConstructor, m.params, m.ret, []⟩
    ∧ d.body.map (·.value.typed owner) = m.items.map (·.reread owner)

/-- The lines of a method spell its declaration. -/
theorem method_spells (home : IsIdent owner) {m : Method} (printable : m.IsPrintable owner) :
  Spells Anything ('\n' :: (Text.ofLines (m.lines owner)).toList) Form.member
    fun member => ∃ d, member = .method d ∧ d.Writes owner m
  := by
  have items : ∀ item ∈ m.items, item.IsPrintable owner :=
    Method.itemsFrom_isPrintable printable printable.body
  have lines : (Text.ofLines (m.lines owner)).toList = (m.headLine owner).toList
      ++ ('\n' :: m.items.flatMap (fun item => item.line.toList ++ ['\n']) ++ "    \x7d".toList ++ ['\n']) := by
    simp [ofLines_toList, Method.lines_eq, List.flatMap_map]
  have name := printable.name
  cases isConstructor : m.isConstructor with
  | true =>
      rw [if_pos isConstructor] at name
      obtain ⟨name, access, isStatic⟩ := name
      apply Spells.of_eq
      · apply Spells.line
        apply blank_spells (c := '\n') rfl
        apply Spells.right
        apply indent_spells "    " (by decide)
        apply mark_spells (by decide)
        apply (word_spells _).andThen
        apply (no_modifiers_spells).andThen
        apply space_spellsMarked
        apply (ident_spells home).andThen
        apply (params_spells printable.params).andThen
        apply (tySuffix_spells printable.ret).andThen
        apply space_spellsMarked
        apply (body_spells home items).closed
        intro items' same
        apply spells_pure ⟨_, rfl, by simp [name, access, isStatic, isConstructor, Form.lastAccess], same⟩
      · simp [lines, Method.headLine, Method.paramsText, isConstructor, Fixed.text]
  | false =>
      rw [if_neg (by simp [isConstructor])] at name
      apply Spells.of_eq
      · apply Spells.line
        apply blank_spells (c := '\n') rfl
        apply Spells.left
        apply Spells.right
        apply indent_spells "    " (by decide)
        apply mark_spells (by decide)
        apply (word_spells _).andThen
        apply (modifiers_spells m.access m.isStatic false).bind
        intro ms words
        apply space_spellsMarked
        apply (ident_spells name).andThen
        apply (params_spells printable.params).andThen
        apply (tySuffix_spells printable.ret).andThen
        apply space_spellsMarked
        apply (body_spells home items).closed
        intro items' same
        rw [List.map_id] at words
        refine spells_pure ⟨_, rfl, ?_, same⟩
        simp only [words, lastAccess_modifierWords, static_mem_modifierWords, isConstructor]
      · rw [lines, Method.headLine, modifiersText_append]
        simp [Method.paramsText, isConstructor, Fixed.text]

end StackBackend
