import Mathlib.Tactic.Use
import StackBackend.Proofs.Source.Statements
import StackBackend.Source.Check

/-!
# The sentences that are read

The readers of bodies and members recognise their forms, and so the reader of classes accepts the
sentences of `Form.unit` and no others. A reader is a function, so a sentence stands for one
declaration.
-/

namespace StackBackend

/-! ### Bodies -/

namespace Form

variable {ts rest : List (Located Token)} {i : Instr}

/-- No statement begins with the brace that ends a body. -/
theorem statement_begins :
  Begins (· ≠ .fixed .rbrace) statement
  := by
  intro ts i row
  obtain ⟨t, G, place, head, -⟩ | row := statement_cases row []
  · refine ⟨t, by simpa using place, ?_⟩
    rintro rfl
    cases head with
    | expr head => cases head
  · obtain ⟨t, first, begins⟩ := operand_begins.bind row
    use t, first
    rintro rfl
    cases begins

/-- The place of a row that is not empty. -/
theorem extent_cons (offset : Nat) (t : Located Token) (ts : List (Located Token)) :
  extent (t :: ts) = ⟨t.span.start, stopAfter offset (t :: ts)⟩
  := by
  simp [extent, stopAfter, List.getLast?_cons]

theorem placed_begins {α : Type} {P : Token → Prop} {G : Form α} (begins : Begins P G) :
  Begins P (placed G)
  := fun _ _ row => begins row.1

/-- No item of a body begins with the brace that ends it. -/
theorem item_begins :
  Begins (· ≠ .fixed .rbrace) item
  := by
  apply Begins.union
  · apply (placed_begins ident_begins).bind.mono
    rintro _ ⟨x, rfl⟩
    simp
  · apply (placed_begins statement_begins).bind

/-- A statement after its first name. -/
theorem statement_iff_of_ident {x : String} (place : front (ts ++ rest) = some (.ident x)) :
  statement ts i ↔ (ident >>= fun x => operandAfter operand x >>= statementAfter) ts i
  := by
  rw [statement_iff_of_operand rfl place, ← bind_assoc]
  constructor
  · rintro ⟨us, vs, e, rfl, row, rest⟩
    obtain row | row := operand_iff.1 row
    · rw [List.append_assoc] at place
      obtain ⟨_, first, digits, rfl⟩ := front_append_of_begins literal_begins row _
      cases place.symm.trans first
    · use us, vs, e, rfl, row, rest
  · rintro ⟨us, vs, e, rfl, row, rest⟩
    use us, vs, e, rfl, operand_iff.2 (.inr row), rest

end Form

namespace Reader

section Placed

variable {α β : Type} {t : Option Token} {r : Reader α} {s : Located α → Reader β} {G : Form α}
  {H : Located α → Form β} {P : Token → Prop} {F E : Option Token → Prop}

/-- Goes on with what `r` reads and its place. -/
def placed (r : Reader α) (s : Located α → Reader β) : Reader β := do
  let start ← start
  let a ← r
  let stop ← offset
  s ⟨a, ⟨start, stop⟩⟩

/-- A reader with its place reads the form with its place: the start is that of the first token, and the
offset the end of the last one. -/
theorem placed_reads (reads : Reads r G F) (begins : Form.Begins P G)
    (second : ∀ a, Reads (s a) (H a) E)
    (between : ∀ a ts b rest, H a ts b → E (front rest) → F (front (ts ++ rest))) :
  Reads (placed r s) (Form.placed G >>= H) E
  := by
  intro t
  constructor
  · intro c d b _ read
    obtain ⟨start, _, started, read⟩ := eq_ok_of_bind read
    obtain ⟨a, c', taken, read⟩ := eq_ok_of_bind read
    obtain ⟨stop, _, stopped, read⟩ := eq_ok_of_bind read
    cases started
    cases stopped
    obtain ⟨us, left, row, stop⟩ := reads.sound taken
    obtain ⟨vs, left', row', stop'⟩ := (second _).sound read
    refine ⟨us ++ vs, ?_, ⟨us, vs, _, rfl, ⟨row, ?_⟩, row'⟩, ?_⟩
    · rw [left, left', List.append_assoc]
    · obtain ⟨u, us, rfl⟩ := List.exists_cons_of_length_pos (begins.length_pos row)
      simp [Form.extent_cons c.offset, left, stop]
    · rw [stop', stop, stopAfter_append]
  · rintro c _ rest b _ left ⟨us, vs, a, rfl, ⟨row, place⟩, row'⟩ follows
    obtain ⟨value, span⟩ := a
    subst place
    rw [List.append_assoc] at left
    obtain ⟨c', taken, left', stop⟩ := reads.complete_offset left row (between _ vs b rest row' follows)
    obtain ⟨d, taken', left''⟩ := (second _).complete left' row' follows
    refine ⟨d, ?_, left''⟩
    obtain ⟨u, us, rfl⟩ := List.exists_cons_of_length_pos (begins.length_pos row)
    have started : start c = .ok (u.span.start, c) := by simp [start, left]
    have stopped : offset c' = .ok (c'.offset, c') := rfl
    rw [placed, bind_eq_of_ok started, bind_eq_of_ok taken, bind_eq_of_ok stopped, stop]
    rwa [Form.extent_cons c.offset] at taken'

end Placed

/-- A label. -/
def label : Reader (Located BodyItem) :=
  placed ident fun x => do
    fixed .colon
    return ⟨.label x.value, x.span⟩

/-- A statement, whatever it begins with. -/
def anyStatement : Reader Instr := do
  match ← peek with
  | some (.ident _) =>
      let x ← ident
      let e ← operandAfter x
      statementAfter e
  | _ => statement

/-- A statement with its semicolon. -/
def step : Reader (Located BodyItem) :=
  placed anyStatement fun i => do
    fixed .semicolon
    return ⟨.instr i.value, i.span⟩

/-- Whether a name and a colon come next. -/
def labelNext : List (Located Token) → Bool
  | ⟨.ident _, _⟩ :: ⟨.fixed .colon, _⟩ :: _ => true
  | _ => false

/-- Readers in a row need no brackets. -/
theorem bind_assoc {α β γ : Type} (r : Reader α) (s : α → Reader β) (k : β → Reader γ) (c : Cursor) :
  (r >>= s >>= k) c = (r >>= fun a => s a >>= k) c
  := by
  simp only [bind_apply]
  cases r c <;> rfl

/-- A label begins with a name and a colon. -/
theorem labelNext_of_label {ts rest : List (Located Token)} {item : Located BodyItem}
    (row : Form.label ts item) :
  labelNext (ts ++ rest) = true
  := by
  obtain ⟨us, _, ⟨x, span⟩, rfl, ⟨row, -⟩, vs, _, _, rfl, row', rfl, -⟩ := row
  obtain ⟨⟨_, place⟩, rfl, rfl⟩ := Form.ident_iff.1 row
  obtain ⟨⟨_, place'⟩, rfl, rfl⟩ := Form.word_iff.1 row'
  rfl

/-- A statement does not begin with a name and a colon. -/
theorem not_labelNext_of_step {ts rest : List (Located Token)} {item : Located BodyItem}
    (row : Form.step ts item) :
  labelNext (ts ++ rest) ≠ true
  := by
  obtain ⟨us, vs, ⟨i, span⟩, rfl, ⟨row, -⟩, -⟩ := row
  rw [List.append_assoc]
  by_cases named : ∃ x, front (us ++ (vs ++ rest)) = some (.ident x)
  · obtain ⟨x, name⟩ := named
    obtain ⟨_, us, y, rfl, row, after⟩ := (Form.statement_iff_of_ident name).1 row
    obtain ⟨⟨_, place⟩, rfl, rfl⟩ := Form.ident_iff.1 row
    obtain ⟨t, place, mark⟩ := Form.front_append_of_begins Form.operandAfter_begins.bind after (vs ++ rest)
    unfold labelNext
    split
    · obtain rfl | rfl := mark <;> simp_all
    · simp
  · unfold labelNext
    split
    · simp_all
    · simp

/-- A body item is read as a label if the token after a name is a colon, and else as a statement. -/
theorem bodyItem_apply (c : Cursor) :
  bodyItem c = if labelNext c.rest then label c else step c
  := by
  obtain ⟨rest, offset, ended⟩ := c
  match rest with
  | [] | ⟨.fixed _, _⟩ :: _ | ⟨.int _, _⟩ :: _ | ⟨.str _, _⟩ :: _ => rfl
  | ⟨.ident x, span⟩ :: rest =>
      by_cases mark : front rest = some (.fixed .colon)
      · obtain ⟨⟨_, place⟩, rest, rfl, rfl⟩ : ∃ t rest', rest = t :: rest' ∧ t.value = .fixed .colon := by
          cases rest <;> simp_all
        rfl
      · have other : labelNext (⟨.ident x, span⟩ :: rest) = false := by
          unfold labelNext
          grind [front]
        have read : bodyItem ⟨⟨.ident x, span⟩ :: rest, offset, ended⟩
            = (if decide (front rest = some (.fixed .colon)) then do
                let stop ← Reader.offset
                fixed .colon
                return ⟨.label x, ⟨span.start, stop⟩⟩
              else operandAfter x >>= fun e => statementAfter e >>= endStatement span.start)
              ⟨rest, span.stop, none⟩ := rfl
        have stepped : step ⟨⟨.ident x, span⟩ :: rest, offset, ended⟩
            = (operandAfter x >>= statementAfter >>= endStatement span.start) ⟨rest, span.stop, none⟩ := rfl
        rw [if_neg (by simp [other]), read, stepped, if_neg (by simpa using mark), bind_assoc]

theorem label_reads :
  Reads label Form.label Any
  := by
  apply placed_reads ident_reads Form.ident_begins
  · intro x
    apply (fixed_reads _).step
    intro _
    apply pure_reads
  · intros
    trivial

/-- A statement is read to the semicolon after it. -/
theorem anyStatement_reads :
  Reads anyStatement Form.statement Semicolon
  := by
  have named : Reads (do
      let x ← ident
      let e ← operandAfter x
      statementAfter e)
      (Form.ident >>= fun x => Form.operandAfter Form.operand x >>= Form.statementAfter) Semicolon := by
    apply ident_reads.step
    intro x
    apply (operandAfter_reads x).step
    apply statementAfter_reads
  intro t
  apply ReadsFrom.peek
  split
  · next x =>
      apply (named _).congr
      intro _ _ _
      apply Form.statement_iff_of_ident
  · next other => apply statement_reads other

theorem step_reads :
  Reads step Form.step Any
  := by
  apply placed_reads anyStatement_reads Form.statement_begins
  · intro i
    apply (fixed_reads _).step
    intro _
    apply pure_reads
  · intro i ts item rest row _
    obtain ⟨_, place, rfl⟩ := Form.front_append_of_begins (Form.word_begins _).bind row rest
    apply place

/-- Whether a name and a colon come next decides between the two forms of items. -/
theorem bodyItem_reads :
  Reads bodyItem Form.item Any
  := by
  intro t
  constructor
  · intro c d item _ read
    rw [bodyItem_apply] at read
    split at read
    · obtain ⟨ts, left, row, stop⟩ := label_reads.sound read
      use ts, left
      constructor
      · left
        apply row
      · apply stop
    · obtain ⟨ts, left, row, stop⟩ := step_reads.sound read
      use ts, left
      constructor
      · right
        apply row
      · apply stop
  · rintro c ts rest item _ left (row | row) follows
    · rw [bodyItem_apply, if_pos (left ▸ labelNext_of_label row)]
      apply label_reads.complete left row follows
    · rw [bodyItem_apply, if_neg (left ▸ not_labelNext_of_step row)]
      apply step_reads.complete left row follows

/-- A closing brace follows. -/
def Close : Option Token → Prop := (· = some (.fixed .rbrace))

/-- The items of a body, up to its closing brace. -/
theorem body_reads :
  Reads body Form.body Any
  := by
  have items : Reads (many (· ≠ .fixed .rbrace) bodyItem) (Form.Many Form.item) Close := by
    apply many_reads bodyItem_reads
    · apply Form.item_begins.mono (by simp)
    · simp [Any]
    · rintro _ rfl
      simp [Any]
  apply (fixed_reads _).step
  intro _
  apply items.before _ rfl
  intro items
  apply (fixed_reads _).step
  intro _
  apply pure_reads

end Reader

/-! ### Members and classes -/

namespace Form

/-- The last of the modifiers of access counts. -/
theorem lastAccess_eq (default : Access) (ms : List Modifier) :
  lastAccess default ms = Modifier.accessOr default ms
  := by
  induction ms generalizing default with
  | nil => rfl
  | cons m ms ih =>
      cases m with
      | access a =>
          change (a :: _).getLastD default = _
          rw [List.getLastD_cons]
          apply ih a
      | static | final => apply ih default

theorem modifier_begins :
  Begins (fun t => (Reader.modifier? t).isSome = true) modifier
  := oneOf_begins (by decide)

/-- A field after its dot. -/
def fieldAfter : Form Member := do
  word .wField
  let ms ← Many modifier
  let x ← ident
  let ty ← tySuffix
  word .semicolon
  return .field (Modifier.field ms x ty)

/-- A method after its dot. -/
def methodAfter : Form Member := do
  word .wMethod
  let ms ← Many modifier
  let x ← ident
  let ps ← params
  let ret ← tySuffix
  let items ← body
  return .method (Modifier.method ms x ps ret items)

/-- A constructor after its dot. -/
def constructorAfter : Form Member := do
  word .wConstruct
  let ms ← Many modifier
  let _ ← ident
  let ps ← params
  let ret ← tySuffix
  let items ← body
  return .method (Modifier.constructor ms ps ret items)

theorem fieldAfter_begins :
  Begins (· = .fixed .wField) fieldAfter
  := (word_begins _).bind

theorem methodAfter_begins :
  Begins (· = .fixed .wMethod) methodAfter
  := (word_begins _).bind

theorem constructorAfter_begins :
  Begins (· = .fixed .wConstruct) constructorAfter
  := (word_begins _).bind

/-- The three forms of members have the dot in common. -/
theorem member_iff {ts : List (Located Token)} {m : Member} :
  member ts m ↔ (do
    word .dot
    fieldAfter ∪ methodAfter ∪ constructorAfter : Form Member) ts m
  := by
  have access : lastAccess = Modifier.accessOr := by
    funext default ms
    apply lastAccess_eq default ms
  have listed (m : Modifier) (ms : List Modifier) : decide (m ∈ ms) = ms.contains m := by
    simp
  have field_eq : field = (do word .dot; fieldAfter) := by
    simp only [field, access, listed]
    rfl
  have method_eq : method = (do word .dot; methodAfter) := by
    simp only [method, access, listed]
    rfl
  have constructor_eq : constructor = (do word .dot; constructorAfter) := by
    simp only [constructor, access, listed]
    rfl
  rw [member, field_eq, method_eq, constructor_eq]
  constructor
  · rintro ((row | row) | row)
    · apply bind_union.1 (.inl (bind_union.1 (.inl row)))
    · apply bind_union.1 (.inl (bind_union.1 (.inr row)))
    · apply bind_union.1 (.inr row)
  · intro row
    obtain row | row := bind_union.2 row
    · left
      apply bind_union.2 row
    · right
      apply row

theorem member_begins :
  Begins (· = .fixed .dot) member
  := fun _ _ row => (word_begins _).bind (member_iff.1 row)

end Form

namespace Reader

theorem modifier_reads :
  Reads (accept modifier?) Form.modifier Any
  := by
  apply oneOf_reads
  · decide
  · intro t m found
    unfold modifier? at found
    split at found <;> cases found <;> exact ⟨_, by simp, rfl⟩

/-- A name follows. -/
def Named : Option Token → Prop := fun t => ∃ x, t = some (.ident x)

/-- Readers in a row where a name stands after the first. -/
theorem Reads.named {α β : Type} {r : Reader α} {G : Form α} {s : α → String → Reader β}
    {H : α → String → Form β} {E : Option Token → Prop} (first : Reads r G Named)
    (second : ∀ a x, Reads (s a x) (H a x) E) :
  Reads (r >>= fun a => ident >>= s a) (G >>= fun a => Form.ident >>= H a) E
  := by
  apply first.bind fun a => ident_reads.step (second a)
  intro a ts b rest row _
  obtain ⟨_, place, x, rfl⟩ := Form.front_append_of_begins Form.ident_begins.bind row rest
  use x, place

/-- Modifiers are read up to the name that they stand before. -/
theorem modifiers_reads :
  Reads modifiers (Form.Many Form.modifier) Named
  := by
  apply many_reads modifier_reads Form.modifier_begins
  · simp [Any]
  · rintro _ ⟨x, rfl⟩
    simp [modifier?, Any]

theorem param_reads :
  Reads param Form.param Any
  := by
  apply ident_reads.step
  intro x
  apply (tySuffix_reads _).step
  intro ty
  apply pure_reads

/-- Parameters with commas in brackets. -/
theorem params_reads :
  Reads params Form.params Any
  := by
  apply (fixed_reads _).step
  intro _
  apply Reads.before (F := (· = some (.fixed .rparen)))
  · apply listed_reads param_reads
    · apply Form.ident_begins.bind.mono
      rintro _ ⟨x, rfl⟩
      rfl
    · trivial
    · rintro _ rfl
      simp [Any]
  · intro ps
    apply (fixed_reads _).step
    intro _
    apply pure_reads
  · rfl

theorem field_reads :
  Reads (do fixed .wField; field) Form.fieldAfter Any
  := by
  apply (fixed_reads _).step
  intro _
  apply modifiers_reads.named
  intro ms x
  apply (tySuffix_reads _).step
  intro ty
  apply (fixed_reads _).step
  intro _
  apply pure_reads

theorem method_reads :
  Reads (do fixed .wMethod; method) Form.methodAfter Any
  := by
  apply (fixed_reads _).step
  intro _
  apply modifiers_reads.named
  intro ms x
  apply params_reads.step
  intro ps
  apply (tySuffix_reads _).step
  intro ret
  apply body_reads.step
  intro items
  apply pure_reads

theorem constructor_reads :
  Reads (do fixed .wConstruct; constructor) Form.constructorAfter Any
  := by
  apply (fixed_reads _).step
  intro _
  apply modifiers_reads.named
  intro ms _
  apply params_reads.step
  intro ps
  apply (tySuffix_reads _).step
  intro ret
  apply body_reads.step
  intro items
  apply pure_reads

/-- The word after the dot decides between the forms of members. -/
theorem member_reads :
  Reads member Form.member Any
  := by
  apply Reads.congr _ fun _ _ => Form.member_iff
  apply (fixed_reads _).step
  intro _ t
  apply ReadsFrom.peek
  split
  · apply ReadsFrom.left (ReadsFrom.left (field_reads _) Form.methodAfter_begins _) Form.constructorAfter_begins
    · simp
    · simp
  · apply ReadsFrom.left (ReadsFrom.right (method_reads _) Form.fieldAfter_begins _) Form.constructorAfter_begins
    · simp
    · simp
  · apply (constructor_reads t).right (P := fun u => u = .fixed .wField ∨ u = .fixed .wMethod)
    · apply Form.Begins.union
      · apply Form.fieldAfter_begins.mono fun _ => .inl
      · apply Form.methodAfter_begins.mono fun _ => .inr
    · grind

theorem segment_reads :
  Reads (do fixed .dot; ident) (do Form.word .dot; Form.ident) Any
  := by
  apply (fixed_reads _).step
  intro _
  apply ident_reads

/-- Names with dots, up to a semicolon. -/
theorem importPath_reads :
  Reads importPath Form.importPath Any
  := by
  have tail : Reads (many (· = .fixed .dot) (do fixed .dot; ident))
      (Form.Many (do Form.word .dot; Form.ident)) (· = some (.fixed .semicolon)) := by
    apply many_reads segment_reads
    · apply (Form.word_begins _).bind.mono (by simp)
    · simp [Any]
    · rintro _ rfl
      simp [Any]
  apply (fixed_reads _).step
  intro _
  apply ident_reads.step
  intro head
  apply tail.before _ rfl
  intro tail
  apply (fixed_reads _).step
  intro _
  apply pure_reads

/-- The name after `extends`, if there is one. -/
theorem superName_reads :
  Reads (do
    if ← nextIs .wExtends then
      fixed .wExtends
      return some (← ident)
    else
      return none)
    (Form.opt do
      Form.word .wExtends
      Form.ident) (· = some (.fixed .lbrace))
  := by
  have named : Reads (do
      fixed .wExtends
      return some (← ident))
      (do return some (← (do Form.word .wExtends; Form.ident))) Any := by
    apply Reads.congr _ fun _ _ => Form.bind_assoc
    apply (fixed_reads _).step
    intro _
    apply ident_reads.step
    intro x
    apply pure_reads
  intro t
  apply ReadsFrom.nextIs
  split
  · next more =>
      apply (named.any t).goOn
      grind
  · next done =>
      apply ReadsFrom.stop (Form.word_begins _).bind.bind
      grind

/-- The reader of classes reads the form of classes. -/
theorem unit_reads :
  Reads unit Form.unit Any
  := by
  have imports : Reads (many (· = .fixed .wImport) importPath) (Form.Many Form.importPath) Named := by
    apply many_reads importPath_reads
    · apply (Form.word_begins _).bind.mono (by simp)
    · simp [Any]
    · rintro _ ⟨x, rfl⟩
      simp [Any]
  have members : Reads (many (· = .fixed .dot) member) (Form.Many Form.member) Close := by
    apply many_reads member_reads
    · apply Form.member_begins.mono (by simp)
    · simp [Any]
    · rintro _ rfl
      simp [Any]
  apply imports.named
  intro imports name
  apply superName_reads.before _ rfl
  intro superName
  apply (fixed_reads _).step
  intro _
  apply members.before _ rfl
  intro members
  apply (fixed_reads _).step
  intro _
  apply pure_reads

end Reader

/-- The reader of classes accepts the sentences of the grammar, each for what it stands for. -/
theorem Scan.read_eq_ok_iff {scan : Scan} {d : UnitDecl} :
  scan.read = .ok d ↔ scan.stray = none ∧ Form.unit scan.tokens d
  := by
  constructor
  · intro read
    unfold Scan.read at read
    split at read
    · cases read
    · next decl c taken =>
        split at read
        · next ended =>
            cases read
            obtain ⟨left, noStray⟩ := Bool.and_eq_true_iff.1 ended
            obtain ⟨ts, all, row, -⟩ := Reader.unit_reads.sound taken
            obtain rfl : scan.tokens = ts := by simpa [List.isEmpty_iff.1 left] using all
            use Option.isNone_iff_eq_none.1 noStray
        · cases read
  · rintro ⟨noStray, row⟩
    obtain ⟨c, taken, left⟩ := Reader.unit_reads.complete (c := ⟨scan.tokens, 0, none⟩)
      (List.append_nil _).symm row trivial
    simp [Scan.read, taken, left, noStray]

/-- The grammar stage accepts a list of tokens just when the list is a sentence, a sentence stands
for one declaration only, and that declaration is the one returned. -/
theorem read_iff_sentence (ts : List (Located Token)) :
  ((∃ d, Scan.read ⟨ts, none⟩ = .ok d) ↔ ∃ d, Form.unit ts d)
    ∧ (∀ d d', Form.unit ts d → Form.unit ts d' → d = d')
    ∧ ∀ d, Form.unit ts d → Scan.read ⟨ts, none⟩ = .ok d
  := by
  have read (d : UnitDecl) : Scan.read ⟨ts, none⟩ = .ok d ↔ Form.unit ts d := by
    simp [Scan.read_eq_ok_iff]
  and_intros
  · apply exists_congr read
  · intro d d' row row'
    apply Except.ok.inj (((read d).2 row).symm.trans ((read d').2 row'))
  · intro d
    apply (read d).2

end StackBackend
