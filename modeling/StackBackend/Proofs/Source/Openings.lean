import Mathlib.Tactic.Use
import StackBackend.Proofs.Source.Lookahead

/-!
# Openings

Tokens open a form if they can be continued to one of its rows. A reader gets stuck only after an
opening of its form: nothing it has passed is in the way of a row. Every form of the language has a
row, so a sequence is opened by an opening of its first form, and by a row of its first form and an
opening of the second. With it goes that the reader looks at no token after the one it stops at: the
readers of the language are gone through once for both.
-/

namespace StackBackend

/-! ### Openings of forms -/

namespace Form

variable {α β : Type} {G G' : Form α} {H : α → Form β} {ts us vs : List (Located Token)} {a : α}

/-- The tokens begin a row of the form. -/
def Opens (G : Form α) (ts : List (Located Token)) : Prop := ∃ more a, G (ts ++ more) a

/-- A row opens its form. -/
theorem Opens.of_row (row : G ts a) :
  Opens G ts
  := by
  use [], a
  rwa [List.append_nil]

/-- The beginning of an opening is an opening. -/
theorem Opens.initial (opens : Opens G ts) (initial : us <+: ts) :
  Opens G us
  := by
  obtain ⟨vs, rfl⟩ := initial
  obtain ⟨more, a, row⟩ := opens
  use vs ++ more, a
  rwa [← List.append_assoc]

/-- A row stops opening a form at one place at most. -/
theorem Opens.le_of_fault {i j : Nat} (opens : Opens G (ts.take i)) (fault : ¬ Opens G (ts.take (j + 1))) :
  i ≤ j
  := by
  apply Nat.le_of_not_lt
  intro later
  apply fault (opens.initial (List.take_prefix_take_left later))

/-- What opens a form opens every form that has its rows. -/
theorem Opens.mono (opens : Opens G ts) (weaker : ∀ ts a, G ts a → G' ts a) :
  Opens G' ts
  := by
  obtain ⟨more, a, row⟩ := opens
  use more, a, weaker _ a row

/-- A sequence is opened by an opening of its first form, if the second one has a row. -/
theorem Opens.bind (opens : Opens G ts) (second : ∀ a, Opens (H a) []) :
  Opens (G >>= H) ts
  := by
  obtain ⟨more, a, row⟩ := opens
  obtain ⟨more', b, row'⟩ := second a
  use more ++ more', b, ts ++ more, more', a, (List.append_assoc ..).symm, row, row'

/-- A sequence is opened by a row of its first form and an opening of the second. -/
theorem Opens.after (row : G us a) (opens : Opens (H a) vs) :
  Opens (G >>= H) (us ++ vs)
  := by
  obtain ⟨more, b, row'⟩ := opens
  use more, b, us, vs ++ more, a, List.append_assoc .., row, row'

/-- A form and the form with places are opened by the same tokens. -/
theorem Opens.placed (opens : Opens G ts) :
  Opens (Form.placed G) ts
  := by
  obtain ⟨more, a, row⟩ := opens
  exact ⟨more, ⟨a, extent (ts ++ more)⟩, row, rfl⟩

/-- A token that carries a value is a row, so that nothing opens its form. -/
theorem terminal_opens (token : α → Token) (a : α) :
  Opens (terminal token) []
  := ⟨[⟨token a, default⟩], a, rfl⟩

/-- A form of a table is opened by nothing if the table has an entry. -/
theorem oneOf_opens {table : List (Fixed × α)} {f : Fixed} (listed : (f, a) ∈ table) :
  Opens (oneOf table) []
  := ⟨[⟨.fixed f, default⟩], a, f, listed, rfl⟩

end Form

/-! ### Readers that follow a form -/

namespace Reader

variable {α β : Type} {r : Reader α} {s : α → Reader β} {G G' : Form α} {H : α → Form β}

/-- The form has a row, what the reader has passed where it is stuck opens the form, and the reader looks
at no token after the one it stops at. -/
structure Tracks (r : Reader α) (G : Form α) : Prop where
  steady : Steady r
  opens : Form.Opens G []
  stuck : ∀ {c d : Cursor}, r c = .error d → ∃ ts, c.rest = ts ++ d.rest ∧ Form.Opens G ts

/-- A reader follows every form that has the rows of the form it follows. -/
theorem Tracks.mono (tracks : Tracks r G) (weaker : ∀ ts a, G ts a → G' ts a) :
  Tracks r G'
  := by
  use tracks.steady, tracks.opens.mono weaker
  intro c d read
  obtain ⟨ts, left, opens⟩ := tracks.stuck read
  use ts, left
  apply opens.mono weaker

theorem Tracks.left (tracks : Tracks r G) :
  Tracks r (G ∪ G')
  := by
  apply tracks.mono
  intro _ _ row
  left
  apply row

theorem Tracks.right (tracks : Tracks r G') :
  Tracks r (G ∪ G')
  := by
  apply tracks.mono
  intro _ _ row
  right
  apply row

/-- A choice follows the form that both of its readers follow. -/
theorem Tracks.ite {p : Prop} [Decidable p] {q : Reader α} (yes : Tracks r G) (no : Tracks q G) :
  Tracks (if p then r else q) G
  := by
  split
  · apply yes
  · apply no

/-- A reader that is stuck only where it begins. -/
theorem Tracks.of_opens (steady : Steady r) (opens : Form.Opens G []) (unmoved : ∀ c d, r c = .error d → d = c) :
  Tracks r G
  := by
  use steady, opens
  intro c d read
  obtain rfl := unmoved c d read
  use [], rfl

/-- A value is never stuck, whatever value the form has. -/
theorem pure_tracks (a b : α) :
  Tracks (pure a) (pure b)
  := by
  apply Tracks.of_opens (pure_steady a)
  · apply Form.Opens.of_row
    use rfl
  · intro c d read
    cases read

theorem stuck_tracks (opens : Form.Opens G []) :
  Tracks stuck G
  := by
  apply Tracks.of_opens stuck_steady opens
  intro c d read
  apply (Except.error.inj read).symm

/-- A single token is passed or not, so that a reader of one is stuck only where it begins. -/
theorem accept_tracks {f : Token → Option α} (opens : Form.Opens G []) :
  Tracks (accept f) G
  := by
  apply Tracks.of_opens (accept_steady f) opens
  intro c d read
  unfold accept at read
  split at read
  · apply (Except.error.inj read).symm
  · split at read
    · cases read
    · apply (Except.error.inj read).symm

/-- Readers in a row: stuck in the first one, or in the second one after a row of the first form. -/
theorem Tracks.bind (first : Tracks r G)
    (sound : ∀ {c d : Cursor} {a : α}, r c = .ok (a, d) →
      ∃ ts, c.rest = ts ++ d.rest ∧ G ts a ∧ d.offset = stopAfter c.offset ts)
    (second : ∀ a, Tracks (s a) (H a)) :
  Tracks (r >>= s) (G >>= H)
  := by
  have rest (a : α) : Form.Opens (H a) [] := (second a).opens
  use first.steady.bind fun a => (second a).steady, first.opens.bind rest
  intro c d read
  obtain ⟨a, e, taken, read⟩ | ⟨-, stuck⟩ := ending_of_bind (o := none) read
  · obtain ⟨us, left, row, -⟩ := sound taken
    obtain ⟨vs, left', opens⟩ := (second a).stuck read
    refine ⟨us ++ vs, ?_, .after row opens⟩
    rw [left, left', List.append_assoc]
  · obtain ⟨ts, left, opens⟩ := first.stuck stuck
    use ts, left
    apply opens.bind rest

/-- A look at the next token passes nothing: each branch need only follow the form. -/
theorem Tracks.peek {s : Option Token → Reader α} (branches : ∀ t, Tracks (s t) G) :
  Tracks (peek >>= s) G
  := by
  use peek_steady.bind fun t => (branches t).steady, (branches none).opens
  intro c d read
  apply (branches (front c.rest)).stuck read

theorem Tracks.nextIs {f : Fixed} {s : Bool → Reader α} (branches : ∀ b, Tracks (s b) G) :
  Tracks (nextIs f >>= s) G
  := .peek (s := fun t => s (decide (t = some (.fixed f)))) fun _ => branches _

/-- The note of where a type has ended passes nothing. -/
theorem Tracks.endType {s : Unit → Reader α} (tracks : Tracks (s ()) G) (role : TypeRole) :
  Tracks (endType role >>= s) G
  := by
  use (endType_steady role).bind fun _ => tracks.steady, tracks.opens
  intro c d read
  apply tracks.stuck (c := { c with ended := some role }) read

/-! ### Tokens and repetition -/

theorem Tracks.word {f : Fixed} {s : Unit → Reader β} {H : Unit → Form β}
    (second : ∀ u, Tracks (s u) (H u)) :
  Tracks (fixed f >>= s) (Form.word f >>= H)
  := (accept_tracks (Form.terminal_opens _ ())).bind (fixed_reads f).sound second

theorem Tracks.ident {s : String → Reader β} {H : String → Form β} (second : ∀ x, Tracks (s x) (H x)) :
  Tracks (ident >>= s) (Form.ident >>= H)
  := (accept_tracks (Form.terminal_opens _ "")).bind ident_reads.sound second

theorem Tracks.str {s : String → Reader β} {H : String → Form β} (second : ∀ x, Tracks (s x) (H x)) :
  Tracks (str >>= s) (Form.str >>= H)
  := (accept_tracks (Form.terminal_opens _ "")).bind str_reads.sound second

section Repetition

variable {starts : Token → Bool} {F : Option Token → Prop} {P : Token → Prop}

/-- A repetition is stuck in a round after rows for the rounds before it. -/
theorem many_tracks (tracks : Tracks r G) (reads : Reads r G F) (begins : Form.Begins P G) :
  Tracks (many starts r) (Form.Many G)
  := by
  have bounded (fuel : Nat) : Tracks (manyUpTo starts r fuel) (Form.Many G) := by
    induction fuel with
    | zero =>
        apply (pure_tracks [] []).mono
        rintro _ _ ⟨rfl, rfl⟩
        apply Form.Many.nil
    | succ fuel ih =>
        apply Tracks.peek
        intro t
        apply Tracks.ite
        · apply (tracks.bind reads.sound fun a => ih.bind (manyUpTo_sound reads fuel) fun as =>
            pure_tracks (a :: as) (a :: as)).mono
          rintro _ _ ⟨us, _, a, rfl, row, vs, _, as, rfl, rows, rfl, rfl⟩
          rw [List.append_nil]
          apply Form.Many.cons row rows
        · apply (pure_tracks [] []).mono
          rintro _ _ ⟨rfl, rfl⟩
          apply Form.Many.nil
  use many_steady tracks.steady (reads.passing begins), (bounded 0).opens, (bounded _).stuck

/-- A list with commas is stuck in an element, after the elements and commas before it. -/
theorem listed_tracks (tracks : Tracks r G) (reads : Reads r G F) (begins : Form.Begins P G) :
  Tracks (listed starts r) (Form.listed G)
  := by
  have none : Tracks (pure []) (Form.listed G) := by
    apply (pure_tracks [] []).mono
    rintro _ _ ⟨rfl, rfl⟩
    apply listed_nil
  have bounded (fuel : Nat) : Tracks (listedUpTo starts r fuel) (Form.listed G) := by
    induction fuel with
    | zero => apply none
    | succ fuel ih =>
        apply Tracks.peek
        intro t
        apply Tracks.ite _ none
        have more (a : α) : Tracks (do
            fixed .comma
            let as ← listedUpTo starts r fuel
            return a :: as)
            (do
              Form.word .comma
              let as ← Form.listed G
              return a :: as) :=
          .word fun _ => ih.bind (listedUpTo_sound reads fuel) fun as => pure_tracks (a :: as) (a :: as)
        apply (tracks.bind reads.sound fun a => .nextIs fun _ =>
          (more a).left.ite (pure_tracks [a] [a]).right).mono
        rintro _ _ ⟨us, _, a, rfl, row, ⟨_, _, _, rfl, comma, vs, _, as, rfl, rows, rfl, rfl⟩ | ⟨rfl, rfl⟩⟩
        · obtain ⟨u, rfl, mark⟩ := Form.word_iff.1 comma
          rw [List.append_nil]
          apply listed_cons row mark rows
        · rw [List.append_nil]
          apply listed_last row
  use listed_steady tracks.steady (reads.passing begins), none.opens, (bounded _).stuck

end Repetition

/-! ### Types and operands -/

theorem ty_tracks (role : TypeRole) :
  Tracks (ty role) Form.ty
  := by
  have dimension : Tracks (do fixed .wArray; fixed .dot) Form.dimension :=
    .word fun _ => accept_tracks (Form.terminal_opens _ ())
  apply Tracks.mono _ fun _ _ => Form.ty_iff.2
  apply (many_tracks dimension dimension_reads Form.dimension_begins).bind (manyUpTo_sound dimension_reads _)
  intro dims
  apply Tracks.ident
  intro x
  apply Tracks.endType
  apply pure_tracks

/-- The type after a dot. -/
theorem tySuffix_tracks (role : TypeRole) :
  Tracks (tySuffix role) Form.tySuffix
  := by
  apply Tracks.word
  intro _
  apply ty_tracks role

theorem Tracks.tySuffix {role : TypeRole} {s : Ty → Reader β} {H : Ty → Form β}
    (second : ∀ ty, Tracks (s ty) (H ty)) :
  Tracks (tySuffix role >>= s) (Form.tySuffix >>= H)
  := (tySuffix_tracks role).bind (tySuffix_reads role).sound second

/-- The type of a literal, after its digits. -/
theorem afterDigits_tracks (digits : String) :
  Tracks (do return Operand.literal digits (← Reader.tySuffix .operand))
    (do return Operand.literal digits (← Form.tySuffix))
  := by
  apply Tracks.tySuffix
  intro _
  apply pure_tracks

/-- The digits of a literal have been seen before they are passed. -/
theorem literal_stuck {digits : String} {c d : Cursor} (place : front c.rest = some (.int digits))
    (read : (do
      let _ ← accept some
      return Operand.literal digits (← Reader.tySuffix .operand)) c = .error d) :
  ∃ ts, c.rest = ts ++ d.rest ∧ Form.Opens Form.literal ts
  := by
  obtain ⟨t, rest, left, value⟩ : ∃ t rest, c.rest = t :: rest ∧ t.value = .int digits := by
    cases left : c.rest <;> simp_all
  have taken : accept some c = .ok (t.value, ⟨rest, t.span.stop, none⟩) := accept_cons left
  rw [bind_eq_of_ok taken] at read
  obtain ⟨ts, left', opens⟩ := (afterDigits_tracks digits).stuck read
  refine ⟨[t] ++ ts, ?_, .after (Form.int_iff.2 ⟨t, rfl, value⟩) opens⟩
  rw [left, List.append_assoc, ← left']
  rfl

theorem literal_opens :
  Form.Opens Form.literal []
  := by
  apply (Form.terminal_opens _ "").bind
  intro digits
  apply (afterDigits_tracks digits).opens

/-- Operands and what follows a name are read with one bound, so that they are followed together by induction
on the bound. -/
theorem operandUpTo_tracks (n : Nat) :
  Tracks (operandUpTo n) Form.operand
    ∧ ∀ x, Tracks (operandAfterUpTo x n) (Form.operandAfter Form.operand x)
  := by
  have opens : Form.Opens Form.operand [] := literal_opens.mono fun _ _ row => Form.operand_iff.2 (.inl row)
  have named (x : String) : Tracks (do return namedOperand x (← Reader.tySuffix .operand))
      (Form.operandAfter Form.operand x) :=
    Tracks.left (.tySuffix fun ty => pure_tracks _ _)
  induction n with
  | zero =>
      use stuck_tracks opens
      intro x
      apply stuck_tracks (named x).opens
  | succ n ih =>
      obtain ⟨operand, after⟩ := ih
      constructor
      · have steady : Steady (operandUpTo (n + 1)) := by
          apply peek_steady.bind
          intro t
          split
          · apply (accept_steady _).bind
            intro _
            apply (tySuffix_tracks _).steady.bind
            intro _
            apply pure_steady
          · apply ident_steady.bind
            intro x
            apply (after x).steady
        use steady, opens
        intro c d read
        rw [operandUpTo, bind_eq_of_ok (peek_apply c)] at read
        generalize place : front c.rest = t at read
        split at read
        · next digits =>
            obtain ⟨ts, left, opens⟩ := literal_stuck place read
            use ts, left
            apply opens.mono
            intro _ _ row
            apply Form.operand_iff.2 (.inl row)
        · apply ((Tracks.ident after).mono _).stuck read
          intro ts e row
          apply Form.operand_iff.2 (.inr row)
      · intro x
        have sound {c d : Cursor} {e : Operand} (read : operandUpTo n c = .ok (e, d)) :
            ∃ ts, c.rest = ts ++ d.rest ∧ Form.operand ts e ∧ d.offset = stopAfter c.offset ts := by
          obtain ⟨ts, left, row, stop⟩ := (operandUpTo_reads n).sound read
          use ts, left, Form.operand_of_upTo row, stop
        apply Tracks.nextIs
        intro bracket
        apply Tracks.ite _ (named x)
        apply Tracks.right
        apply Tracks.word
        intro _
        apply operand.bind sound
        intro index
        apply Tracks.word
        intro _
        apply Tracks.tySuffix
        intro ty
        apply pure_tracks

/-- The reader of operands for `none`, and of what follows a name. -/
def operandPart : Option String → Nat → Reader Operand
  | none => operandUpTo
  | some x => operandAfterUpTo x

/-- Two bounds that cover the known tokens make no difference: a token is passed at each level of nesting. -/
theorem operandPart_agree {n n' k : Nat} (known : k ≤ n) (known' : k ≤ n') (part : Option String) :
  Agree k (operandPart part n) (operandPart part n')
  := by
  apply Agree.of_bound _ _ known known'
  · intro part
    cases part <;> exact stuck_steady 0
  · intro n n' k inner part
    cases part with
    | none =>
        apply (peek_steady k).bind
        intro t
        split
        · apply (accept_steady _ k).bind
          intro _
          apply ((tySuffix_tracks _).steady k).bind
          intro _
          apply pure_steady
        · apply (ident_steady k).after (accept_passing _)
          intro x
          apply inner (some x)
    | some x =>
        apply (nextIs_steady _ k).bind
        intro bracket
        apply Agree.ite
        · apply (fixed_steady _ k).after (accept_passing _)
          intro _
          apply (inner none).bind
          intro index
          apply (fixed_steady _ _).bind
          intro _
          apply ((tySuffix_tracks _).steady _).bind
          intro _
          apply pure_steady
        · apply ((tySuffix_tracks _).steady k).bind
          intro _
          apply pure_steady

theorem operand_steady :
  Steady operand
  := by
  apply Steady.of_bound fun c => Nat.le_succ c.rest.length
  intro n n' k known known'
  apply operandPart_agree known known' none

theorem operandAfter_steady (x : String) :
  Steady (operandAfter x)
  := by
  apply Steady.of_bound fun c => Nat.le_succ c.rest.length
  intro n n' k known known'
  apply operandPart_agree known known' (some x)

theorem operand_tracks :
  Tracks operand Form.operand
  := ⟨operand_steady, (operandUpTo_tracks 0).1.opens, (operandUpTo_tracks _).1.stuck⟩

theorem Tracks.operand {s : Operand → Reader β} {H : Operand → Form β} (second : ∀ e, Tracks (s e) (H e)) :
  Tracks (operand >>= s) (Form.operand >>= H)
  := operand_tracks.bind operand_reads.sound second

theorem operandAfter_tracks (x : String) :
  Tracks (operandAfter x) (Form.operandAfter Form.operand x)
  := ⟨operandAfter_steady x, ((operandUpTo_tracks 0).2 x).opens, ((operandUpTo_tracks _).2 x).stuck⟩

/-- A receiver that begins with a name is an operand, or the name alone. -/
theorem receiver_tracks :
  Tracks receiver Form.receiver
  := by
  apply Tracks.peek
  intro t
  split
  · apply Tracks.mono _ fun _ _ row => Form.receiver_iff.2 (.inr row)
    apply Tracks.ident
    intro x
    apply Tracks.nextIs
    intro _
    apply Tracks.nextIs
    intro _
    apply (operandAfter_tracks x).left.ite (pure_tracks _ _).right
  · apply operand_tracks.left

theorem Tracks.receiver {s : Operand → Reader β} {H : Operand → Form β} (second : ∀ e, Tracks (s e) (H e)) :
  Tracks (receiver >>= s) (Form.receiver >>= H)
  := receiver_tracks.bind receiver_reads.sound second

theorem Tracks.fieldRef {s : String × Ty → Reader β} {H : String × Ty → Form β}
    (second : ∀ f, Tracks (s f) (H f)) :
  Tracks (fieldRef >>= s) (Form.fieldRef >>= H)
  := Tracks.bind (.ident fun _ => .tySuffix fun _ => pure_tracks _ _) fieldRef_reads.sound second

theorem Tracks.args {s : List Operand → Reader β} {H : List Operand → Form β}
    (second : ∀ es, Tracks (s es) (H es)) :
  Tracks (args >>= s) (Form.args >>= H)
  := (many_tracks (.word fun _ => operand_tracks) argument_reads (Form.word_begins _).bind).bind args_reads.sound second

/-! ### Expressions and statements -/

/-- An operator and a second operand, or nothing. -/
theorem afterOperand_tracks (value : BinaryOp → Ty → Operand → α) (alone : α) :
  Tracks (do
    if ((← peek).bind binaryOp?).isSome then
      let op ← accept binaryOp?
      let ty ← tySuffix .other
      return value op ty (← operand)
    else
      return alone)
    ((do
      let op ← Form.binaryOp
      let ty ← Form.tySuffix
      let rhs ← Form.operand
      return value op ty rhs)
    ∪ pure alone)
  := by
  have operator : Tracks (accept binaryOp?) Form.binaryOp := accept_tracks (Form.oneOf_opens (.head _))
  apply Tracks.peek
  intro t
  apply Tracks.ite _ (pure_tracks _ _).right
  apply Tracks.left
  apply operator.bind binaryOp_reads.sound
  intro op
  apply Tracks.tySuffix
  intro ty
  apply Tracks.operand
  intro rhs
  apply pure_tracks

theorem exprAfter_tracks (lhs : Operand) :
  Tracks (exprAfter lhs) (Form.exprAfter lhs)
  := afterOperand_tracks _ _

theorem call_tracks :
  Tracks call Form.call
  := by
  have kind : Tracks (accept callKind?) Form.callKind := accept_tracks (Form.oneOf_opens (.head _))
  apply kind.bind callKind_reads.sound
  intro _
  apply Tracks.word
  intro _
  apply Tracks.receiver
  intro _
  apply Tracks.word
  intro _
  apply Tracks.str
  intro _
  apply Tracks.args
  intro _
  apply Tracks.word
  intro _
  apply Tracks.tySuffix
  intro _
  apply pure_tracks

theorem new_tracks :
  Tracks new Form.new
  := by
  apply Tracks.word
  intro _
  apply Tracks.word
  intro _
  apply Tracks.bind (accept_tracks _) newHead_reads.sound
  · intro _
    apply Tracks.args
    intro _
    apply Tracks.word
    intro _
    apply Tracks.tySuffix
    intro _
    apply pure_tracks
  · apply (Form.terminal_opens _ ()).mono fun _ _ => .inl

theorem getField_tracks :
  Tracks getField Form.getField
  := by
  apply Tracks.word
  intro _
  apply Tracks.word
  intro _
  apply Tracks.receiver
  intro _
  apply Tracks.word
  intro _
  apply Tracks.fieldRef
  intro _
  apply Tracks.word
  intro _
  apply Tracks.tySuffix
  intro _
  apply pure_tracks

theorem putField_tracks :
  Tracks putField Form.putField
  := by
  apply Tracks.word
  intro _
  apply Tracks.word
  intro _
  apply Tracks.receiver
  intro _
  apply Tracks.word
  intro _
  apply Tracks.fieldRef
  intro _
  apply Tracks.word
  intro _
  apply Tracks.operand
  intro _
  apply Tracks.word
  intro _
  apply Tracks.tySuffix
  intro _
  apply pure_tracks

theorem arrayLength_tracks :
  Tracks arrayLength Form.arrayLength
  := by
  apply Tracks.word
  intro _
  apply Tracks.word
  intro _
  apply Tracks.operand
  intro _
  apply Tracks.word
  intro _
  apply Tracks.tySuffix
  intro _
  apply pure_tracks

theorem unary_tracks :
  Tracks unary Form.unary
  := by
  have operator : Tracks (accept unaryOp?) Form.unaryOp := accept_tracks (Form.oneOf_opens (.head _))
  apply operator.bind unaryOp_reads.sound
  intro _
  apply Tracks.tySuffix
  intro _
  apply Tracks.operand
  intro _
  apply pure_tracks

/-- The next token says which of the forms of expressions is followed. -/
theorem expr_tracks :
  Tracks expr Form.expr
  := by
  apply Tracks.peek
  intro t
  split
  · apply call_tracks.mono
    intro _ _
    apply Form.expr_of_head .callStatic
  · apply call_tracks.mono
    intro _ _
    apply Form.expr_of_head .callVirtual
  · apply call_tracks.mono
    intro _ _
    apply Form.expr_of_head .callSpecial
  · apply new_tracks.mono
    intro _ _
    apply Form.expr_of_head .new
  · apply getField_tracks.mono
    intro _ _
    apply Form.expr_of_head .getField
  · apply arrayLength_tracks.mono
    intro _ _
    apply Form.expr_of_head .arrayLength
  · apply unary_tracks.mono
    intro _ _
    apply Form.expr_of_head .not
  · apply unary_tracks.mono
    intro _ _
    apply Form.expr_of_head .neg
  · apply (Tracks.operand exprAfter_tracks).mono
    intro _ _
    apply Form.expr_of_operand

theorem condition_tracks :
  Tracks condition Form.condition
  := by
  apply Tracks.mono _ fun _ _ => Form.condition_iff.2
  apply Tracks.nextIs
  intro bang
  apply Tracks.ite
  · apply Tracks.left
    apply Tracks.word
    intro _
    apply Tracks.tySuffix
    intro _
    apply Tracks.operand
    intro _
    apply pure_tracks
  · apply Tracks.right
    apply Tracks.operand
    intro lhs
    apply afterOperand_tracks

theorem goto_tracks :
  Tracks goto Form.goto
  := by
  apply Tracks.word
  intro _
  apply Tracks.ident
  intro _
  apply pure_tracks

theorem branch_tracks :
  Tracks branch Form.branch
  := by
  apply Tracks.word
  intro _
  apply Tracks.word
  intro _
  apply condition_tracks.bind condition_reads.sound
  intro _
  apply Tracks.word
  intro _
  apply Tracks.word
  intro _
  apply Tracks.ident
  intro _
  apply pure_tracks

theorem ret_tracks :
  Tracks ret Form.ret
  := by
  apply Tracks.mono _ fun _ _ => Form.ret_iff.2
  apply Tracks.word
  intro _
  apply Tracks.tySuffix
  intro ty
  apply Tracks.peek
  intro _
  apply (Tracks.left (.operand fun _ => pure_tracks _ _)).ite (pure_tracks _ _).right

theorem statementAfter_tracks (e : Operand) :
  Tracks (statementAfter e) (Form.statementAfter e)
  := by
  apply Tracks.nextIs
  intro becomes
  apply Tracks.ite _ (exprAfter_tracks e).right
  apply Tracks.left
  apply Tracks.word
  intro _
  apply Tracks.tySuffix
  intro _
  apply expr_tracks.bind expr_reads.sound
  intro _
  apply pure_tracks

/-- The next token says which of the forms of statements is followed. -/
theorem statement_tracks :
  Tracks statement Form.statement
  := by
  apply Tracks.peek
  intro t
  split
  · apply goto_tracks.mono
    intro _ _
    apply Form.statement_of_head .goto
  · apply branch_tracks.mono
    intro _ _
    apply Form.statement_of_head .branch
  · apply ret_tracks.mono
    intro _ _
    apply Form.statement_of_head .ret
  · apply putField_tracks.mono
    intro _ _
    apply Form.statement_of_head .putField
  · apply (Tracks.operand statementAfter_tracks).mono
    intro _ _
    apply Form.statement_of_operand
  · apply expr_tracks.right

/-! ### Bodies -/

/-- What is read with its place: the start and the offset are looked at without passing a token. -/
theorem placed_tracks {s : Located α → Reader β} {H : Located α → Form β} {F : Option Token → Prop}
    (tracks : Tracks r G) (reads : Reads r G F) (second : ∀ a b, Tracks (s a) (H b)) :
  Tracks (placed r s) (Form.placed G >>= H)
  := by
  have rest (b : Located α) : Form.Opens (H b) [] := (second b b).opens
  have steady : Steady (placed r s) := by
    apply start_steady.bind
    intro _
    apply tracks.steady.bind
    intro a
    apply offset_steady.bind
    intro _
    apply (second _ ⟨a, default⟩).steady
  use steady, tracks.opens.placed.bind rest
  intro c d read
  have read : (r >>= fun a => offset >>= fun stop => s ⟨a, ⟨_, stop⟩⟩) c = .error d := read
  obtain ⟨a, e, taken, read⟩ | ⟨-, stuck⟩ := ending_of_bind (o := none) read
  · obtain ⟨us, left, row, -⟩ := reads.sound taken
    obtain ⟨vs, left', opens⟩ := (second ⟨a, ⟨_, e.offset⟩⟩ ⟨a, Form.extent us⟩).stuck read
    refine ⟨us ++ vs, ?_, .after ⟨row, rfl⟩ opens⟩
    rw [left, left', List.append_assoc]
  · obtain ⟨ts, left, opens⟩ := tracks.stuck stuck
    use ts, left
    apply opens.placed.bind rest

theorem label_tracks :
  Tracks label Form.label
  := by
  apply placed_tracks (accept_tracks (Form.terminal_opens _ "")) ident_reads
  intro _ _
  apply Tracks.word
  intro _
  apply pure_tracks

/-- A statement that begins with a name, and any other. -/
theorem anyStatement_tracks :
  Tracks anyStatement Form.statement
  := by
  apply Tracks.peek
  intro t
  split
  · have begun : Tracks (do
        let x ← ident
        let e ← operandAfter x
        statementAfter e)
        (Form.ident >>= fun x => Form.operandAfter Form.operand x >>= Form.statementAfter) :=
      .ident fun x => (operandAfter_tracks x).bind (operandAfter_reads x).sound statementAfter_tracks
    apply begun.mono
    intro ts i row
    obtain ⟨us, vs, e, rfl, row, rest⟩ := Form.bind_assoc.2 row
    apply Form.statement_of_operand
    use us, vs, e, rfl, Form.operand_iff.2 (.inr row), rest
  · apply statement_tracks

theorem step_tracks :
  Tracks step Form.step
  := by
  apply placed_tracks anyStatement_tracks anyStatement_reads
  intro _ _
  apply Tracks.word
  intro _
  apply pure_tracks

theorem endStatement_steady (start : Nat) (i : Instr) :
  Steady (endStatement start i)
  := by
  apply offset_steady.bind
  intro _
  apply (fixed_steady _).bind
  intro _
  apply pure_steady

/-- The colon that tells a label from a statement is the token after the name: the reader has passed the name
when it looks at it. -/
theorem bodyItem_steady :
  Steady bodyItem
  := by
  apply start_steady.bind
  intro start
  apply peek_steady.bind
  intro t
  split
  · apply ident_steady.bind
    intro x
    apply (nextIs_steady _).bind
    intro colon
    apply Steady.ite
    · apply offset_steady.bind
      intro _
      apply (fixed_steady _).bind
      intro _
      apply pure_steady
    · apply (operandAfter_tracks x).steady.bind
      intro e
      apply (statementAfter_tracks e).steady.bind (endStatement_steady start)
  · apply statement_tracks.steady.bind (endStatement_steady start)

/-- A label where a name and a colon come next, and a statement elsewhere. -/
theorem bodyItem_tracks :
  Tracks bodyItem Form.item
  := by
  use bodyItem_steady, label_tracks.left.opens
  intro c d read
  rw [bodyItem_apply] at read
  split at read
  · apply label_tracks.left.stuck read
  · apply step_tracks.right.stuck read

theorem body_tracks :
  Tracks body Form.body
  := by
  apply Tracks.word
  intro _
  apply (many_tracks bodyItem_tracks bodyItem_reads Form.item_begins).bind (manyUpTo_sound bodyItem_reads _)
  intro _
  apply Tracks.word
  intro _
  apply pure_tracks

/-! ### Members and classes -/

theorem Tracks.modifiers {s : List Modifier → Reader β} {H : List Modifier → Form β}
    (second : ∀ ms, Tracks (s ms) (H ms)) :
  Tracks (modifiers >>= s) (Form.Many Form.modifier >>= H)
  := by
  have modifier : Tracks (accept modifier?) Form.modifier := accept_tracks (Form.oneOf_opens (.head _))
  apply (many_tracks modifier modifier_reads Form.modifier_begins).bind modifiers_reads.sound second

theorem params_tracks :
  Tracks params Form.params
  := by
  have param : Tracks param Form.param := .ident fun _ => .tySuffix fun _ => pure_tracks _ _
  apply Tracks.word
  intro _
  apply (listed_tracks param param_reads Form.ident_begins.bind).bind (listedUpTo_sound param_reads _)
  intro _
  apply Tracks.word
  intro _
  apply pure_tracks

theorem field_tracks :
  Tracks (do fixed .wField; field) Form.fieldAfter
  := by
  apply Tracks.word
  intro _
  apply Tracks.modifiers
  intro _
  apply Tracks.ident
  intro _
  apply Tracks.tySuffix
  intro _
  apply Tracks.word
  intro _
  apply pure_tracks

theorem method_tracks :
  Tracks (do fixed .wMethod; method) Form.methodAfter
  := by
  apply Tracks.word
  intro _
  apply Tracks.modifiers
  intro _
  apply Tracks.ident
  intro _
  apply params_tracks.bind params_reads.sound
  intro _
  apply Tracks.tySuffix
  intro _
  apply body_tracks.bind body_reads.sound
  intro _
  apply pure_tracks

theorem constructor_tracks :
  Tracks (do fixed .wConstruct; constructor) Form.constructorAfter
  := by
  apply Tracks.word
  intro _
  apply Tracks.modifiers
  intro _
  apply Tracks.ident
  intro _
  apply params_tracks.bind params_reads.sound
  intro _
  apply Tracks.tySuffix
  intro _
  apply body_tracks.bind body_reads.sound
  intro _
  apply pure_tracks

/-- The word after the dot says which of the forms of members is followed. -/
theorem member_tracks :
  Tracks member Form.member
  := by
  apply Tracks.mono _ fun _ _ => Form.member_iff.2
  apply Tracks.word
  intro _
  apply Tracks.peek
  intro t
  split
  · apply field_tracks.left.left
  · apply method_tracks.right.left
  · apply constructor_tracks.right

theorem importPath_tracks :
  Tracks importPath Form.importPath
  := by
  have segment : Tracks (do fixed .dot; ident) (do Form.word .dot; Form.ident) :=
    .word fun _ => accept_tracks (Form.terminal_opens _ "")
  apply Tracks.word
  intro _
  apply Tracks.ident
  intro _
  apply (many_tracks segment segment_reads (Form.word_begins _).bind).bind (manyUpTo_sound segment_reads _)
  intro _
  apply Tracks.word
  intro _
  apply pure_tracks

/-- The reader of classes follows the form of classes. -/
theorem unit_tracks :
  Tracks unit Form.unit
  := by
  apply (many_tracks importPath_tracks importPath_reads (Form.word_begins _).bind).bind (manyUpTo_sound importPath_reads _)
  intro imports
  apply Tracks.ident
  intro name
  have named : Tracks (do fixed .wExtends; return some (← ident))
      (do return some (← (do Form.word .wExtends; Form.ident))) := by
    apply Tracks.mono _ fun _ _ => Form.bind_assoc.2
    apply Tracks.word
    intro _
    apply Tracks.ident
    intro _
    apply pure_tracks
  apply Tracks.bind (.nextIs fun _ => named.left.ite (pure_tracks _ _).right) superName_reads.sound
  intro superName
  apply Tracks.word
  intro _
  apply (many_tracks member_tracks member_reads Form.member_begins).bind (manyUpTo_sound member_reads _)
  intro _
  apply Tracks.word
  intro _
  apply pure_tracks

end Reader

end StackBackend
