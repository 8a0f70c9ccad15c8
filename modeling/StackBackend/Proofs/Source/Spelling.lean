import Mathlib.Tactic.Use
import StackBackend.Proofs.Source.Grammar
import StackBackend.Proofs.Source.Lexing

/-!
# Texts that spell a form

A text spells a form if its lexemes are a row of the form, wherever the text stands. What follows the
text matters, since a lexeme goes on as long as it can: most texts need a delimiter after them, and
those that end with a closed token do not. The texts of forms in a row are put together as the forms
are, and blanks may stand between them.
-/

namespace StackBackend

/-- Anything may follow. -/
def Anything : List Char → Prop := fun _ => True

variable {α β : Type} {F : List Char → Prop} {cs ds : List Char} {G G' : Form α} {H : α → Form β}
  {Q : α → Prop} {R : β → Prop}

/-- Followed as `F` says, the text is cut into lexemes that make a row of the form; what the row
stands for satisfies `Q`. -/
def Spells (F : List Char → Prop) (cs : List Char) (G : Form α) (Q : α → Prop) : Prop :=
  ∀ rest, F rest → ∃ ls, Lexeme.ofChars (cs ++ rest) = ls ++ Lexeme.ofChars rest
    ∧ (∀ l ∈ ls, l.rule.isSome = true)
    ∧ ∀ ts : List (Located Token), ts.map Located.value = ls.filterMap Lexeme.token? →
      ∃ a, G ts a ∧ Q a

/-- The text spells the form and ends what stands before it. -/
structure SpellsMarked (F : List Char → Prop) (cs : List Char) (G : Form α) (Q : α → Prop) : Prop where
  spells : Spells F cs G Q
  marked : ∀ rest, F rest → Delimited (cs ++ rest)

/-! ### Weakening -/

theorem Spells.of_eq (spells : Spells F cs G Q) (same : ds = cs) :
  Spells F ds G Q
  := same ▸ spells

theorem SpellsMarked.of_eq (spells : SpellsMarked F cs G Q) (same : ds = cs) :
  SpellsMarked F ds G Q
  := same ▸ spells

/-- The tokens of a text that spells a form spell every form with the same rows. -/
theorem Spells.mono {K : Form β} (spells : Spells F cs G Q)
    (weaker : ∀ ts a, G ts a → Q a → ∃ b, K ts b ∧ R b) :
  Spells F cs K R
  := by
  intro rest follows
  obtain ⟨ls, cut, ruled, row⟩ := spells rest follows
  use ls, cut, ruled
  intro ts values
  obtain ⟨a, inside, holds⟩ := row ts values
  apply weaker ts a inside holds

theorem Spells.left (spells : Spells F cs G Q) :
  Spells F cs (G ∪ G') Q
  := spells.mono fun _ a row holds => ⟨a, .inl row, holds⟩

theorem Spells.right (spells : Spells F cs G' Q) :
  Spells F cs (G ∪ G') Q
  := spells.mono fun _ a row holds => ⟨a, .inr row, holds⟩

theorem SpellsMarked.left (spells : SpellsMarked F cs G Q) :
  SpellsMarked F cs (G ∪ G') Q
  := ⟨spells.spells.left, spells.marked⟩

theorem SpellsMarked.right (spells : SpellsMarked F cs G' Q) :
  SpellsMarked F cs (G ∪ G') Q
  := ⟨spells.spells.right, spells.marked⟩

/-! ### Rows of forms -/

/-- The empty text spells a form with an empty row. -/
theorem spells_nil {a : α} (row : G [] a) (holds : Q a) :
  Spells F [] G Q
  := by
  intro rest _
  refine ⟨[], rfl, by simp, ?_⟩
  intro ts values
  obtain rfl := List.map_eq_nil_iff.1 values
  use a, row, holds

/-- The empty text spells a value. -/
theorem spells_pure {a : α} (holds : Q a) :
  Spells F [] (pure a) Q
  := spells_nil ⟨rfl, rfl⟩ holds

theorem spellsMarked_pure {a : α} (holds : Q a) :
  SpellsMarked Delimited [] (pure a) Q
  := ⟨spells_pure holds, fun _ follows => follows⟩

/-- What is spelled has a value. -/
theorem Spells.exists_value (spells : Spells F cs G Q) {rest : List Char} (follows : F rest) :
  ∃ a, Q a
  := by
  obtain ⟨ls, -, -, row⟩ := spells rest follows
  obtain ⟨a, -, holds⟩ := row ((ls.filterMap Lexeme.token?).map fun t => ⟨t, ⟨0, 0⟩⟩) (by simp [Function.comp_def])
  use a, holds

/-- Texts in a row spell forms in a row: the lexemes of the second text do not depend on what the first one
stands for. -/
theorem Spells.append {E : List Char → Prop} (first : Spells F cs G Q)
    (second : ∀ a, Q a → Spells E ds (H a) R) (between : ∀ rest, E rest → F (ds ++ rest)) :
  Spells E (cs ++ ds) (G >>= H) R
  := by
  intro rest follows
  obtain ⟨ls, cut, ruled, row⟩ := first _ (between rest follows)
  obtain ⟨a, holds⟩ := first.exists_value (between rest follows)
  obtain ⟨ls', cut', ruled', -⟩ := second a holds rest follows
  use ls ++ ls'
  and_intros
  · rw [List.append_assoc, cut, cut', List.append_assoc]
  · simpa [or_imp, forall_and] using ⟨ruled, ruled'⟩
  · intro ts values
    rw [List.filterMap_append] at values
    obtain ⟨us, vs, rfl, values, values'⟩ := List.map_eq_append_iff.1 values
    obtain ⟨a, inside, holds⟩ := row us values
    obtain ⟨ls'', cut'', -, row'⟩ := second a holds rest follows
    obtain rfl : ls'' = ls' := List.append_cancel_right (cut''.symm.trans cut')
    obtain ⟨b, inside', holds'⟩ := row' vs values'
    use b
    constructor
    · use us, vs, a, rfl, inside, inside'
    · apply holds'

/-- Texts in a row where the second one ends the first. -/
theorem Spells.bind (first : Spells Delimited cs G Q) (second : ∀ a, Q a → SpellsMarked F ds (H a) R) :
  Spells F (cs ++ ds) (G >>= H) R
  := by
  obtain ⟨a, holds⟩ := first.exists_value delimited_nil
  apply first.append _ (second a holds).marked
  intro a holds
  apply (second a holds).spells

/-- Texts in a row where the first one stands for a known value. -/
theorem Spells.andThen {a : α} (first : Spells Delimited cs G (· = a)) (second : SpellsMarked F ds (H a) R) :
  Spells F (cs ++ ds) (G >>= H) R
  := by
  apply first.bind
  rintro _ rfl
  apply second

/-- Texts one after the other, where the second one ends the first. -/
theorem SpellsMarked.bind (first : SpellsMarked Delimited cs G Q)
    (second : ∀ a, Q a → SpellsMarked F ds (H a) R) :
  SpellsMarked F (cs ++ ds) (G >>= H) R
  := by
  use first.spells.bind second
  obtain ⟨a, holds⟩ := first.spells.exists_value delimited_nil
  intro rest follows
  rw [List.append_assoc]
  apply first.marked _ ((second a holds).marked rest follows)

/-- The same, if the first text spells one value only. -/
theorem SpellsMarked.andThen {a : α} (first : SpellsMarked Delimited cs G (· = a))
    (second : SpellsMarked F ds (H a) R) :
  SpellsMarked F (cs ++ ds) (G >>= H) R
  := by
  apply first.bind
  rintro _ rfl
  apply second

/-- Texts in a row where the first one is closed. -/
theorem Spells.closed (first : Spells Anything cs G Q) (second : ∀ a, Q a → Spells F ds (H a) R) :
  Spells F (cs ++ ds) (G >>= H) R
  := first.append second fun _ _ => trivial

/-! ### Blanks -/

/-- A blank may stand before a text. -/
theorem blank_spells {c : Char} (isBlank : LexRule.blank.starts c = true) (spells : Spells F cs G Q) :
  Spells F (c :: cs) G Q
  := by
  intro rest follows
  obtain ⟨ls, cut, ruled, row⟩ := spells rest follows
  refine ⟨⟨some .blank, [c]⟩ :: ls, ?_, by simpa using ruled, row⟩
  rw [List.cons_append, Lexeme.ofChars_blank isBlank, cut, List.cons_append]

/-- A blank in front. -/
theorem space_spells (spells : Spells F cs G Q) :
  Spells F (' ' :: cs) G Q
  := blank_spells rfl spells

/-- Any blanks in front. -/
theorem indent_spells (blanks : String) (all : blanks.toList.all LexRule.blank.starts = true)
    (spells : Spells F cs G Q) :
  Spells F (blanks.toList ++ cs) G Q
  := by
  generalize blanks.toList = bs at all
  induction bs with
  | nil => apply spells
  | cons c bs ih =>
      rw [List.all_cons, Bool.and_eq_true] at all
      apply blank_spells all.1 (ih all.2)

/-- A blank ends what stands before. -/
theorem space_spellsMarked (spells : Spells F cs G Q) :
  SpellsMarked F (' ' :: cs) G Q
  := ⟨blank_spells rfl spells, fun _ _ => rfl⟩

/-- A text with a newline after it is closed. -/
theorem Spells.line (spells : Spells Delimited cs G Q) :
  Spells Anything (cs ++ ['\n']) G Q
  := by
  intro rest _
  obtain ⟨ls, cut, ruled, row⟩ := spells ('\n' :: rest) rfl
  refine ⟨ls ++ [⟨some .blank, ['\n']⟩], ?_, ?_, ?_⟩
  · rw [List.append_assoc, List.singleton_append, cut, Lexeme.ofChars_blank rfl, List.append_assoc]
    rfl
  · simpa [or_imp, forall_and] using ruled
  · intro ts values
    apply row
    rw [values, List.filterMap_append]
    apply List.append_nil

/-! ### Tokens -/

/-- The text of a token, if it ends itself or is delimited by what follows. -/
theorem terminal_spells (token : α → Token) {a : α} (lexical : (token a).IsLexical) (holds : Q a)
    (ends : ∀ rest, F rest → (token a).isClosed = true ∨ Delimited rest) :
  Spells F (token a).text.toList (Form.terminal token) Q
  := by
  intro rest follows
  refine ⟨[_], Token.ofChars_append lexical (ends rest follows), by simp, ?_⟩
  intro ts values
  rw [List.filterMap_cons, Token.token?_eq] at values
  use a, values, holds

/-- The text of a word or mark. -/
theorem word_spells (f : Fixed) :
  Spells Delimited f.text.toList (Form.word f) (· = ())
  := terminal_spells (fun _ => .fixed f) trivial rfl fun _ => .inr

theorem ident_spells {x : String} (ident : IsIdent x) :
  Spells Delimited x.toList Form.ident (· = x)
  := terminal_spells .ident ident rfl fun _ => .inr

theorem int_spells {digits : String} (integer : IsInteger digits) :
  Spells Delimited digits.toList Form.int (· = digits)
  := terminal_spells .int integer rfl fun _ => .inr

theorem str_spells {content : String} (quotable : IsQuotable content) :
  Spells F (Token.str content).text.toList Form.str (· = content)
  := terminal_spells .str quotable rfl fun _ _ => .inl rfl

/-- A closed mark before a text. -/
theorem mark_spells {f : Fixed} {H : Unit → Form β} (closed : f ∈ Token.closers)
    (spells : Spells F ds (H ()) R) :
  Spells F (f.text.toList ++ ds) (Form.word f >>= H) R
  := by
  have mark : Spells Anything f.text.toList (Form.word f) (· = ()) :=
    terminal_spells (fun _ => .fixed f) trivial rfl fun _ _ => .inl (decide_eq_true closed)
  apply mark.closed
  intro _ _
  apply spells

/-- A mark that ends itself, and what comes after it. -/
theorem mark_spellsMarked {f : Fixed} {H : Unit → Form β} (closed : f ∈ Token.closers)
    (spells : Spells F ds (H ()) R) :
  SpellsMarked F (f.text.toList ++ ds) (Form.word f >>= H) R
  := by
  have delimiter : ∀ f ∈ Token.closers, ∀ cs, Delimited (f.text.toList ++ cs) := by
    simp only [Token.closers, List.forall_mem_cons]
    refine ⟨?_, ?_, ?_, ?_, ?_, ?_, ?_, ?_, ?_, by simp⟩ <;> exact fun _ => rfl
  use mark_spells closed spells
  intro rest _
  rw [List.append_assoc]
  apply delimiter f closed _

/-! ### Repetition -/

section Repetition

variable {γ δ : Type} {f : α → δ} {g : γ → δ} {text : γ → List Char} {xs : List γ}

/-- What follows the first of a list of texts, if each text may be followed by the next one. -/
theorem follows_flatMap (again : ∀ x ∈ xs, ∀ rest, F rest → F (text x ++ rest)) {rest : List Char}
    (follows : F rest) :
  F (xs.flatMap text ++ rest)
  := by
  induction xs with
  | nil => apply follows
  | cons x xs ih =>
      rw [List.forall_mem_cons] at again
      rw [List.flatMap_cons, List.append_assoc]
      apply again.1 _ (ih again.2)

/-- Texts in a row, each of which may stand after another one. The rows stand for the values of the
list as far as `f` shows. -/
theorem many_spells (each : ∀ x ∈ xs, Spells F (text x) G (f · = g x))
    (again : ∀ x ∈ xs, ∀ rest, F rest → F (text x ++ rest)) :
  Spells F (xs.flatMap text) (Form.Many G) (·.map f = xs.map g)
  := by
  induction xs with
  | nil => exact spells_nil .nil rfl
  | cons x xs ih =>
      rw [List.forall_mem_cons] at each again
      have row : Spells F (text x ++ xs.flatMap text) (G >>= fun a us as =>
          ∃ as', as = a :: as' ∧ Form.Many G us as') (·.map f = (x :: xs).map g) := by
        apply each.1.append
        · intro a head
          apply (ih each.2 again.2).mono
          intro us as rows tail
          use a :: as
          constructor
          · use as, rfl, rows
          · rw [List.map_cons, List.map_cons, head, tail]
        · intro rest follows
          apply follows_flatMap again.2 follows
      apply row.mono
      rintro _ _ ⟨us, vs, a, rfl, first, as, rfl, rows⟩ holds
      use a :: as, .cons first rows, holds

/-- Closed texts in a row. -/
theorem many_closed (each : ∀ x ∈ xs, Spells Anything (text x) G (f · = g x)) :
  Spells Anything (xs.flatMap text) (Form.Many G) (·.map f = xs.map g)
  := many_spells each fun _ _ _ _ => trivial

/-- Texts in a row that begin with delimiters. -/
theorem many_marked (each : ∀ x ∈ xs, SpellsMarked Delimited (text x) G (f · = g x)) :
  SpellsMarked Delimited (xs.flatMap text) (Form.Many G) (·.map f = xs.map g)
  := by
  have again : ∀ x ∈ xs, ∀ rest, Delimited rest → Delimited (text x ++ rest) :=
    fun x mem => (each x mem).marked
  constructor
  · apply many_spells _ again
    intro x mem
    apply (each x mem).spells
  · intro _
    apply follows_flatMap again

end Repetition

end StackBackend
