import Mathlib.Tactic.Use
import StackBackend.Proofs.Source.Lexemes

/-!
# Where lexemes end

Matching by derivatives is exact, so the prefix that is found is the longest one that an expression
matches, and the best match of a text is decided by the words that the rules match. A text that
begins with a token is cut after it, if the token is closed by its last character or something
follows that continues no token.
-/

namespace StackBackend

namespace Regex

variable {r a b : Regex} {w : List Char}

/-- An expression that matches the empty word is nullable. -/
theorem nullable_of_matches_nil (h : Matches r []) :
  r.nullable = true
  := by
  generalize same : ([] : List Char) = w at h
  induction h with
  | empty | starNil | starCons => rfl
  | one => cases same
  | seq _ _ iha ihb =>
      obtain ⟨rfl, rfl⟩ := List.append_eq_nil_iff.1 same.symm
      simp [nullable, iha, ihb]
  | altLeft _ ih => simp [nullable, ih same]
  | altRight _ ih => simp [nullable, ih same]

/-- The short sequence matches what the sequence matches. -/
theorem andThen_matches (ha : Matches a w) {v : List Char} (hb : Matches b v) :
  Matches (a.andThen b) (w ++ v)
  := by
  unfold andThen
  split
  · cases ha
  · cases ha
    apply hb
  · apply Regex.Matches.seq ha hb

/-- The short alternative matches what either side matches. -/
theorem orElse_matches (h : Matches a w ∨ Matches b w) :
  Matches (a.orElse b) w
  := by
  unfold orElse
  split
  · obtain h | h := h
    · cases h
    · apply h
  · obtain h | h := h
    · apply h
    · cases h
  · obtain h | h := h
    · apply Regex.Matches.altLeft h
    · apply Regex.Matches.altRight h

/-- The rest of a word that begins with the character is a word of the derivative. -/
theorem deriv_matches {c : Char} (h : Matches r (c :: w)) :
  Matches (r.deriv c) w
  := by
  generalize same : c :: w = v at h
  induction h generalizing w with
  | empty | starNil => cases same
  | one holds =>
      cases same
      simp [deriv, holds, Matches.empty]
  | @seq a b u v ha hb iha ihb =>
      simp only [deriv]
      obtain ⟨rfl, rfl⟩ | ⟨u, rfl, rfl⟩ := List.cons_eq_append_iff.1 same
      · rw [if_pos (nullable_of_matches_nil ha)]
        apply orElse_matches (.inr (ihb rfl))
      · have first := andThen_matches (iha rfl) hb
        split
        · apply orElse_matches (.inl first)
        · apply first
  | altLeft _ ih => apply orElse_matches (.inl (ih same))
  | altRight _ ih => apply orElse_matches (.inr (ih same))
  | @starCons a u v ha hs iha ihs =>
      obtain ⟨rfl, rfl⟩ | ⟨u, rfl, rfl⟩ := List.cons_eq_append_iff.1 same
      · apply ihs rfl
      · apply andThen_matches (iha rfl) hs

/-- An expression that matches a word is not the one without words. -/
theorem isNever_of_matches (h : Matches r w) :
  r.isNever = false
  := by
  cases h <;> rfl

/-- No prefix that matches is longer than the one that is found. -/
theorem le_longest? {v : List Char} (h : Matches r v) (rest : List Char) :
  ∃ n, r.longest? (v ++ rest) = some n ∧ v.length ≤ n
  := by
  induction v generalizing r with
  | nil =>
      have nullable := nullable_of_matches_nil h
      cases rest with
      | nil => simp [longest?, isNever_of_matches h, nullable]
      | cons c rest =>
          cases later : (r.deriv c).longest? rest <;>
            simp [longest?, isNever_of_matches h, nullable, later]
  | cons c v ih =>
      obtain ⟨n, later, le⟩ := ih (deriv_matches h)
      refine ⟨n + 1, ?_, Nat.succ_le_succ le⟩
      simp [longest?, isNever_of_matches h, later]

/-- A match is no longer than the text. -/
theorem longest?_le_length {cs : List Char} {n : Nat} (h : r.longest? cs = some n) :
  n ≤ cs.length
  := by
  induction cs generalizing r n with
  | nil =>
      unfold longest? at h
      split at h
      · simp at h
      · split at h <;> simp_all
  | cons c cs ih =>
      unfold longest? at h
      split at h
      · simp at h
      · cases later : (r.deriv c).longest? cs with
        | some k =>
            have := ih later
            grind
        | none => grind

/-! ### Words of simple expressions -/

/-- A word of one character. -/
theorem matches_one_iff {p : Char → Bool} :
  Matches (.one p) w ↔ ∃ c, w = [c] ∧ p c = true
  := by
  constructor
  · intro h
    cases h with
    | one holds => exact ⟨_, rfl, holds⟩
  · rintro ⟨c, rfl, holds⟩
    apply Regex.Matches.one holds

/-- A word of two parts. -/
theorem matches_seq_iff :
  Matches (.seq a b) w ↔ ∃ u v, w = u ++ v ∧ Matches a u ∧ Matches b v
  := by
  constructor
  · intro h
    cases h with
    | seq ha hb => exact ⟨_, _, rfl, ha, hb⟩
  · rintro ⟨u, v, rfl, ha, hb⟩
    apply Regex.Matches.seq ha hb

theorem matches_char_iff {c : Char} :
  Matches (.char c) w ↔ w = [c]
  := by
  simp [char, matches_one_iff]

/-- A given word. -/
theorem matches_word_iff {cs : List Char} :
  Matches (.word cs) w ↔ w = cs
  := by
  induction cs generalizing w with
  | nil =>
      constructor
      · rintro ⟨⟩
        rfl
      · rintro rfl
        apply Regex.Matches.empty
  | cons c cs ih => simp [word, matches_seq_iff, matches_char_iff, ih]

/-- A word of characters of one kind. -/
theorem matches_star_one_iff {p : Char → Bool} :
  Matches (.star (.one p)) w ↔ ∀ c ∈ w, p c = true
  := by
  constructor
  · apply forall_of_matches_star
  · intro all
    induction w with
    | nil => apply Regex.Matches.starNil
    | cons c w ih =>
        simp only [List.forall_mem_cons] at all
        apply Regex.Matches.starCons (u := [c]) (.one all.1) (ih all.2)

/-- Matching by derivatives decides what an expression matches. -/
instance : DecidableRel Matches := fun r w =>
  decidable_of_iff ((w.foldl (fun r c => r.deriv c) r).nullable = true) (by
    induction w generalizing r with
    | nil => use matches_nil_of_nullable, nullable_of_matches_nil
    | cons c w ih => apply (ih (r.deriv c)).trans ⟨matches_of_deriv, deriv_matches⟩)

end Regex

/-! ### The best match -/

/-- Every word and mark is listed. -/
theorem Fixed.mem_all (f : Fixed) :
  f ∈ Fixed.all
  := by
  cases f <;> decide

/-- Every rule is listed. -/
theorem LexRule.mem_all (rule : LexRule) :
  rule ∈ all
  := by
  cases rule with
  | fixed f => simp [all, f.mem_all]
  | blank | comment | int | str | ident => simp [all]

namespace Lexeme

variable {c : Char} {cs w rest : List Char}

/-- The best of a list of matches is as long as each of them. -/
theorem le_foldl_better {xs : List (LexRule × Nat)} (start : Option (LexRule × Nat))
    {e : LexRule × Nat} (h : start = some e ∨ e ∈ xs) :
  ∃ b, xs.foldl better start = some b ∧ e.2 ≤ b.2
  := by
  induction xs generalizing start e with
  | nil =>
      obtain rfl | mem := h
      · use e, rfl, Nat.le_refl _
      · simp at mem
  | cons x xs ih =>
      rw [List.foldl_cons]
      have kept (e : LexRule × Nat) (h : start = some e ∨ e = x) :
          ∃ b, better start x = some b ∧ e.2 ≤ b.2 := by
        unfold better
        grind
      have here : start = some e ∨ e = x ∨ e ∈ xs := by simpa using h
      obtain first | later := or_assoc.2 here
      · obtain ⟨b, same, le⟩ := kept e first
        obtain ⟨b', found, le'⟩ := ih _ (.inl same)
        use b', found, Nat.le_trans le le'
      · apply ih _ (.inr later)

/-- What a rule matches at the front of `c :: cs`. -/
def found (c : Char) (cs : List Char) (rule : LexRule) : Option (LexRule × Nat) :=
  ((rule.regex.deriv c).longest? cs).map fun n => (rule, n)

/-- The best match is taken among those that the rules find. -/
theorem best?_eq (c : Char) (cs : List Char) :
  best? c cs = (LexRule.all.filterMap (found c cs)).foldl better none
  := by
  rw [best?, LexRule.table, List.filterMap_map]
  rfl

/-- A rule that matches a word finds a match as long as the word. -/
theorem found_of_matches {rule : LexRule} (word : rule.regex.Matches (c :: w)) (rest : List Char) :
  ∃ n, found c (w ++ rest) rule = some (rule, n) ∧ w.length ≤ n
  := by
  obtain ⟨n, longest, le⟩ := Regex.le_longest? (Regex.deriv_matches word) rest
  use n
  constructor
  · simp [found, longest]
  · apply le

/-- What a rule finds is a word of the rule. -/
theorem matches_of_found {rule rule' : LexRule} {n : Nat} (here : found c cs rule = some (rule', n)) :
  rule' = rule ∧ rule.regex.Matches (c :: cs.take n) ∧ n ≤ cs.length
  := by
  obtain ⟨k, longest, same⟩ := Option.map_eq_some_iff.1 here
  obtain ⟨rfl, rfl⟩ : rule = rule' ∧ k = n := by simpa using same
  use rfl, Regex.matches_of_deriv (Regex.matches_of_longest? longest)
  apply Regex.longest?_le_length longest

/-- The rules before that of identifiers. -/
def beforeIdent : List LexRule := .blank :: .comment :: Fixed.all.map .fixed ++ [.int, .str]

/-- The rule of identifiers is the last one. -/
theorem all_eq :
  LexRule.all = beforeIdent ++ [.ident]
  := rfl

/-- An identifier is found only where every other rule matches less. -/
theorem lt_of_best?_ident {n : Nat} (best : best? c cs = some (.ident, n)) {rule : LexRule}
    (other : rule ≠ .ident) {k : Nat} (here : found c cs rule = some (rule, k)) :
  k < n
  := by
  have listed : rule ∈ beforeIdent := by
    have := rule.mem_all
    rw [all_eq, List.mem_append] at this
    simpa [other] using this
  rw [best?_eq, all_eq, List.filterMap_append, List.foldl_append] at best
  obtain ⟨b, before, le⟩ := le_foldl_better none
    (.inr (List.mem_filterMap.2 ⟨rule, listed, here⟩))
  have other' : b.1 ≠ .ident := by
    have mem := (mem_of_foldl_better before).resolve_left (by simp)
    obtain ⟨rule', listed', here'⟩ := List.mem_filterMap.1 mem
    obtain ⟨same, -⟩ := matches_of_found here'
    rintro isIdent
    obtain rfl : rule' = .ident := same.symm.trans isIdent
    revert listed'
    decide
  rw [before] at best
  cases last : found c cs .ident with
  | none =>
      obtain rfl : b = (.ident, n) := by simpa [last] using best
      apply (other' rfl).elim
  | some e =>
      have : better (some b) e = some (.ident, n) := by simpa [last] using best
      unfold better at this
      grind

/-- A word at the front of a text is cut off with its rule if no rule matches more there and none
but that of identifiers matches as much. -/
theorem best?_eq_some {rule : LexRule} (word : rule.regex.Matches (c :: w))
    (top : ∀ rule' v, rule'.regex.Matches v → v <+: c :: (w ++ rest) →
      v.length ≤ (c :: w).length ∧ (v = c :: w → rule' = rule ∨ rule' = .ident)) :
  best? c (w ++ rest) = some (rule, w.length)
  := by
  have bounded {rule' rule'' : LexRule} {n : Nat} (here : found c (w ++ rest) rule' = some (rule'', n)) :
      rule'' = rule' ∧ n ≤ w.length ∧ (n = w.length → rule' = rule ∨ rule' = .ident) := by
    obtain ⟨same, holds, le⟩ := matches_of_found here
    have prefixed : c :: (w ++ rest).take n <+: c :: (w ++ rest) := List.cons_prefix_cons.2 ⟨rfl, List.take_prefix ..⟩
    obtain ⟨short, only⟩ := top rule' _ holds prefixed
    simp only [List.length_cons, List.length_take] at short
    and_intros
    · apply same
    · omega
    · rintro rfl
      apply only (by simp)
  obtain ⟨n, here, le⟩ := found_of_matches word rest
  obtain rfl : n = w.length := Nat.le_antisymm (bounded here).2.1 le
  obtain ⟨b, best, le'⟩ := le_foldl_better none (.inr (List.mem_filterMap.2 ⟨rule, rule.mem_all, here⟩))
  rw [← best?_eq] at best
  have mem := (mem_of_foldl_better ((best?_eq _ _).symm.trans best)).resolve_left (by simp)
  obtain ⟨rule', -, here'⟩ := List.mem_filterMap.1 mem
  obtain ⟨rule'', m⟩ := b
  obtain ⟨rfl, short, only⟩ := bounded here'
  obtain rfl : m = w.length := Nat.le_antisymm short le'
  obtain rfl | rfl := only rfl
  · apply best
  · by_cases same : rule = .ident
    · apply same ▸ best
    · apply (Nat.lt_irrefl _ (lt_of_best?_ident best same here)).elim

/-- The best match is the first lexeme, and the text after it has the others. -/
theorem ofChars_of_best? {rule : LexRule} (best : best? c (w ++ rest) = some (rule, w.length)) :
  ofChars (c :: w ++ rest) = ⟨some rule, c :: w⟩ :: ofChars rest
  := by
  rw [List.cons_append, ofChars, best]
  simp

end Lexeme

/-! ### Words of the rules -/

/-- Characters that continue no token; they end the tokens before them. -/
def isDelimiter (c : Char) : Bool :=
  c ∈ ['.', ',', ';', ':', '(', ')', '[', ']', '\x7b', '\x7d', ' ', '\n']

namespace LexRule

variable {rule : LexRule} {c : Char} {w : List Char}

/-- Digits, with a minus in front or without. -/
theorem matches_int_iff :
  int.regex.Matches w ↔ ∃ v, v ≠ [] ∧ (∀ c ∈ v, c.isDigit = true) ∧ (w = v ∨ w = '-' :: v)
  := by
  have sign {u : List Char} : (Regex.opt (.char '-')).Matches u ↔ u = [] ∨ u = ['-'] := by
    constructor
    · intro h
      cases h with
      | altLeft h => cases h; exact .inl rfl
      | altRight h =>
          right
          apply Regex.matches_char_iff.1 h
    · rintro (rfl | rfl)
      · apply Regex.Matches.altLeft .empty
      · apply Regex.Matches.altRight (Regex.matches_char_iff.2 rfl)
  have digits {v : List Char} : (Regex.plus (.one Char.isDigit)).Matches v
      ↔ v ≠ [] ∧ ∀ c ∈ v, c.isDigit = true := by
    rw [Regex.plus, Regex.matches_seq_iff]
    constructor
    · rintro ⟨_, v, rfl, first, rest⟩
      obtain ⟨c, rfl, holds⟩ := Regex.matches_one_iff.1 first
      have all := Regex.matches_star_one_iff.1 rest
      simp_all
    · rintro ⟨nonempty, all⟩
      obtain ⟨c, v, rfl⟩ := List.exists_cons_of_ne_nil nonempty
      rw [List.forall_mem_cons] at all
      use [c], v, rfl, .one all.1, Regex.matches_star_one_iff.2 all.2
  rw [regex, Regex.matches_seq_iff]
  constructor
  · rintro ⟨u, v, rfl, first, rest⟩
    obtain ⟨nonempty, all⟩ := digits.1 rest
    obtain rfl | rfl := sign.1 first
    · use v, nonempty, all
      left
      rfl
    · use v, nonempty, all
      right
      rfl
  · rintro ⟨v, nonempty, all, rfl | rfl⟩
    · exact ⟨[], _, rfl, sign.2 (.inl rfl), digits.2 ⟨nonempty, all⟩⟩
    · use ['-'], v, rfl, sign.2 (.inr rfl)
      apply digits.2
      use nonempty, all

/-- A letter or underscore, and characters of identifiers. -/
theorem matches_ident_iff :
  ident.regex.Matches w ↔ ∃ c v, w = c :: v ∧ isIdentStart c = true ∧ ∀ d ∈ v, isIdentRest d = true
  := by
  simp only [regex, Regex.matches_seq_iff, Regex.matches_one_iff, Regex.matches_star_one_iff]
  constructor
  · rintro ⟨_, v, rfl, ⟨c, rfl, first⟩, rest⟩
    use c, v, rfl, first, rest
  · rintro ⟨c, v, rfl, first, rest⟩
    use [c], v, rfl
    constructor
    · use c, rfl, first
    · apply rest

/-- A text without quotes and ends of lines, in quotes. -/
theorem matches_str_iff :
  str.regex.Matches w ↔ ∃ v, w = '"' :: (v ++ ['"']) ∧ ∀ c ∈ v, c ≠ '"' ∧ c ≠ '\n'
  := by
  simp only [regex, Regex.matches_seq_iff, Regex.matches_char_iff, Regex.matches_star_one_iff]
  constructor
  · rintro ⟨_, _, rfl, rfl, v, _, rfl, content, rfl⟩
    use v, rfl
    simpa using content
  · rintro ⟨v, rfl, content⟩
    exact ⟨['"'], _, rfl, rfl, v, _, rfl, by simpa using content, rfl⟩

/-- The characters that words of a rule begin with. -/
def starts : LexRule → Char → Bool
  | blank, c => c ∈ ['\t', '\n', '\r', ' ']
  | comment, c => c = '/'
  | fixed f, c => f.text.toList.head? = some c
  | int, c => c = '-' || c.isDigit
  | str, c => c = '"'
  | ident, c => isIdentStart c

/-- The words of a rule begin with one of its first characters. -/
theorem exists_starts_of_matches (word : rule.regex.Matches w) :
  ∃ c v, w = c :: v ∧ rule.starts c = true
  := by
  cases rule with
  | blank =>
      obtain ⟨c, rfl, holds⟩ := Regex.matches_one_iff.1 word
      exact ⟨c, [], rfl, holds⟩
  | comment =>
      obtain ⟨_, v, rfl, slashes, -⟩ := Regex.matches_seq_iff.1 word
      obtain rfl := Regex.matches_word_iff.1 slashes
      exact ⟨_, _, rfl, rfl⟩
  | fixed f =>
      obtain rfl := Regex.matches_word_iff.1 word
      cases f <;> exact ⟨_, _, rfl, by decide⟩
  | int =>
      obtain ⟨v, nonempty, all, rfl | rfl⟩ := matches_int_iff.1 word
      · obtain ⟨c, v, rfl⟩ := List.exists_cons_of_ne_nil nonempty
        exact ⟨c, v, rfl, by simp [starts, all]⟩
      · exact ⟨_, v, rfl, rfl⟩
  | str =>
      obtain ⟨v, rfl, -⟩ := matches_str_iff.1 word
      exact ⟨_, _, rfl, rfl⟩
  | ident =>
      obtain ⟨c, v, rfl, first, -⟩ := matches_ident_iff.1 word
      use c, v, rfl
      apply first

/-- Only blanks begin with a blank. -/
theorem eq_blank_of_starts (blank : LexRule.blank.starts c = true) (starts : rule.starts c = true) :
  rule = .blank
  := by
  have only : (['\t', '\n', '\r', ' '].all fun c =>
      decide (∀ rule ∈ all, rule.starts c = true → rule = .blank)) = true := by decide
  rw [List.all_eq_true] at only
  apply of_decide_eq_true (only c (of_decide_eq_true blank)) rule rule.mem_all starts

theorem starts_of_matches (word : rule.regex.Matches (c :: w)) :
  rule.starts c = true
  := by
  obtain ⟨c, w, ⟨⟩, holds⟩ := exists_starts_of_matches word
  apply holds

/-- No identifier begins like an integer. -/
theorem int_starts_of_isIdentStart (first : isIdentStart c = true) :
  int.starts c = false
  := by
  rw [starts, Bool.or_eq_false_iff, decide_eq_false_iff_not]
  constructor
  · rintro rfl
    cases first
  · rw [Bool.eq_false_iff]
    intro digit
    simp only [isIdentStart, Bool.or_eq_true, decide_eq_true_eq] at first
    obtain (letter | rfl) | rfl := first
    · unfold Char.isAlpha Char.isUpper Char.isLower at letter
      simp only [Char.isDigit, Bool.or_eq_true, Bool.and_eq_true, decide_eq_true_eq] at letter digit
      grind
    · cases digit
    · cases digit

/-- The characters of identifiers delimit nothing. -/
theorem not_isDelimiter_of_isIdentRest (rest : isIdentRest c = true) :
  isDelimiter c = false
  := by
  have others : (['.', ',', ';', ':', '(', ')', '[', ']', '\x7b', '\x7d', ' ', '\n'].all fun c =>
      !isIdentRest c) = true := by decide
  rw [List.all_eq_true] at others
  rw [isDelimiter, decide_eq_false_iff_not]
  intro delimiter
  simpa [rest] using others c delimiter

/-- Within a word there is no delimiter, strings and comments aside. -/
theorem not_isDelimiter_of_matches (word : rule.regex.Matches (c :: w)) (notComment : rule ≠ .comment)
    (notStr : rule ≠ .str) {d : Char} (mem : d ∈ w) :
  isDelimiter d = false
  := by
  cases rule with
  | comment => apply (notComment rfl).elim
  | str => apply (notStr rfl).elim
  | blank =>
      obtain ⟨_, ⟨⟩, -⟩ := Regex.matches_one_iff.1 word
      simp at mem
  | fixed f =>
      have inner : ∀ f ∈ Fixed.all, (f.text.toList.tail.all fun d => !isDelimiter d) = true := by decide
      have all := inner f f.mem_all
      rw [← Regex.matches_word_iff.1 word, List.all_eq_true] at all
      simpa using all d mem
  | int =>
      obtain ⟨v, -, all, same⟩ := matches_int_iff.1 word
      have digit : d.isDigit = true := by grind
      apply not_isDelimiter_of_isIdentRest (by simp [isIdentRest, digit])
  | ident =>
      obtain ⟨_, _, ⟨⟩, -, rest⟩ := matches_ident_iff.1 word
      apply not_isDelimiter_of_isIdentRest (rest d mem)

end LexRule

/-! ### Tokens in a text -/

/-- An identifier: its characters are right, and it is no word of the language. -/
def IsIdent (x : String) : Prop :=
  LexRule.ident.regex.Matches x.toList ∧ x ∉ Fixed.all.map Fixed.text

instance (x : String) : Decidable (IsIdent x) := inferInstanceAs (Decidable (_ ∧ _))

/-- An integer as it is written. -/
def IsInteger (x : String) : Prop := LexRule.int.regex.Matches x.toList

instance (x : String) : Decidable (IsInteger x) := inferInstanceAs (Decidable (Regex.Matches _ _))

/-- A text that can stand between quotes. -/
def IsQuotable (s : String) : Prop := ∀ c ∈ s.toList, c ≠ '"' ∧ c ≠ '\n'

instance (s : String) : Decidable (IsQuotable s) := List.decidableBAll _ s.toList

namespace Token

/-- The text of the token is one that its rule matches. -/
def IsLexical : Token → Prop
  | fixed _ => True
  | ident x => IsIdent x
  | int digits => IsInteger digits
  | str content => IsQuotable content

/-- The rule of a token. -/
def rule : Token → LexRule
  | fixed f => .fixed f
  | ident _ => .ident
  | int _ => .int
  | str _ => .str

/-- The marks that no other word or mark begins with. -/
def closers : List Fixed :=
  [.dot, .comma, .semicolon, .lparen, .rparen, .lbrace, .rbrace, .lbracket, .rbracket]

/-- Whether the last character of a token ends it, whatever follows. -/
def isClosed : Token → Bool
  | fixed f => f ∈ closers
  | str _ => true
  | _ => false

variable {t : Token}

theorem str_text_toList (content : String) :
  (str content).text.toList = '"' :: (content.toList ++ ['"'])
  := by
  simp [text]

/-- The rule of a token matches its text. -/
theorem rule_matches (lexical : t.IsLexical) :
  t.rule.regex.Matches t.text.toList
  := by
  cases t with
  | fixed f => apply Regex.matches_word_iff.2 rfl
  | ident x => apply lexical.1
  | int digits => apply lexical
  | str content => apply LexRule.matches_str_iff.2 ⟨_, str_text_toList content, lexical⟩

/-- The lexeme with the rule and the text of a token stands for the token. -/
theorem token?_eq (t : Token) :
  Lexeme.token? ⟨some t.rule, t.text.toList⟩ = some t
  := by
  cases t with
  | fixed | ident | int => simp [Lexeme.token?, rule, text]
  | str content => simp [Lexeme.token?, rule, str_text_toList]

end Token

/-- A text that is empty or begins with a delimiter. -/
def Delimited (cs : List Char) : Prop := cs.head?.all isDelimiter = true

/-- The end of a text delimits what comes before it. -/
theorem delimited_nil :
  Delimited []
  := rfl

namespace Token

variable {t : Token} {rest v : List Char} {rule : LexRule}

/-- Only strings begin with a quote. -/
theorem quote_of_starts (starts : t.rule.starts '"' = true) :
  ∃ content, t = .str content
  := by
  have none : ∀ f ∈ Fixed.all, f.text.toList.head? ≠ some '"' := by decide
  cases t with
  | str content => use content
  | ident | int => cases starts
  | fixed f => apply (none f f.mem_all (by simpa [rule, LexRule.starts] using starts)).elim

/-- A closed token is the only one that begins with its first character. -/
theorem rule_eq_of_isClosed (closed : t.isClosed = true) {c : Char} (first : t.text.toList.head? = some c)
    (starts : rule.starts c = true) :
  rule = t.rule
  := by
  cases t with
  | ident | int => cases closed
  | str content =>
      obtain rfl : c = '"' := by simpa [str_text_toList, eq_comm] using first
      cases rule with
      | str => rfl
      | fixed f => obtain ⟨_, ⟨⟩⟩ := quote_of_starts (t := .fixed f) starts
      | blank | comment | int | ident => cases starts
  | fixed f =>
      have mem : f ∈ closers := of_decide_eq_true closed
      have first : f.text.toList.head? = some c := first
      cases rule with
      | fixed g =>
          have only : ∀ f ∈ closers, ∀ g ∈ Fixed.all, g.text.toList.head? = f.text.toList.head? → g = f := by
            decide
          rw [only f mem g g.mem_all]
          · rfl
          · simpa [LexRule.starts, first] using starts
      | blank | comment | int | str | ident =>
          simp only [closers, List.mem_cons, List.not_mem_nil, or_false] at mem
          rcases mem with rfl | rfl | rfl | rfl | rfl | rfl | rfl | rfl | rfl <;> cases first <;> cases starts

/-- Only the slash begins with a slash, comments aside. -/
theorem slash_of_starts (starts : t.rule.starts '/' = true) :
  t = .fixed .slash
  := by
  have only : ∀ f ∈ Fixed.all, f.text.toList.head? = some '/' → f = .slash := by decide
  cases t with
  | ident | int | str => cases starts
  | fixed f => rw [only f f.mem_all (by simpa [rule, LexRule.starts] using starts)]

/-- The rule of a closed token matches nothing that begins with the token and is longer: a longer string would
have the closing quote of the token inside. -/
theorem eq_nil_of_isClosed (closed : t.isClosed = true) {u : List Char}
    (word : t.rule.regex.Matches (t.text.toList ++ u)) :
  u = []
  := by
  cases t with
  | ident | int => cases closed
  | fixed f => apply List.append_right_eq_self.1 (Regex.matches_word_iff.1 word)
  | str content =>
      obtain ⟨v, same, free⟩ := LexRule.matches_str_iff.1 word
      have same : content.toList ++ '"' :: u = v ++ ['"'] := by
        simpa [str_text_toList] using same
      by_cases last : u = []
      · apply last
      · have inside : '"' ∈ v := by
          have := congrArg List.dropLast same
          rw [List.dropLast_concat, List.dropLast_append_cons, List.dropLast_cons_of_ne_nil last] at this
          simp [← this]
        apply ((free _ inside).1 rfl).elim

/-- No word at the front of a text goes beyond the token there. -/
theorem length_le_of_prefixed (lexical : t.IsLexical) (ends : t.isClosed = true ∨ Delimited rest)
    (word : rule.regex.Matches v) (prefixed : v <+: t.text.toList ++ rest) :
  v.length ≤ t.text.toList.length
  := by
  apply Nat.le_of_not_lt
  intro long
  obtain ⟨c, w, text, own⟩ := LexRule.exists_starts_of_matches (rule_matches lexical)
  obtain ⟨s, same⟩ := prefixed
  obtain ⟨u, rfl, rfl⟩ : ∃ u, v = t.text.toList ++ u ∧ rest = u ++ s := by
    obtain ⟨u, longer, -⟩ | found := List.append_eq_append_iff.1 same
    · have := congrArg List.length longer
      grind
    · apply found
  obtain ⟨d, u, rfl⟩ := List.exists_cons_of_length_pos (l := u) (by simpa using long)
  rw [text, List.cons_append] at word
  have starts := LexRule.starts_of_matches word
  by_cases closed : t.isClosed = true
  · obtain rfl := rule_eq_of_isClosed closed (by simp [text]) starts
    rw [← List.cons_append, ← text] at word
    simp [eq_nil_of_isClosed closed word] at long
  · have delimiter : isDelimiter d = true := ends.resolve_left closed
    by_cases isComment : rule = .comment
    · obtain rfl : c = '/' := by simpa [isComment, LexRule.starts] using starts
      obtain rfl := slash_of_starts own
      obtain rfl : [] = w := (List.cons.inj text).2
      obtain ⟨_, v, same, slashes, -⟩ := Regex.matches_seq_iff.1 (isComment ▸ word)
      obtain rfl := Regex.matches_word_iff.1 slashes
      obtain ⟨rfl, -⟩ : d = '/' ∧ u = v := by simpa using same
      cases delimiter
    · by_cases isStr : rule = .str
      · obtain rfl : c = '"' := by simpa [isStr, LexRule.starts] using starts
        obtain ⟨content, rfl⟩ := quote_of_starts own
        apply closed rfl
      · have := LexRule.not_isDelimiter_of_matches word isComment isStr (d := d) (by simp)
        simp [delimiter] at this

/-- Of the rules that match a token that of identifiers is the only one besides its own. -/
theorem rule_eq_of_matches (lexical : t.IsLexical) (word : rule.regex.Matches t.text.toList) :
  rule = t.rule ∨ rule = .ident
  := by
  obtain ⟨c, w, text, own⟩ := LexRule.exists_starts_of_matches (rule_matches lexical)
  have starts : rule.starts c = true := LexRule.starts_of_matches (text ▸ word)
  have noInt : ∀ f ∈ Fixed.all, ¬ LexRule.int.regex.Matches f.text.toList := by decide
  by_cases closed : t.isClosed = true
  · left
    apply rule_eq_of_isClosed closed (by simp [text]) starts
  · cases rule with
    | ident =>
        right
        rfl
    | str =>
        obtain rfl : c = '"' := of_decide_eq_true starts
        obtain ⟨content, rfl⟩ := quote_of_starts own
        left
        rfl
    | comment =>
        obtain rfl : c = '/' := of_decide_eq_true starts
        obtain rfl := slash_of_starts own
        revert word
        decide
    | blank =>
        have same := LexRule.eq_blank_of_starts starts own
        cases t <;> cases same
    | fixed g =>
        have same : t.text.toList = g.text.toList := Regex.matches_word_iff.1 word
        cases t with
        | fixed f =>
            have inj : ∀ f ∈ Fixed.all, ∀ g ∈ Fixed.all, f.text = g.text → f = g := by decide
            rw [inj f f.mem_all g g.mem_all (String.toList_inj.1 same)]
            left
            rfl
        | ident x =>
            obtain rfl : x = g.text := String.toList_inj.1 same
            apply (lexical.2 (List.mem_map.2 ⟨g, g.mem_all, rfl⟩)).elim
        | int digits => apply (noInt g g.mem_all (same ▸ lexical)).elim
        | str content => apply (closed rfl).elim
    | int =>
        cases t with
        | fixed f => apply (noInt f f.mem_all word).elim
        | int =>
            left
            rfl
        | ident x => simp [LexRule.int_starts_of_isIdentStart own] at starts
        | str content => apply (closed rfl).elim

/-- A token at the front of a text is cut off as its lexeme. -/
theorem ofChars_append (lexical : t.IsLexical) (ends : t.isClosed = true ∨ Delimited rest) :
  Lexeme.ofChars (t.text.toList ++ rest) = ⟨some t.rule, t.text.toList⟩ :: Lexeme.ofChars rest
  := by
  have word := rule_matches lexical
  obtain ⟨c, w, text, -⟩ := LexRule.exists_starts_of_matches word
  rw [text] at word
  rw [text]
  apply Lexeme.ofChars_of_best?
  apply Lexeme.best?_eq_some word
  intro rule' v word' prefixed
  rw [← List.cons_append, ← text] at prefixed
  rw [← text]
  use length_le_of_prefixed lexical ends word' prefixed
  rintro rfl
  apply rule_eq_of_matches lexical word'

end Token

/-- A blank at the front of a text is cut off. -/
theorem Lexeme.ofChars_blank {c : Char} (blank : LexRule.blank.starts c = true) (rest : List Char) :
  Lexeme.ofChars (c :: rest) = ⟨some .blank, [c]⟩ :: Lexeme.ofChars rest
  := by
  apply ofChars_of_best? (w := [])
  have word : LexRule.blank.regex.Matches [c] := .one blank
  apply best?_eq_some word
  intro rule v word prefixed
  obtain ⟨d, v, rfl, starts⟩ := LexRule.exists_starts_of_matches word
  obtain ⟨rfl, -⟩ := List.cons_prefix_cons.1 prefixed
  obtain rfl := LexRule.eq_blank_of_starts blank starts
  obtain ⟨_, ⟨⟩, -⟩ := Regex.matches_one_iff.1 word
  simp

/-! ### The tokens of a text -/

/-- A word of the language is no identifier. -/
theorem Lexeme.chars_ne_of_mem_ofChars {cs : List Char} {l : Lexeme} (mem : l ∈ ofChars cs)
    (ruled : l.rule = some .ident) (f : Fixed) :
  l.chars ≠ f.text.toList
  := by
  fun_induction ofChars cs with
  | case1 => simp at mem
  | case2 c cs rule n best ih =>
      obtain rfl | mem := List.mem_cons.1 mem
      · obtain rfl : rule = .ident := by simpa using ruled
        intro same
        have word : (LexRule.fixed f).regex.Matches (c :: cs.take n) := Regex.matches_word_iff.2 same
        obtain ⟨k, here, le⟩ := found_of_matches word (cs.drop n)
        rw [List.take_append_drop] at here
        have lt := lt_of_best?_ident best (by simp) here
        have mem := (mem_of_foldl_better ((best?_eq _ _).symm.trans best)).resolve_left (by simp)
        obtain ⟨_, -, here'⟩ := List.mem_filterMap.1 mem
        obtain ⟨-, -, short⟩ := matches_of_found here'
        rw [List.length_take_of_le short] at le
        omega
      · apply ih mem
  | case3 c cs none ih =>
      obtain rfl | mem := List.mem_cons.1 mem
      · cases ruled
      · apply ih mem

/-- The tokens of a text are words of their rules. -/
theorem Scan.isLexical_of_mem_ofText {text : String} {t : Located Token} (mem : t ∈ (ofText text).tokens) :
  t.value.IsLexical
  := by
  obtain ⟨l, mem, token⟩ := mem_tokens_ofLexemes mem
  cases ruled : l.rule with
  | none => simp [Lexeme.token?, ruled] at token
  | some rule =>
      have word := Lexeme.matches_of_mem_ofChars mem ruled
      cases rule with
      | blank | comment => simp [Lexeme.token?, ruled] at token
      | fixed f =>
          obtain same : .fixed f = t.value := by simpa [Lexeme.token?, ruled] using token
          simp [← same, Token.IsLexical]
      | int =>
          obtain same : .int (String.ofList l.chars) = t.value := by simpa [Lexeme.token?, ruled] using token
          simpa [← same, Token.IsLexical, IsInteger] using word
      | str =>
          obtain same : .str (String.ofList (l.chars.drop 1).dropLast) = t.value := by
            simpa [Lexeme.token?, ruled] using token
          obtain ⟨v, chars, free⟩ := LexRule.matches_str_iff.1 word
          simpa [← same, Token.IsLexical, IsQuotable, chars] using free
      | ident =>
          obtain same : .ident (String.ofList l.chars) = t.value := by simpa [Lexeme.token?, ruled] using token
          rw [← same]
          constructor
          · simpa using word
          · intro listed
            obtain ⟨f, -, text⟩ := List.mem_map.1 listed
            apply Lexeme.chars_ne_of_mem_ofChars mem ruled f
            simp [text]

end StackBackend
