import Mathlib.Tactic.Use
import StackBackend.Proofs.Source.Lexing

/-!
# Longest match

A text has one cut into lexemes such that each is the longest prefix of what is left that a rule matches,
classified by the first rule that matches it. The lexemes of a text are this cut. They take the bytes of
the text one after the other, and what is read of the text are the tokens among them up to the first stray,
with the bytes that they take.
-/

namespace StackBackend

namespace Fixed

/-- The marks of the language. -/
def marks : List Fixed :=
  [dot, comma, semicolon, colon, becomes, lparen, rparen, lbrace, rbrace, lbracket, rbracket,
    plus, minus, star, slash, less, greater, lessEqual, greaterEqual, equalEqual, notEqual,
    andAnd, orOr, bang]

/-- The words of the language. -/
def words : List Fixed :=
  [wImport, wExtends, wField, wMethod, wConstruct, wPublic, wPrivate, wProtected, wStatic,
    wFinal, wGoto, wIf, wRet, wNew, wArray, wGetField, wPutField, wArrayLength,
    wInvokeStatic, wInvokeVirtual, wInvokeSpecial]

end Fixed

namespace Lexeme

/-- The rules that are preferred to that of identifiers. -/
def preferred : List LexRule :=
  .blank :: .comment :: Fixed.marks.map .fixed ++ [.int, .str] ++ Fixed.words.map .fixed

/-- The rules in order of preference, with what they match; the last one is that of strays. -/
def rules : List (Option LexRule × Regex) :=
  (preferred ++ [LexRule.ident]).map (fun rule => (some rule, rule.regex)) ++ [(none, .one (· ≠ '\n'))]

/-- A lexeme that begins a text: no rule matches a longer prefix of the text, and its own rule is the first
one that matches it. -/
structure Leads (l : Lexeme) (cs : List Char) : Prop where
  front : l.chars <+: cs
  longest : ∀ e ∈ rules, ∀ w, e.2.Matches w → w <+: cs → w.length ≤ l.chars.length
  first : (rules.find? fun e => e.2.Matches l.chars).map Prod.fst = some l.rule

/-- The text that lexemes make up. -/
def written (ls : List (Located Lexeme)) : String := String.ofList (ls.flatMap fun l => l.value.chars)

/-- A cut of a text by longest match. The lexemes are not empty and make up the text, each begins what is
left of the text at its place, and its span are the bytes that it takes. -/
structure IsCut (text : String) (ls : List (Located Lexeme)) : Prop where
  whole : written ls = text
  nonempty : ∀ l ∈ ls, l.value.chars ≠ []
  leads : ∀ before l after, ls = before ++ l :: after → l.value.Leads (written (l :: after)).toList
  spans : ∀ before l after, ls = before ++ l :: after →
    l.span = ⟨(written before).utf8ByteSize, (written (before ++ [l])).utf8ByteSize⟩

/-- Lexemes with the bytes that they take, from byte `start` on. -/
def locate (start : Nat) : List Lexeme → List (Located Lexeme)
  | [] => []
  | l :: ls => ⟨l, ⟨start, start + byteLength l.chars⟩⟩ :: locate (start + byteLength l.chars) ls

end Lexeme

/-- What is read of located lexemes: the tokens before the first stray, and the stray. -/
def Scan.ofLocated (ls : List (Located Lexeme)) : Scan where
  tokens := (ls.takeWhile fun l => l.value.rule.isSome).filterMap fun l =>
    l.value.token?.map fun t => ⟨t, l.span⟩
  stray := (ls.find? fun l => l.value.rule.isNone).map fun l => ⟨String.ofList l.value.chars, l.span⟩

/-! ### The first rule -/

/-- A word of a rule that is neither blank nor comment nor identifier is a token of the rule. -/
theorem LexRule.exists_token_of_matches {rule : LexRule} {w : List Char} (word : rule.regex.Matches w)
    (visible : rule ≠ .blank ∧ rule ≠ .comment ∧ rule ≠ .ident) :
  ∃ t : Token, t.IsLexical ∧ t.rule = rule ∧ t.text.toList = w
  := by
  cases rule with
  | blank => apply (visible.1 rfl).elim
  | comment => apply (visible.2.1 rfl).elim
  | ident => apply (visible.2.2 rfl).elim
  | fixed f => use .fixed f, trivial, rfl, (Regex.matches_word_iff.1 word).symm
  | int =>
      refine ⟨.int (String.ofList w), ?_, rfl, String.toList_ofList⟩
      simpa [Token.IsLexical, IsInteger] using word
  | str =>
      obtain ⟨v, rfl, free⟩ := matches_str_iff.1 word
      refine ⟨.str (String.ofList v), ?_, rfl, by simp [Token.str_text_toList]⟩
      simpa [Token.IsLexical, IsQuotable] using free

/-- Of the rules that match a word one at most is not that of identifiers. -/
theorem LexRule.eq_of_matches {rule rule' : LexRule} {w : List Char} (word : rule.regex.Matches w)
    (word' : rule'.regex.Matches w) (other : rule ≠ .ident) (other' : rule' ≠ .ident) :
  rule = rule'
  := by
  by_cases visible : rule ≠ .blank ∧ rule ≠ .comment
  · obtain ⟨t, lexical, rfl, rfl⟩ := exists_token_of_matches word ⟨visible.1, visible.2, other⟩
    apply ((Token.rule_eq_of_matches lexical word').resolve_right other').symm
  by_cases visible' : rule' ≠ .blank ∧ rule' ≠ .comment
  · obtain ⟨t, lexical, rfl, rfl⟩ := exists_token_of_matches word' ⟨visible'.1, visible'.2, other'⟩
    apply (Token.rule_eq_of_matches lexical word).resolve_right other
  obtain ⟨c, w, rfl, starts⟩ := exists_starts_of_matches word
  have starts' := starts_of_matches word'
  have hidden : rule = .blank ∨ rule = .comment := by grind
  have hidden' : rule' = .blank ∨ rule' = .comment := by grind
  obtain rfl | rfl := hidden
  · apply (eq_blank_of_starts starts starts').symm
  · obtain rfl | rfl := hidden'
    · apply eq_blank_of_starts starts' starts
    · rfl

namespace Lexeme

/-- Identifiers alone come after all the other rules. -/
theorem mem_preferred_iff {rule : LexRule} :
  rule ∈ preferred ↔ rule ≠ .ident
  := by
  cases rule with
  | fixed f => cases f <;> decide
  | blank | comment | int | str | ident => decide

theorem mem_ruled (rule : LexRule) :
  (some rule, rule.regex) ∈ (preferred ++ [LexRule.ident]).map fun rule => (some rule, rule.regex)
  := by
  apply List.mem_map_of_mem
  rw [List.mem_append, mem_preferred_iff, List.mem_singleton]
  apply Decidable.not_or_self (rule = .ident)

/-- The rules of the language, and one for any other character. -/
theorem eq_of_mem_rules {e : Option LexRule × Regex} (mem : e ∈ rules) :
  (∃ rule : LexRule, e = (some rule, rule.regex)) ∨ e = (none, .one (· ≠ '\n'))
  := by
  obtain ruled | stray := List.mem_append.1 mem
  · obtain ⟨rule, -, rfl⟩ := List.mem_map.1 ruled
    left
    use rule
  · right
    apply List.mem_singleton.1 stray

variable {w : List Char}

/-- The first rule that matches a word: the one that is not that of identifiers, if there is one. -/
theorem find?_rules {rule : LexRule} (word : rule.regex.Matches w)
    (alone : rule = .ident → ∀ rule' : LexRule, rule' ≠ .ident → ¬ rule'.regex.Matches w) :
  (rules.find? fun e => e.2.Matches w).map Prod.fst = some (some rule)
  := by
  rw [rules, List.map_append, List.append_assoc, List.find?_append]
  cases sooner : (preferred.map fun rule => (some rule, rule.regex)).find? fun e => e.2.Matches w with
  | some e =>
      obtain ⟨rule', listed, rfl⟩ := List.mem_map.1 (List.mem_of_find?_eq_some sooner)
      have word' : rule'.regex.Matches w := by simpa using List.find?_some sooner
      have other' := mem_preferred_iff.1 listed
      by_cases isIdent : rule = .ident
      · apply (alone isIdent rule' other' word').elim
      · rw [LexRule.eq_of_matches word word' isIdent other']
        rfl
  | none =>
      rw [List.find?_eq_none] at sooner
      by_cases isIdent : rule = .ident
      · obtain rfl := isIdent
        simp [word]
      · apply (sooner _ (List.mem_map_of_mem (mem_preferred_iff.2 isIdent)) (by simpa using word)).elim

/-- The rule for strays comes first only at a single character that no other rule matches. -/
theorem of_find?_rules_eq_stray
    (first : (rules.find? fun e => e.2.Matches w).map Prod.fst = some none) :
  (∃ c, w = [c]) ∧ ∀ rule : LexRule, ¬ rule.regex.Matches w
  := by
  obtain ⟨e, found, stray⟩ := Option.map_eq_some_iff.1 first
  have word : e.2.Matches w := by simpa using List.find?_some found
  obtain ⟨rule, rfl⟩ | rfl := eq_of_mem_rules (List.mem_of_find?_eq_some found)
  · cases stray
  · obtain ⟨c, single, -⟩ := Regex.matches_one_iff.1 word
    constructor
    · use c, single
    · intro rule holds
      rw [rules, List.find?_append, Option.or_eq_some_iff] at found
      obtain sooner | ⟨sooner, -⟩ := found
      · obtain ⟨_, -, ⟨⟩⟩ := List.mem_map.1 (List.mem_of_find?_eq_some sooner)
      · apply List.find?_eq_none.1 sooner _ (mem_ruled rule) (by simpa using holds)

/-! ### The longest match -/

namespace Leads

variable {l l' : Lexeme} {cs : List Char}

/-- A lexeme that begins a text is a word of one of the rules. -/
theorem exists_matches (leads : l.Leads cs) :
  ∃ e ∈ rules, e.2.Matches l.chars
  := by
  obtain ⟨e, found, -⟩ := Option.map_eq_some_iff.1 leads.first
  use e
  constructor
  · apply List.mem_of_find?_eq_some found
  · simpa using List.find?_some found

/-- A lexeme is not empty. -/
theorem chars_ne_nil (leads : l.Leads cs) :
  l.chars ≠ []
  := by
  obtain ⟨e, mem, word⟩ := leads.exists_matches
  obtain ⟨rule, rfl⟩ | rfl := eq_of_mem_rules mem
  · obtain ⟨c, v, chars, -⟩ := LexRule.exists_starts_of_matches word
    simp [chars]
  · obtain ⟨c, chars, -⟩ := Regex.matches_one_iff.1 word
    simp [chars]

/-- One lexeme only begins a text. -/
theorem unique (leads : l.Leads cs) (leads' : l'.Leads cs) :
  l = l'
  := by
  obtain ⟨e, mem, word⟩ := leads.exists_matches
  obtain ⟨e', mem', word'⟩ := leads'.exists_matches
  have le := leads'.longest e mem _ word leads.front
  have le' := leads.longest e' mem' _ word' leads'.front
  have chars : l.chars = l'.chars :=
    (List.prefix_of_prefix_length_le leads.front leads'.front le).eq_of_length (Nat.le_antisymm le le')
  have rule : some l.rule = some l'.rule := by
    rw [← leads.first, ← leads'.first, chars]
  cases l
  cases l'
  simp_all

/-- A stray is a single character at which no rule matches anything. -/
theorem of_stray (leads : l.Leads cs) (stray : l.rule = none) :
  (∃ c, l.chars = [c]) ∧ ∀ (rule : LexRule) (w : List Char), rule.regex.Matches w → ¬ w <+: cs
  := by
  obtain ⟨⟨c, single⟩, none⟩ := of_find?_rules_eq_stray (stray ▸ leads.first)
  constructor
  · use c, single
  · intro rule w word front
    have le := leads.longest _ (List.mem_append_left _ (mem_ruled rule)) w word front
    obtain ⟨d, v, rfl, -⟩ := LexRule.exists_starts_of_matches word
    have chars : d :: v = l.chars := by
      apply (List.prefix_of_prefix_length_le front leads.front le).eq_of_length
      simp only [single, List.length_cons, List.length_nil] at le ⊢
      omega
    apply none rule (chars ▸ word)

end Leads

variable {c : Char} {cs : List Char}

/-- The best match is no shorter than any other. -/
theorem exists_best?_of_matches {rule : LexRule} (word : rule.regex.Matches w) (front : w <+: c :: cs) :
  ∃ rule' n, best? c cs = some (rule', n) ∧ w.length ≤ n + 1
  := by
  obtain ⟨d, v, rfl, -⟩ := LexRule.exists_starts_of_matches word
  obtain ⟨rfl, rest, rfl⟩ := List.cons_prefix_cons.1 front
  obtain ⟨k, here, le⟩ := found_of_matches word rest
  obtain ⟨⟨rule', n⟩, best, le'⟩ :=
    le_foldl_better none (.inr (List.mem_filterMap.2 ⟨rule, rule.mem_all, here⟩))
  use rule', n
  constructor
  · apply (best?_eq _ _).trans best
  · apply Nat.succ_le_succ (Nat.le_trans le le')

/-- The best match leads the text. -/
theorem leads_of_best? {rule : LexRule} {n : Nat} (best : best? c cs = some (rule, n)) :
  Leads ⟨some rule, c :: cs.take n⟩ (c :: cs)
  := by
  have word := matches_of_best? best
  have inside : n ≤ cs.length := by
    have mem := (mem_of_foldl_better ((best?_eq _ _).symm.trans best)).resolve_left (by simp)
    obtain ⟨_, -, here⟩ := List.mem_filterMap.1 mem
    apply (matches_of_found here).2.2
  constructor
  · apply List.cons_prefix_cons.2
    use rfl
    apply List.take_prefix ..
  · intro e mem w holds front
    rw [List.length_cons, List.length_take_of_le inside]
    obtain ⟨rule', rfl⟩ | rfl := eq_of_mem_rules mem
    · obtain ⟨_, k, best', le⟩ := exists_best?_of_matches holds front
      obtain ⟨-, rfl⟩ : rule = _ ∧ n = k := by simpa [best] using best'
      apply le
    · obtain ⟨d, rfl, -⟩ := Regex.matches_one_iff.1 holds
      simp
  · apply find?_rules word
    rintro rfl rule' other word'
    obtain ⟨k, here, le⟩ := found_of_matches word' (cs.drop n)
    rw [List.take_append_drop] at here
    have lt := lt_of_best?_ident best other here
    rw [List.length_take_of_le inside] at le
    omega

/-- A character that no rule matches leads the text alone. -/
theorem leads_of_best?_eq_none (best : best? c cs = none) :
  Leads ⟨none, [c]⟩ (c :: cs)
  := by
  have silent (rule : LexRule) {w : List Char} (word : rule.regex.Matches w) : ¬ w <+: c :: cs := by
    intro front
    obtain ⟨_, _, some, -⟩ := exists_best?_of_matches word front
    simp [best] at some
  have front : [c] <+: c :: cs := List.cons_prefix_cons.2 ⟨rfl, List.nil_prefix⟩
  constructor
  · apply front
  · intro e mem w holds front
    obtain ⟨rule, rfl⟩ | rfl := eq_of_mem_rules mem
    · apply (silent rule holds front).elim
    · obtain ⟨d, rfl, -⟩ := Regex.matches_one_iff.1 holds
      simp
  · have visible : c ≠ '\n' := by
      rintro rfl
      apply silent .blank (.one (by decide)) front
    have passed : ((preferred ++ [LexRule.ident]).map fun rule => (some rule, rule.regex)).find?
        (fun e => e.2.Matches [c]) = none := by
      rw [List.find?_eq_none]
      intro e mem
      obtain ⟨rule, -, rfl⟩ := List.mem_map.1 mem
      intro word
      apply silent rule (of_decide_eq_true word) front
    have stray : (Regex.one (· ≠ '\n')).Matches [c] := .one (by simpa using visible)
    rw [rules, List.find?_append, passed, Option.none_or, List.find?_cons_of_pos]
    · rfl
    · apply decide_eq_true stray

/-! ### Cuts -/

/-- A lexeme that begins a text is cut off. -/
theorem ofChars_of_leads {l : Lexeme} {rest : List Char} (leads : l.Leads (l.chars ++ rest)) :
  ofChars (l.chars ++ rest) = l :: ofChars rest
  := by
  obtain ⟨c, cs, text⟩ := List.exists_cons_of_ne_nil (l := l.chars ++ rest) (by simp [leads.chars_ne_nil])
  rw [text] at leads ⊢
  rw [ofChars]
  split
  · next rule n best =>
      obtain rfl := leads.unique (leads_of_best? best)
      have rests : cs.take n ++ rest = cs.take n ++ cs.drop n := by simpa using text
      rw [List.append_cancel_left rests]
  · next best =>
      obtain rfl := leads.unique (leads_of_best?_eq_none best)
      have rests : rest = cs := by simpa using text
      rw [rests]

/-- The lexemes of a text are the one list of lexemes that make up the text such that each begins what is
left. -/
theorem eq_ofChars_iff {ls : List Lexeme} :
  ls = ofChars cs
    ↔ ls.flatMap chars = cs
      ∧ ∀ before l after, ls = before ++ l :: after → l.Leads ((l :: after).flatMap chars)
  := by
  constructor
  · rintro rfl
    have step {l : Lexeme} {rest cs : List Char} (leads : l.Leads cs) (text : l.chars ++ rest = cs)
        (later : (ofChars rest).flatMap chars = rest ∧ ∀ before l after,
          ofChars rest = before ++ l :: after → l.Leads ((l :: after).flatMap chars)) :
        (l :: ofChars rest).flatMap chars = cs ∧ ∀ before l' after,
          l :: ofChars rest = before ++ l' :: after → l'.Leads ((l' :: after).flatMap chars) := by
      have whole : (l :: ofChars rest).flatMap chars = cs := by rw [List.flatMap_cons, later.1, text]
      use whole
      intro before l' after split
      obtain ⟨rfl, same⟩ | ⟨before, rfl, same⟩ := List.cons_eq_append_iff.1 split
      · obtain ⟨rfl, rfl⟩ := List.cons.inj same
        rwa [whole]
      · apply later.2 _ _ _ same
    fun_induction ofChars cs with
    | case1 => simp
    | case2 c cs rule n best ih => apply step (leads_of_best? best) (by simp) ih
    | case3 c cs best ih => apply step (leads_of_best?_eq_none best) rfl ih
  · rintro ⟨rfl, leads⟩
    induction ls with
    | nil => rw [List.flatMap_nil, ofChars]
    | cons l ls ih =>
        have first := leads [] l ls rfl
        rw [List.flatMap_cons] at first ⊢
        rw [ofChars_of_leads first, ← ih]
        intro before l' after split
        apply leads (l :: before) l' after (by simp [split])

/-- Places count bytes. -/
theorem byteLength_eq_utf8ByteSize (cs : List Char) :
  byteLength cs = (String.ofList cs).utf8ByteSize
  := by
  induction cs with
  | nil => rfl
  | cons c cs ih =>
      rw [byteLength, String.ofList_cons, String.utf8ByteSize_append, String.utf8ByteSize_singleton, ih]

/-- The lengths of two rows of lexemes add up. -/
theorem utf8ByteSize_written_append (ls ls' : List (Located Lexeme)) :
  (written (ls ++ ls')).utf8ByteSize = (written ls).utf8ByteSize + (written ls').utf8ByteSize
  := by
  rw [written, List.flatMap_append, String.ofList_append, String.utf8ByteSize_append, written, written]

theorem utf8ByteSize_written_singleton (l : Located Lexeme) :
  (written [l]).utf8ByteSize = byteLength l.value.chars
  := by
  simp [written, byteLength_eq_utf8ByteSize]

/-- Lexemes are located from byte `start` on if the span of each is where the bytes before it end and the
bytes up to it do. -/
theorem eq_locate_iff {ls : List (Located Lexeme)} {start : Nat} :
  ls = locate start (ls.map Located.value)
    ↔ ∀ before l after, ls = before ++ l :: after →
      l.span = ⟨start + (written before).utf8ByteSize, start + (written (before ++ [l])).utf8ByteSize⟩
  := by
  induction ls generalizing start with
  | nil => simp [locate]
  | cons l ls ih =>
      obtain ⟨value, span⟩ := l
      have first (span : Span) :
          start + (written [⟨value, span⟩]).utf8ByteSize = start + byteLength value.chars := by
        rw [utf8ByteSize_written_singleton]
      have shift (span : Span) (before : List (Located Lexeme)) :
          start + (written (⟨value, span⟩ :: before)).utf8ByteSize
            = start + byteLength value.chars + (written before).utf8ByteSize := by
        rw [← List.singleton_append, utf8ByteSize_written_append, ← Nat.add_assoc, first]
      have cons : ⟨value, span⟩ :: ls = locate start ((⟨value, span⟩ :: ls).map Located.value)
          ↔ span = ⟨start, start + byteLength value.chars⟩
            ∧ ls = locate (start + byteLength value.chars) (ls.map Located.value) := by
        simp [locate]
      rw [cons, ih]
      constructor
      · rintro ⟨rfl, later⟩ before l' after split
        obtain ⟨rfl, same⟩ | ⟨before, rfl, same⟩ := List.cons_eq_append_iff.1 split
        · obtain ⟨rfl, rfl⟩ := List.cons.inj same
          rw [List.nil_append, first]
          rfl
        · rw [List.cons_append, shift, shift]
          apply later _ _ _ same
      · intro spans
        constructor
        · rw [← first span]
          apply spans [] _ ls rfl
        · intro before l' after split
          rw [← shift span, ← shift span]
          apply spans (_ :: before) l' after (by simp [split])

/-- Placing lexemes changes none. -/
theorem map_value_locate (start : Nat) (ls : List Lexeme) :
  (locate start ls).map Located.value = ls
  := by
  induction ls generalizing start with
  | nil => rfl
  | cons l ls ih => rw [locate, List.map_cons, ih]

theorem flatMap_map_value (ls : List (Located Lexeme)) :
  (ls.map Located.value).flatMap chars = (written ls).toList
  := by
  rw [written, String.toList_ofList, List.flatMap_map]

/-- The located lexemes of a text are the one cut of it by longest match. -/
theorem isCut_iff {text : String} {ls : List (Located Lexeme)} :
  IsCut text ls ↔ ls = locate 0 (ofChars text.toList)
  := by
  have leads_iff : (∀ before l after, ls = before ++ l :: after → l.value.Leads (written (l :: after)).toList)
      ↔ ∀ before l after, ls.map Located.value = before ++ l :: after →
        l.Leads ((l :: after).flatMap chars) := by
    constructor
    · intro leads before l after split
      obtain ⟨before, rest, rfl, rfl, same⟩ := List.map_eq_append_iff.1 split
      obtain ⟨l, after, rfl, rfl, rfl⟩ := List.map_eq_cons_iff.1 same
      rw [← List.map_cons, flatMap_map_value]
      apply leads before l after rfl
    · rintro leads before l after rfl
      rw [← flatMap_map_value, List.map_cons]
      apply leads (before.map Located.value) l.value (after.map Located.value) (by simp)
  constructor
  · intro cut
    have values : ls.map Located.value = ofChars text.toList := by
      rw [eq_ofChars_iff, flatMap_map_value, cut.whole]
      use rfl, leads_iff.1 cut.leads
    rw [← values, eq_locate_iff]
    intro before l after split
    simpa using cut.spans before l after split
  · intro located
    have values : ls.map Located.value = ofChars text.toList := by rw [located, map_value_locate]
    obtain ⟨whole, leads⟩ := eq_ofChars_iff.1 values
    have leads := leads_iff.2 leads
    rw [← values, eq_locate_iff] at located
    constructor
    · rw [← String.toList_inj, ← flatMap_map_value, whole]
    · intro l mem
      obtain ⟨before, after, split⟩ := List.append_of_mem mem
      apply (leads before l after split).chars_ne_nil
    · apply leads
    · intro before l after split
      simpa using located before l after split

end Lexeme

/-- What is read of lexemes is what is read of them with the bytes that they take. -/
theorem Scan.ofLexemes_eq_ofLocated (start : Nat) (ls : List Lexeme) :
  ofLexemes start ls = ofLocated (Lexeme.locate start ls)
  := by
  induction ls generalizing start with
  | nil => rfl
  | cons l ls ih =>
      rw [ofLexemes, Lexeme.locate]
      cases ruled : l.rule with
      | none => simp [ofLocated, ruled]
      | some rule =>
          cases token : l.token? <;> simp [ofLocated, ruled, token, ih]

/-- A text is cut into its lexemes by longest match, and in no other way: they make it up, each is the longest
prefix of what is left that a rule matches, by the first such rule, and takes its bytes of the text. What is
read are the tokens up to the first stray with their bytes. A stray is a single character at which no rule
matches. -/
theorem ofText_longest_match (text : String) :
  (∀ ls, Lexeme.IsCut text ls ↔ ls = Lexeme.locate 0 (Lexeme.ofChars text.toList))
    ∧ Scan.ofText text = .ofLocated (Lexeme.locate 0 (Lexeme.ofChars text.toList))
    ∧ ∀ before l after, Lexeme.ofChars text.toList = before ++ l :: after → l.rule = none →
      (∃ c, l.chars = [c])
        ∧ ∀ (rule : LexRule) (w : List Char), rule.regex.Matches w
          → ¬ w <+: (l :: after).flatMap Lexeme.chars
  := by
  and_intros
  · intro ls
    apply Lexeme.isCut_iff
  · apply Scan.ofLexemes_eq_ofLocated 0 _
  · intro before l after split stray
    apply ((Lexeme.eq_ofChars_iff.1 rfl).2 before l after split).of_stray stray

/-- A word, a mark and a number without blanks between them, and a character that begins no lexeme. -/
theorem stray_longest_match :
  Scan.ofText "ifx:=-1 é\"" = ⟨
      [⟨.ident "ifx", ⟨0, 3⟩⟩, ⟨.fixed .becomes, ⟨3, 5⟩⟩, ⟨.int "-1", ⟨5, 7⟩⟩],
      some ⟨"é", ⟨8, 10⟩⟩⟩
    ∧ ∀ (rule : LexRule) (w : List Char), rule.regex.Matches w → ¬ w <+: ['é', '"']
  := by
  have split : Lexeme.ofChars "ifx:=-1 é\"".toList
      = [⟨some .ident, ['i', 'f', 'x']⟩, ⟨some (.fixed .becomes), [':', '=']⟩, ⟨some .int, ['-', '1']⟩,
          ⟨some .blank, [' ']⟩] ++ ⟨none, ['é']⟩ :: [⟨none, ['"']⟩] := by
    decide +kernel
  obtain ⟨-, read, strays⟩ := ofText_longest_match "ifx:=-1 é\""
  use read.trans (by decide +kernel), (strays _ _ _ split rfl).2

end StackBackend
