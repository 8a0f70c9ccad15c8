import StackBackend.Source.Regex
import StackBackend.Source.Token

/-!
# Lexemes

A text is cut into lexemes from the left: each is the longest prefix of the rest that a lexical
rule matches, and among rules that match equally much the first one counts. A character that no
rule matches is a lexeme of its own, a stray. Blanks and comments are skipped, and what comes
after the first stray is not looked at.
-/

namespace StackBackend

/-- A lexical rule. -/
inductive LexRule where
  | blank
  | comment
  | fixed (f : Fixed)
  | int
  | str
  | ident
deriving DecidableEq, Repr, Inhabited

namespace LexRule

/-- The rules in order of preference: a word of the language comes before an identifier. -/
def all : List LexRule :=
  blank :: comment :: Fixed.all.map fixed ++ [int, str, ident]

/-- A character that may begin an identifier. -/
def isIdentStart (c : Char) : Bool := c.isAlpha || c = '_' || c = '$'

/-- A character that may continue an identifier. -/
def isIdentRest (c : Char) : Bool := isIdentStart c || c.isDigit

/-- What a rule matches. -/
def regex : LexRule → Regex
  | blank => .one (· ∈ ['\t', '\n', '\r', ' '])
  | comment => .seq (.word ['/', '/']) (.star (.one (· ≠ '\n')))
  | fixed f => .word f.text.toList
  | int => .seq (.opt (.char '-')) (.plus (.one Char.isDigit))
  | str => .seq (.char '"') (.seq (.star (.one fun c => c ≠ '"' && c ≠ '\n')) (.char '"'))
  | ident => .seq (.one isIdentStart) (.star (.one isIdentRest))

/-- The rules in order of preference with what they match. -/
def table : List (LexRule × Regex) := all.map fun rule => (rule, rule.regex)

end LexRule

/-- A piece of text with the rule that matched it; a stray has none. -/
structure Lexeme where
  rule : Option LexRule
  chars : List Char
deriving DecidableEq, Repr

namespace Lexeme

/-- Of two matches the longer one, the first of two equally long ones; the number counts the
characters after the first. -/
def better (best : Option (LexRule × Nat)) (next : LexRule × Nat) : Option (LexRule × Nat) :=
  match best with
  | none => some next
  | some b => if b.2 < next.2 then some next else some b

/-- The best match at the front of the text `c :: cs`. -/
def best? (c : Char) (cs : List Char) : Option (LexRule × Nat) :=
  (LexRule.table.filterMap fun e =>
    ((e.2.deriv c).longest? cs).map fun n => (e.1, n)).foldl better none

/-- The lexemes of a text. -/
def ofChars : List Char → List Lexeme
  | [] => []
  | c :: cs =>
      match best? c cs with
      | some (rule, n) => ⟨some rule, c :: cs.take n⟩ :: ofChars (cs.drop n)
      | none => ⟨none, [c]⟩ :: ofChars cs
termination_by cs => cs.length
decreasing_by
  · simp only [List.length_drop, List.length_cons]
    omega
  · simp

/-- The token that a lexeme writes; blanks, comments and strays write none. -/
def token? (l : Lexeme) : Option Token :=
  match l.rule with
  | some (.fixed f) => some (.fixed f)
  | some .int => some (.int (String.ofList l.chars))
  | some .str => some (.str (String.ofList (l.chars.drop 1).dropLast))
  | some .ident => some (.ident (String.ofList l.chars))
  | some .blank | some .comment | none => none

end Lexeme

/-- What is read of a text: the tokens before the first stray, and the stray. -/
structure Scan where
  tokens : List (Located Token)
  stray : Option (Located String)
deriving DecidableEq, Repr

namespace Scan

/-- The scan of lexemes that begin at byte `start`. -/
def ofLexemes (start : Nat) : List Lexeme → Scan
  | [] => ⟨[], none⟩
  | l :: ls =>
      let stop := start + byteLength l.chars
      if l.rule.isNone then ⟨[], some ⟨String.ofList l.chars, ⟨start, stop⟩⟩⟩
      else
        let rest := ofLexemes stop ls
        match l.token? with
        | some t => ⟨⟨t, ⟨start, stop⟩⟩ :: rest.tokens, rest.stray⟩
        | none => rest

/-- The scan of a text. -/
def ofText (text : String) : Scan := ofLexemes 0 (Lexeme.ofChars text.toList)

end Scan

end StackBackend
