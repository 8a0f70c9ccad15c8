/-!
# Regular expressions

Regular expressions over characters, the words they match, and the longest prefix of a text
that one matches. Matching goes by derivatives: the derivative of an expression by a character
matches the rests of its words that begin with that character.
-/

namespace StackBackend

/-- A regular expression; `one p` matches a single character of the class `p`. -/
inductive Regex where
  | never
  | empty
  | one (p : Char → Bool)
  | seq (a b : Regex)
  | alt (a b : Regex)
  | star (a : Regex)

namespace Regex

/-- The words that an expression matches. -/
inductive Matches : Regex → List Char → Prop where
  | empty : Matches empty []
  | one {p : Char → Bool} {c : Char} (h : p c = true) : Matches (one p) [c]
  | seq {a b : Regex} {u v : List Char} (ha : Matches a u) (hb : Matches b v) :
      Matches (seq a b) (u ++ v)
  | altLeft {a b : Regex} {u : List Char} (h : Matches a u) : Matches (alt a b) u
  | altRight {a b : Regex} {u : List Char} (h : Matches b u) : Matches (alt a b) u
  | starNil {a : Regex} : Matches (star a) []
  | starCons {a : Regex} {u v : List Char} (ha : Matches a u) (hs : Matches (star a) v) :
      Matches (star a) (u ++ v)

/-- The expression for exactly one character. -/
def char (c : Char) : Regex := one (· = c)

/-- The expression for exactly one word. -/
def word : List Char → Regex
  | [] => empty
  | c :: cs => seq (char c) (word cs)

/-- One or more words in a row. -/
def plus (a : Regex) : Regex := seq a (star a)

/-- A word or nothing. -/
def opt (a : Regex) : Regex := alt empty a

/-- Whether an expression matches the empty word. -/
def nullable : Regex → Bool
  | never | one _ => false
  | empty | star _ => true
  | seq a b => a.nullable && b.nullable
  | alt a b => a.nullable || b.nullable

/-- Whether an expression is the one that matches nothing. -/
def isNever : Regex → Bool
  | never => true
  | _ => false

/-- A sequence, simplified at its first part. -/
def andThen : Regex → Regex → Regex
  | never, _ => never
  | empty, b => b
  | a, b => seq a b

/-- A choice, simplified when one side matches nothing. -/
def orElse : Regex → Regex → Regex
  | never, b => b
  | a, never => a
  | a, b => alt a b

/-- The expression for the rests of words that begin with `c`. -/
def deriv (c : Char) : Regex → Regex
  | never | empty => never
  | one p => if p c then empty else never
  | seq a b =>
      if a.nullable then ((a.deriv c).andThen b).orElse (b.deriv c) else (a.deriv c).andThen b
  | alt a b => (a.deriv c).orElse (b.deriv c)
  | star a => (a.deriv c).andThen (star a)

/-- The length of the longest prefix of a text that an expression matches. -/
def longest? (r : Regex) (cs : List Char) : Option Nat :=
  if r.isNever then none
  else
    let here := if r.nullable then some 0 else none
    match cs with
    | [] => here
    | c :: cs => ((r.deriv c).longest? cs).map (· + 1) <|> here

end Regex

end StackBackend
