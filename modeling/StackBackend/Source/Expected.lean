import StackBackend.Source.Error
import StackBackend.Source.Lexer
import StackBackend.Source.Reader

/-!
# Reading a class

The grammar applied to the tokens of a text, and the tokens named when it gets stuck. A list of
tokens is viable when the reader gets to its end without being stuck before; the terminals
expected at a place are those that extend the tokens passed to a viable list. After the name
that ends a type a coarser rule comes first: a token that follows no type at all, no operand or
no field access is met with the first terminal of that group.
-/

namespace StackBackend

/-- Tokens without places. -/
def Cursor.ofTokens (ts : List Token) : Cursor := ⟨ts.map fun t => ⟨t, ⟨0, 0⟩⟩, 0, none⟩

/-- Whether the reader gets to the end of the tokens: they begin the text of a class. -/
def viable (ts : List Token) : Bool :=
  match Reader.unit (.ofTokens ts) with
  | .ok (_, c) => c.rest.isEmpty
  | .error c => c.rest.isEmpty

/-- The terminals that may follow the tokens `passed`. -/
def follow (passed : List Token) : List Terminal :=
  Terminal.all.filter fun t => viable (passed ++ [t.sample])

/-- The terminals that may follow an operand somewhere. -/
def afterOperand : List Terminal :=
  [.fixed .notEqual, .fixed .andAnd, .fixed .rparen, .fixed .star, .fixed .plus, .fixed .comma,
    .fixed .minus, .fixed .slash, .fixed .becomes, .fixed .semicolon, .fixed .less,
    .fixed .lessEqual, .fixed .equalEqual, .fixed .greater, .fixed .greaterEqual,
    .fixed .rbracket, .fixed .orOr]

/-- The terminals that may follow a type somewhere. -/
def afterType : List Terminal :=
  .fixed .bang :: afterOperand ++
    [.fixed .wArrayLength, .fixed .wGetField, .ident, .int, .fixed .wInvokeSpecial,
      .fixed .wInvokeStatic, .fixed .wInvokeVirtual, .fixed .wNew, .fixed .lbrace]

/-- The terminals that may follow the field of a field access. -/
def afterFieldAccess : List Terminal := [.fixed .rparen, .fixed .comma]

/-- The terminals named where `token` cannot follow the tokens `passed`. -/
def expectedTerminals (passed : List Token) (ended : Option TypeRole) (token : Token) :
    List Terminal :=
  match ended with
  | none => follow passed
  | some role =>
      if token.terminal ∉ afterType then afterType
      else if role = .operand ∧ token.terminal ∉ afterOperand then afterOperand
      else if role = .fieldAccess ∧ token.terminal ∉ afterFieldAccess then afterFieldAccess
      else follow passed

/-- A terminal's name in quotes. -/
def Terminal.quoted (t : Terminal) : String := "\"" ++ t.name ++ "\""

/-- The failure at the cursor `c` where the reader of `scan` is stuck, or has ended before the
text has. -/
def Scan.failureAt (scan : Scan) (c : Cursor) : GrammarFailure :=
  match c.rest with
  | t :: rest =>
      let passed := scan.tokens.take (scan.tokens.length - (rest.length + 1))
      .unexpected t ((expectedTerminals (passed.map Located.value) c.ended t.value).map
        Terminal.quoted)
  | [] =>
      match scan.stray with
      | some text => .stray text
      | none => .endOfTokens c.offset

/-- The class that a scanned text declares. -/
def Scan.read (scan : Scan) : Except GrammarFailure UnitDecl :=
  match Reader.unit ⟨scan.tokens, 0, none⟩ with
  | .error c => .error (scan.failureAt c)
  | .ok (decl, c) =>
      if c.rest.isEmpty && scan.stray.isNone then .ok decl else .error (scan.failureAt c)

end StackBackend
