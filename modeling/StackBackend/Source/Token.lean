/-!
# Tokens

A token is a fixed word or mark of the language, an identifier, an integer or a quoted string.
A terminal is a token with its text forgotten; the terminals are ordered by name. The place of a
token is a span: a range of byte offsets of the text in UTF-8, the first byte included and the last
one not.
-/

namespace StackBackend

/-! ### Places -/

/-- A range of byte offsets. -/
structure Span where
  start : Nat
  stop : Nat
deriving DecidableEq, Repr, Inhabited

/-- A value with the place in the text that it was read from. -/
structure Located (α : Type) where
  value : α
  span : Span
deriving DecidableEq, Repr, Inhabited

/-- The number of bytes that characters take in UTF-8. -/
def byteLength : List Char → Nat
  | [] => 0
  | c :: cs => c.utf8Size + byteLength cs

/-! ### Words and marks -/

/-- A word or mark of the language. -/
inductive Fixed where
  | dot | comma | semicolon | colon | becomes
  | lparen | rparen | lbrace | rbrace | lbracket | rbracket
  | plus | minus | star | slash | less | greater | lessEqual | greaterEqual
  | equalEqual | notEqual | andAnd | orOr | bang
  | wImport | wExtends | wField | wMethod | wConstruct
  | wPublic | wPrivate | wProtected | wStatic | wFinal
  | wGoto | wIf | wRet | wNew | wArray | wGetField | wPutField | wArrayLength
  | wInvokeStatic | wInvokeVirtual | wInvokeSpecial
deriving DecidableEq, Repr, Inhabited

namespace Fixed

/-- The words and marks. -/
def all : List Fixed :=
  [dot, comma, semicolon, colon, becomes, lparen, rparen, lbrace, rbrace, lbracket, rbracket,
    plus, minus, star, slash, less, greater, lessEqual, greaterEqual, equalEqual, notEqual,
    andAnd, orOr, bang,
    wImport, wExtends, wField, wMethod, wConstruct, wPublic, wPrivate, wProtected, wStatic,
    wFinal, wGoto, wIf, wRet, wNew, wArray, wGetField, wPutField, wArrayLength,
    wInvokeStatic, wInvokeVirtual, wInvokeSpecial]

/-- The text of a word or mark. -/
def text : Fixed → String
  | dot => "."
  | comma => ","
  | semicolon => ";"
  | colon => ":"
  | becomes => ":="
  | lparen => "("
  | rparen => ")"
  | lbrace => "\x7b"
  | rbrace => "\x7d"
  | lbracket => "["
  | rbracket => "]"
  | plus => "+"
  | minus => "-"
  | star => "*"
  | slash => "/"
  | less => "<"
  | greater => ">"
  | lessEqual => "<="
  | greaterEqual => ">="
  | equalEqual => "=="
  | notEqual => "!="
  | andAnd => "&&"
  | orOr => "||"
  | bang => "!"
  | wImport => "import"
  | wExtends => "extends"
  | wField => "field"
  | wMethod => "method"
  | wConstruct => "construct"
  | wPublic => "public"
  | wPrivate => "private"
  | wProtected => "protected"
  | wStatic => "static"
  | wFinal => "final"
  | wGoto => "goto"
  | wIf => "if"
  | wRet => "ret"
  | wNew => "new"
  | wArray => "array"
  | wGetField => "getfield"
  | wPutField => "putfield"
  | wArrayLength => "arraylength"
  | wInvokeStatic => "invokestatic"
  | wInvokeVirtual => "invokevirtual"
  | wInvokeSpecial => "invokespecial"

end Fixed

/-- A token. A quoted string is held without its quotes. -/
inductive Token where
  | fixed (f : Fixed)
  | ident (name : String)
  | int (digits : String)
  | str (content : String)
deriving DecidableEq, Repr, Inhabited

/-- The text of a token. -/
def Token.text : Token → String
  | fixed f => f.text
  | ident name => name
  | int digits => digits
  | str content => "\"" ++ content ++ "\""

/-- A kind of token. -/
inductive Terminal where
  | fixed (f : Fixed)
  | ident
  | int
  | str
deriving DecidableEq, Repr, Inhabited

/-- The kind of a token. -/
def Token.terminal : Token → Terminal
  | fixed f => .fixed f
  | ident _ => .ident
  | int _ => .int
  | str _ => .str

namespace Terminal

/-- The name of a terminal. -/
def name : Terminal → String
  | fixed f => f.text
  | ident => "ident"
  | int => "int"
  | str => "str"

/-- A token of the kind. -/
def sample : Terminal → Token
  | fixed f => .fixed f
  | ident => .ident "x"
  | int => .int "0"
  | str => .str ""

/-- The terminals in the order of their names. -/
def all : List Terminal :=
  [fixed .bang, fixed .notEqual, fixed .andAnd, fixed .lparen, fixed .rparen, fixed .star,
    fixed .plus, fixed .comma, fixed .minus, fixed .dot, fixed .slash, fixed .colon,
    fixed .becomes, fixed .semicolon, fixed .less, fixed .lessEqual, fixed .equalEqual,
    fixed .greater, fixed .greaterEqual, fixed .lbracket, fixed .rbracket, fixed .wArray,
    fixed .wArrayLength, fixed .wConstruct, fixed .wExtends, fixed .wField, fixed .wFinal,
    fixed .wGetField, fixed .wGoto, ident, fixed .wIf, fixed .wImport, int,
    fixed .wInvokeSpecial, fixed .wInvokeStatic, fixed .wInvokeVirtual, fixed .wMethod,
    fixed .wNew, fixed .wPrivate, fixed .wProtected, fixed .wPublic, fixed .wPutField,
    fixed .wRet, fixed .wStatic, str, fixed .lbrace, fixed .orOr, fixed .rbrace]

end Terminal

end StackBackend
