import StackBackend.Source.Cursor

/-!
# Errors in a text

The causes for which a text is refused, with their messages and places.
-/

namespace StackBackend

/-- Why a text is refused. -/
inductive SourceCause where
  | endOfText
  | stray (text : String)
  | extraToken (token : Token)
  | unexpectedToken (token : Token) (expected : String)
  | literalTarget (target : String)
  | repeatedLabel (label : String)
  | undefinedLabel (label method : String)
deriving DecidableEq, Repr, Inhabited

/-- The message of a cause. -/
def SourceCause.message : SourceCause → String
  | endOfText => "parse error: unexpected end of file"
  | stray text => "lexer error: unrecognized token `" ++ text ++ "`"
  | extraToken token => "parse error: found extra token `" ++ token.text ++ "`"
  | unexpectedToken token expected =>
      "parse error: unrecognized token `" ++ token.text ++ "`, expected `" ++ expected ++ "`"
  | literalTarget target => "parse error: `" ++ target ++ "` cannot be assigned to"
  | repeatedLabel label => "parse error: label `" ++ label ++ "` is defined twice"
  | undefinedLabel label method =>
      "parse error: label `" ++ label ++ "` is not defined in method `" ++ method ++ "`"

/-- A cause and its place in the text. -/
abbrev SourceError := Located SourceCause

/-- How reading tokens by the grammar fails. -/
inductive GrammarFailure where
  /-- The tokens end, at that offset, where more are needed. -/
  | endOfTokens (offset : Nat)
  /-- A token that cannot stand where it stands, with the names of tokens that can. -/
  | unexpected (token : Located Token) (expected : List String)
  /-- A token after the end of a complete text. -/
  | extra (token : Located Token)
  /-- A character that begins no token. -/
  | stray (text : Located String)
deriving DecidableEq, Repr, Inhabited

/-- The error of a failure: of the tokens that could stand in a place the first is named. -/
def GrammarFailure.toError : GrammarFailure → SourceError
  | endOfTokens offset => ⟨.endOfText, ⟨offset, offset⟩⟩
  | unexpected token expected =>
      ⟨.unexpectedToken token.value (expected.head?.getD ""), token.span⟩
  | extra token => ⟨.extraToken token.value, token.span⟩
  | stray text => ⟨.stray text.value, text.span⟩

end StackBackend
