import TemplateFrontend.Kinds
import TemplateFrontend.Source.Position
/-!
# Syntax errors

Why a source does not parse. A `SyntaxError` is a cause with the range it points at; `message`,
`code` and `help` put it into words. `Violation` lists the rules of the language that a source can
break although every word of it was read.
-/

namespace TemplateFrontend

/-- A rule that commands, declarations or literals break. -/
inductive Violation where
  | secondNamespace
  | duplicateAlias (name : String)
  | relativeDelegate
  | relativeWithoutNamespace
  | unknownVisibility (word : String)
  | unknownContentKind (word : String)
  | strictHtmlValue
  | unknownAttribute (owner : Option String) (name : String)
  | unterminatedAttribute
  | stateWithoutDefault (name : String)
  | missingType (name : String) (command : String)
  | emptyType (name : String)
  | duplicateParameter (name : String)
  | letWithValueOpen
  | letWithoutContent
  | paramWithValueOpen
  | paramWithoutContent
  | dataNotAll
  | duplicateParam (name : String)
  | messageWithoutDescription
  | commandBetweenAttributes
  | missingVariableName
  | integerOutOfRange (digits : String)
  | unterminatedString
  deriving DecidableEq, Repr

namespace Violation

/-- The rule in words. -/
def message : Violation → String
  | .secondNamespace => "a file may declare only one namespace"
  | .duplicateAlias a => "duplicate alias '" ++ a ++ "'"
  | .relativeDelegate => "delegate templates need a fully qualified name"
  | .relativeWithoutNamespace =>
    "a relative template name requires a \x7bnamespace\x7d declaration"
  | .unknownVisibility w => "unknown visibility '" ++ w ++ "' (expected public or private)"
  | .unknownContentKind w =>
    "unknown content kind '" ++ w ++ "' (expected html, attributes, text, uri, css or js)"
  | .strictHtmlValue => "stricthtml must be \"true\" or \"false\""
  | .unknownAttribute none n => "unknown attribute '" ++ n ++ "'"
  | .unknownAttribute (some owner) n => "unknown " ++ owner ++ " attribute '" ++ n ++ "'"
  | .unterminatedAttribute => "unterminated attribute value"
  | .stateWithoutDefault n => "state '" ++ n ++ "' needs a default value"
  | .missingType n c => "'" ++ n ++ "' needs a type, e.g. \x7b" ++ c ++ " " ++ n ++ ": string\x7d"
  | .emptyType n => "'" ++ n ++ "' needs a type"
  | .duplicateParameter n => "duplicate parameter '" ++ n ++ "'"
  | .letWithValueOpen => "a let with a value must be self-closing: \x7blet $x: ... /\x7d"
  | .letWithoutContent => "a let block needs content: \x7blet $x\x7d...\x7b/let\x7d"
  | .paramWithValueOpen => "a param with a value must be self-closing: \x7bparam k: ... /\x7d"
  | .paramWithoutContent => "a param block needs content: \x7bparam k\x7d...\x7b/param\x7d"
  | .dataNotAll => "only data=\"all\" is supported"
  | .duplicateParam n => "duplicate param '" ++ n ++ "'"
  | .messageWithoutDescription => "msg requires a desc attribute"
  | .commandBetweenAttributes => "commands are not supported between attributes"
  | .missingVariableName => "expected a variable name after '$'"
  | .integerOutOfRange ds => "integer '" ++ ds ++ "' is out of range"
  | .unterminatedString => "unterminated string literal"

end Violation

/-- Why a source does not parse. -/
inductive SyntaxError.Cause where
  | unexpected (found expected : String)
  | endOfFile (expected : String)
  | unclosed (command : String)
  | unknownCommand (command : String)
  | misplaced (command place : String)
  | invalid (rule : Violation)
  deriving DecidableEq, Repr

/-- A cause with the range of bytes it points at. -/
structure SyntaxError where
  cause : SyntaxError.Cause
  span : Span
  deriving DecidableEq, Repr

namespace SyntaxError

/-- The error in words. -/
def message (e : SyntaxError) : String :=
  match e.cause with
  | .unexpected found expected => "expected " ++ expected ++ ", found " ++ found
  | .endOfFile expected => "unexpected end of file, expected " ++ expected
  | .unclosed command => "'" ++ command ++ "' is never closed"
  | .unknownCommand command => "unknown command '" ++ command ++ "'"
  | .misplaced command place => "'" ++ command ++ "' is not allowed " ++ place
  | .invalid rule => rule.message

/-- The identifier of the kind of error in reports. -/
def code (e : SyntaxError) : String :=
  match e.cause with
  | .unexpected .. => "stencil::syntax::unexpected"
  | .endOfFile .. => "stencil::syntax::eof"
  | .unclosed .. => "stencil::syntax::unclosed"
  | .unknownCommand .. => "stencil::syntax::unknown_command"
  | .misplaced .. => "stencil::syntax::misplaced"
  | .invalid .. => "stencil::syntax::invalid"

/-- What to do about the error, where there is one thing to do. -/
def help (e : SyntaxError) : Option String :=
  match e.cause with
  | .unclosed command => some ("add a matching '\x7b/" ++ command ++ "\x7d'")
  | _ => none

end SyntaxError

end TemplateFrontend
