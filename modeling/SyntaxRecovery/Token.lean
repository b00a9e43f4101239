import SyntaxRecovery.TokenCode

/-!
# Tokens

A token is a code with the place and, if the lexer kept it, the text it was read from. `Token.quoted`
is the one-line form in which messages show a token.
-/

set_option autoImplicit false

namespace SyntaxRecovery

/-- The greatest line, column and text length that are told apart. -/
def positionLimit : Nat := 4294967295

/-- A lexed token, or one made up in its place. -/
structure Token where
  /-- Lexical category. -/
  code : TokenCode
  /-- The text read, if the lexer kept it. -/
  text : Option String := none
  /-- Line, counted from one. -/
  line : Nat := 1
  /-- Column, counted from zero. -/
  column : Nat := 0
  /-- Channel; parsers see channel zero. -/
  channel : Nat := 0
  /-- Name of the place the token comes from, usually a file. -/
  source : Option String := none
deriving DecidableEq, Repr, Inhabited

namespace Token

/-- The end of the input at a position. -/
def ending (line column : Nat) : Token :=
  { code := .endOfInput, line, column }

/-- Whether the token is the end of the input. -/
def isEnding (t : Token) : Bool := t.code = .endOfInput

/-- Number of characters of the text, zero if there is none, `positionLimit` if there are more. -/
def width (t : Token) : Nat :=
  match t.text with
  | some text => min text.length positionLimit
  | none => 0

/-- The column just past the token. -/
def endColumn (t : Token) : Nat := min (t.column + t.width) positionLimit

/-- The token's text, or its code in angle brackets. -/
def spelling (t : Token) : String :=
  match t.text with
  | some text => text
  | none => if t.isEnding then "<EOF>" else "<" ++ t.code.decimal ++ ">"

end Token

/-- One character of a quoted text: line breaks and tabs are written as escapes. -/
def escapeBlank : Char → List Char
  | '\n' => ['\\', 'n']
  | '\r' => ['\\', 'r']
  | '\t' => ['\\', 't']
  | c => [c]

/-- The text on one line between single quotes. -/
def quoteLine (text : String) : String :=
  String.ofList ('\'' :: text.toList.flatMap escapeBlank ++ ['\''])

/-- A token as messages show it. -/
def Token.quoted : Option Token → String
  | some t => quoteLine t.spelling
  | none => "<no token>"

/-- Line and column of a token, zero and zero where there is none. -/
def Token.position : Option Token → Nat × Nat
  | some t => (t.line, t.column)
  | none => (0, 0)

end SyntaxRecovery
