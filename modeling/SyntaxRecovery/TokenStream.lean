import SyntaxRecovery.Token

/-!
# Token streams

A parser reads tokens through a `Cursor`: it looks at the token some places ahead or behind and moves
past the current one. `TokenStream` ends in an end-of-input token that is read again and again;
`OpenStream` has no such token and runs out. Offset one is the current token, two the one after it,
minus one the token just passed; offset zero is no token.
-/

set_option autoImplicit false

namespace SyntaxRecovery

/-- Reading positions in a sequence of tokens. -/
class Cursor (κ : Type) where
  /-- The token at an offset from the reading position. -/
  token? : κ → Int → Option Token
  /-- Moves past the current token. -/
  advance : κ → κ
  /-- Number of the current token. -/
  position : κ → Nat
  /-- Number of moves after which no token lies ahead that has not been seen. -/
  remaining : κ → Nat

namespace Cursor

variable {κ : Type} [Cursor κ]

/-- The code at an offset, `TokenCode.absent` where there is no token. -/
def code (input : κ) (offset : Int) : TokenCode :=
  match token? input offset with
  | some t => t.code
  | none => .absent

/-- The token not yet passed. -/
def current? (input : κ) : Option Token := token? input 1

/-- Moves past `n` tokens. -/
def skip (input : κ) : Nat → κ
  | 0 => input
  | n + 1 => skip (advance input) n

end Cursor

/-- Tokens that end in an end of input, and a reading position among them. -/
structure TokenStream where
  /-- All tokens. -/
  tokens : Array Token
  /-- Number of the current token. -/
  position : Nat
  /-- There is a current token. -/
  position_lt : position < tokens.size
deriving DecidableEq

namespace TokenStream

/-- The tokens with an end of input at their end: the last token if it is one, else a new one just
past the last token. -/
def padded (tokens : Array Token) : Array Token :=
  match tokens.back? with
  | some last => if last.isEnding then tokens else tokens.push (.ending last.line last.endColumn)
  | none => #[.ending 1 0]

theorem padded_size_pos (tokens : Array Token) : 0 < (padded tokens).size := by
  unfold padded
  split
  · next last h =>
    split
    · have := Array.back?_eq_some_iff.1 h
      obtain ⟨xs, rfl⟩ := this
      simp
    · simp
  · simp

/-- A stream at its first token. -/
def ofTokens (tokens : Array Token) : TokenStream :=
  { tokens := padded tokens, position := 0, position_lt := padded_size_pos tokens }

/-- A stream of tokens without text, one on each line. -/
def ofCodes (codes : List TokenCode) : TokenStream :=
  ofTokens ((codes.zipIdx 1).map fun (code, line) => { code, line }).toArray

/-- Number of the last token, the end of the input. -/
def lastPosition (s : TokenStream) : Nat := s.tokens.size - 1

/-- The token at an offset. Ahead of the last token the last one is read. -/
def token? (s : TokenStream) : Int → Option Token
  | .ofNat 0 => none
  | .ofNat (n + 1) => s.tokens[min (s.position + n) s.lastPosition]?
  | .negSucc n => if n < s.position then s.tokens[s.position - (n + 1)]? else none

/-- Moves past the current token unless it is the last. -/
def advance (s : TokenStream) : TokenStream :=
  if h : s.position + 1 < s.tokens.size then { s with position := s.position + 1, position_lt := h }
  else s

/-- Tokens from the current one to the end. -/
def rest (s : TokenStream) : List Token := s.tokens.toList.drop s.position

/-- The stream at its first token. -/
def rewind (s : TokenStream) : TokenStream :=
  { s with position := 0, position_lt := Nat.zero_lt_of_lt s.position_lt }

instance : Cursor TokenStream where
  token? := token?
  advance := advance
  position := position
  remaining s := s.lastPosition - s.position

end TokenStream

/-- Tokens without an end of input, and a reading position that may lie past them. -/
structure OpenStream where
  /-- All tokens. -/
  tokens : Array Token
  /-- Number of the current token. -/
  position : Nat := 0
deriving DecidableEq

namespace OpenStream

/-- The token at an offset; nothing lies before the first token or past the last. -/
def token? (s : OpenStream) : Int → Option Token
  | .ofNat 0 => none
  | .ofNat (n + 1) => s.tokens[s.position + n]?
  | .negSucc n => if n < s.position then s.tokens[s.position - (n + 1)]? else none

/-- Moves on by one place, past the last token too. -/
def advance (s : OpenStream) : OpenStream := { s with position := s.position + 1 }

instance : Cursor OpenStream where
  token? := token?
  advance := advance
  position := position
  remaining s := s.tokens.size - s.position

end OpenStream

end SyntaxRecovery
