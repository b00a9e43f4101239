import SyntaxRecovery.TokenCode

/-!
# Vocabularies

Names of token codes for messages. A fixed token can have its quoted spelling, and every token the
name that the grammar gives it; entry `i` of each table belongs to code `i`.
-/

set_option autoImplicit false

namespace SyntaxRecovery

/-- Names of token codes. -/
structure Vocabulary where
  /-- Quoted spellings of fixed tokens. -/
  spellings : Array (Option String) := #[]
  /-- Names given by the grammar. -/
  names : Array (Option String) := #[]

namespace Vocabulary

/-- The vocabulary that gives the codes from one upwards these names. -/
def ofNames (names : List String) : Vocabulary :=
  { names := (none :: names.map some).toArray }

/-- Entry of a table for a code; negative codes have none. -/
def entry? (table : Array (Option String)) (c : TokenCode) : Option String :=
  if c < 0 then none else (table[c.toInt.toNat]?).join

/-- The quoted spelling of a code. -/
def spelling? (v : Vocabulary) (c : TokenCode) : Option String := entry? v.spellings c

/-- The grammar's name of a code; the end of the input is called `EOF` in every vocabulary. -/
def name? (v : Vocabulary) (c : TokenCode) : Option String :=
  if c = .endOfInput then some "EOF" else entry? v.names c

/-- How a code is shown: by its spelling, else by its name, else in decimal. -/
def describe (v : Vocabulary) (c : TokenCode) : String :=
  match (v.spelling? c).or (v.name? c) with
  | some text => text
  | none => c.decimal

/-- The greatest code with an entry, or minus one if there is none. -/
def greatest (v : Vocabulary) : TokenCode :=
  let size := max v.spellings.size v.names.size
  -- a table longer than there are codes is cut to the greatest code before one is taken off
  if size ≤ 2147483647 then Int32.ofInt (size - 1) else 2147483646

end Vocabulary

end SyntaxRecovery
