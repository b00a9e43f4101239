import Mathlib

/-!
# Words

Arithmetic on words of 64 bits. Numbers have no bound here, so a sum or a difference on words is the
one on numbers together with the question whether there is room for it. A computation that gives a
result has overflowed nowhere, and it has the result of the same computation on numbers.
-/

set_option autoImplicit false

namespace SyntaxRecovery

namespace Word

variable {a b : Nat} {n : Int}

/-- The numbers below fit into a word. -/
def limit : Nat := 2 ^ 64

/-- The sum, if it fits into a word. -/
def add? (a b : Nat) : Option Nat := if a + b < limit then some (a + b) else none

/-- The difference, if it is not below zero. -/
def sub? (a b : Nat) : Option Nat := if b ≤ a then some (a - b) else none

/-- An integer, if it fits into a signed word. -/
def signed? (n : Int) : Option Int := if -2 ^ 63 ≤ n ∧ n < 2 ^ 63 then some n else none

theorem add?_of_lt (h : a + b < limit) : add? a b = some (a + b) := if_pos h

theorem sub?_of_le (h : b ≤ a) : sub? a b = some (a - b) := if_pos h

theorem sub?_of_lt (h : a < b) : sub? a b = none := if_neg (Nat.not_le.2 h)

theorem signed?_of_bounds (hlo : -2 ^ 63 ≤ n) (hhi : n < 2 ^ 63) : signed? n = some n :=
  if_pos ⟨hlo, hhi⟩

end Word

end SyntaxRecovery
