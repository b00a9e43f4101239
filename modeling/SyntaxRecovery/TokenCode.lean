/-!
# Token codes

A token's lexical category is a signed 32-bit code. Three codes are reserved: the end of the input,
the marker that a rule can end, and the code of a token that is not there. The codes a grammar gives
out start at `firstNamed`.
-/

set_option autoImplicit false

namespace SyntaxRecovery

/-- Code of a token's lexical category. -/
abbrev TokenCode := Int32

namespace TokenCode

/-- The end of the input. -/
def endOfInput : TokenCode := -1

/-- Marker in a set of codes: the end of the rule can be reached, and nothing says what follows it. -/
def ruleEnd : TokenCode := -2

/-- The code read where there is no token. -/
def absent : TokenCode := 0

/-- The least code that a grammar gives to a token. -/
def firstNamed : TokenCode := 1

/-- The code after `c`; the greatest code is its own successor. -/
def next (c : TokenCode) : TokenCode :=
  if c = Int32.maxValue then c else c + 1

/-- Decimal text of a code. -/
def decimal (c : TokenCode) : String := toString c.toInt

/-- Text of a code outside a vocabulary: the two reserved codes below zero by name, the rest in
decimal. -/
def label (c : TokenCode) : String :=
  if c = endOfInput then "<EOF>"
  else if c = ruleEnd then "<EPSILON>"
  else decimal c

/-! ## Order and arithmetic through `Int` -/

theorem le_iff {a b : TokenCode} : a ≤ b ↔ a.toInt ≤ b.toInt := Int32.le_iff_toInt_le

theorem lt_iff {a b : TokenCode} : a < b ↔ a.toInt < b.toInt := Int32.lt_iff_toInt_lt

theorem toInt_bounds (c : TokenCode) : -2147483648 ≤ c.toInt ∧ c.toInt ≤ 2147483647 :=
  ⟨Int32.le_toInt c, Int32.toInt_le c⟩

theorem toInt_add_one {c : TokenCode} (h : c.toInt < 2147483647) : (c + 1).toInt = c.toInt + 1 := by
  have hb := toInt_bounds c
  have h1 : (1 : Int32).toInt = 1 := by decide
  rw [Int32.toInt_add, h1, Int.bmod_def]
  omega

theorem toInt_sub_one {c : TokenCode} (h : -2147483648 < c.toInt) : (c - 1).toInt = c.toInt - 1 := by
  have hb := toInt_bounds c
  have h1 : (1 : Int32).toInt = 1 := by decide
  rw [Int32.toInt_sub, h1, Int.bmod_def]
  omega

theorem toInt_next (c : TokenCode) : c.next.toInt = min (c.toInt + 1) 2147483647 := by
  have hb := toInt_bounds c
  unfold next
  split
  · next h => subst h; decide
  · next h =>
    have hne : c.toInt ≠ 2147483647 := fun he => h (Int32.toInt_inj.1 (he.trans (by decide)))
    rw [toInt_add_one (by omega)]
    omega

/-- Past the greatest code nothing begins, so the saturated successor compares as the true one. -/
theorem next_lt_iff {a b : TokenCode} : a.next < b ↔ a.toInt + 1 < b.toInt := by
  have := toInt_bounds b
  rw [lt_iff, toInt_next]
  omega

theorem toInt_min (a b : TokenCode) : (min a b).toInt = min a.toInt b.toInt := by
  change (if a ≤ b then a else b).toInt = _
  split <;> simp_all only [le_iff] <;> omega

theorem toInt_max (a b : TokenCode) : (max a b).toInt = max a.toInt b.toInt := by
  change (if a ≤ b then b else a).toInt = _
  split <;> simp_all only [le_iff] <;> omega

end TokenCode

end SyntaxRecovery
