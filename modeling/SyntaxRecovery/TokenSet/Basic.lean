import SyntaxRecovery.TokenSet.Span

/-!
# Sets of token codes

A set is the canonical list of its spans, so two sets with the same members are the same value. The
operations add and take out codes, ranges and whole sets; `TokenSet.Edit` has them as data, so that
a history of a set is a list of edits.
-/

set_option autoImplicit false

namespace SyntaxRecovery

/-- A set of token codes. -/
structure TokenSet where
  /-- The maximal ranges of members, ascending. -/
  spans : List Span
  /-- The list is the canonical one. -/
  canonical : Span.Canonical spans
deriving DecidableEq

namespace TokenSet

instance : EmptyCollection TokenSet := ⟨⟨[], Span.canonical_nil⟩⟩

instance : Inhabited TokenSet := ⟨∅⟩

/-- Whether a code is a member. -/
def contains (s : TokenSet) (c : TokenCode) : Bool := Span.within c s.spans

instance : Membership TokenCode TokenSet where
  mem s c := s.contains c = true

instance (c : TokenCode) (s : TokenSet) : Decidable (c ∈ s) :=
  inferInstanceAs (Decidable (s.contains c = true))

/-- Adds the codes from `lo` to `hi`, both included; none if `hi < lo`. -/
def insertRange (s : TokenSet) (lo hi : TokenCode) : TokenSet :=
  if h : lo ≤ hi then ⟨Span.join lo hi s.spans, Span.join_canonical h s.canonical⟩ else s

/-- Adds one code. -/
def insert (s : TokenSet) (c : TokenCode) : TokenSet := s.insertRange c c

/-- Adds the codes of a list. -/
def insertMany (s : TokenSet) (l : List TokenCode) : TokenSet := l.foldl insert s

/-- Adds the members of another set, one span after the other. -/
def union (s t : TokenSet) : TokenSet :=
  t.spans.foldl (fun u r => u.insertRange r.lo r.hi) s

instance : Union TokenSet := ⟨union⟩

/-- Takes out one code. -/
def erase (s : TokenSet) (c : TokenCode) : TokenSet :=
  ⟨Span.drop c s.spans, Span.drop_canonical s.canonical⟩

/-- The set whose only member is `c`. -/
def singleton (c : TokenCode) : TokenSet := insert ∅ c

instance : Singleton TokenCode TokenSet := ⟨singleton⟩

/-- The codes from `lo` to `hi`, both included. -/
def range (lo hi : TokenCode) : TokenSet := insertRange ∅ lo hi

/-- The set of the codes in a list. -/
def ofList (l : List TokenCode) : TokenSet := insertMany ∅ l

/-- Whether there is no member. -/
def isEmpty (s : TokenSet) : Bool := s.spans.isEmpty

/-- Number of members. -/
def size (s : TokenSet) : Nat := s.spans.foldr (fun r n => r.size + n) 0

/-- The least member. -/
def min? (s : TokenSet) : Option TokenCode := s.spans.head?.map Span.lo

/-- The first `n` members, or all of them if there are fewer, in ascending order. -/
def take (s : TokenSet) (n : Nat) : List TokenCode := Span.takeCodes n s.spans

/-- All members in ascending order. -/
def toList (s : TokenSet) : List TokenCode := s.take s.size

/-- A change to a set. -/
inductive Edit where
  /-- Add one code. -/
  | insert (c : TokenCode)
  /-- Add a range, empty if it is inverted. -/
  | insertRange (lo hi : TokenCode)
  /-- Add the codes of a list. -/
  | insertMany (l : List TokenCode)
  /-- Add the members of a set. -/
  | union (t : TokenSet)
  /-- Take out one code. -/
  | erase (c : TokenCode)

/-- The set after a change. -/
def apply (s : TokenSet) : Edit → TokenSet
  | .insert c => s.insert c
  | .insertRange lo hi => s.insertRange lo hi
  | .insertMany l => s.insertMany l
  | .union t => s ∪ t
  | .erase c => s.erase c

/-- The set after a list of changes, made in order. -/
def applyAll (s : TokenSet) (edits : List Edit) : TokenSet := edits.foldl apply s

end TokenSet

end SyntaxRecovery
