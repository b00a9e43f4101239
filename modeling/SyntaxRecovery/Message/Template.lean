/-!
# Message templates

A template is text with numbered placeholders, an opening brace, decimal digits and a closing brace.
`Template.fill` goes over the template once from left to right and puts argument `n` in the place of
placeholder `n`. It never looks into an argument, and an opening brace that starts no placeholder of
an argument at hand stands for itself.
-/

set_option autoImplicit false

namespace SyntaxRecovery

namespace Template

/-- The argument named after an opening brace and the text behind the placeholder: digits, a closing
brace, and an argument with that number. -/
def placeholder? (args : List (List Char)) (l : List Char) : Option (List Char × List Char) :=
  match l.takeWhile Char.isDigit, l.dropWhile Char.isDigit with
  | d :: ds, '}' :: rest => (args[Nat.ofDigitChars 10 (d :: ds) 0]?).map fun arg => (arg, rest)
  | _, _ => none

theorem length_lt_of_placeholder? {args : List (List Char)} {l arg rest : List Char}
    (h : placeholder? args l = some (arg, rest)) : rest.length < l.length := by
  have hlen := congrArg List.length (List.takeWhile_append_dropWhile (p := Char.isDigit) (l := l))
  unfold placeholder? at h
  split at h
  · next d ds after htake hdrop =>
    obtain ⟨a, -, heq⟩ := Option.map_eq_some_iff.1 h
    cases heq
    rw [htake, hdrop] at hlen
    simp only [List.length_append, List.length_cons] at hlen
    omega
  · cases h

/-- The characters of a template with its placeholders filled. -/
def fillChars (args : List (List Char)) : List Char → List Char
  | [] => []
  | c :: rest =>
    if c = '{' then
      match h : placeholder? args rest with
      | some (arg, after) =>
        have := length_lt_of_placeholder? h
        arg ++ fillChars args after
      | none => c :: fillChars args rest
    else c :: fillChars args rest
termination_by l => l.length
decreasing_by all_goals simp only [List.length_cons]; omega

/-- A template with its placeholders filled. -/
def fill (template : String) (args : List String) : String :=
  String.ofList (fillChars (args.map String.toList) template.toList)

end Template

end SyntaxRecovery
