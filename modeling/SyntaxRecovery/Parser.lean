import SyntaxRecovery.Recovery.Repair

/-!
# Parsers

A parser goes through a transition network along its input. Whoever drives it says which rule is
entered and left and which token is to come; the parser keeps the call stack, repairs single tokens
and resynchronizes after errors. `Action` has the driver's calls as data, so that a parse is a list of
actions.
-/

set_option autoImplicit false

namespace SyntaxRecovery

/-- A parser. -/
structure Parser (κ : Type) where
  /-- The grammar. -/
  network : Network
  /-- Names of the rules. -/
  ruleNames : Array String := #[]
  /-- Names of the token codes. -/
  vocabulary : Vocabulary := {}
  /-- How errors are to be handled. -/
  policy : Policy := {}
  /-- The rules being parsed. -/
  stack : CallStack := ∅
  /-- State of the network. -/
  state : StateRef := none
  /-- Input, diagnostics and memory. -/
  session : Session κ

/-- What a driver tells a parser. -/
inductive Action where
  /-- A rule begins. -/
  | enter (rule : Nat)
  /-- The current rule ends. -/
  | leave
  /-- The parser is in a state. -/
  | goto (state : StateRef)
  /-- A token with a code is to come. -/
  | accept (code : TokenCode)
  /-- The rule cannot go on because of an error. -/
  | fail (e : SyntaxError)
  /-- A decision is at hand. -/
  | sync
  /-- A new parse begins at the position reached. -/
  | reset

namespace Parser

variable {κ : Type} [Cursor κ]

/-- Where the parser stands. -/
def site (p : Parser κ) : Site Network :=
  { grammar := p.network
    stack := p.stack
    state := p.state
    context := p.stack.current
    ruleNames := p.ruleNames
    vocabulary := p.vocabulary }

/-- Enters a rule, called from the current state unless it is the first, and goes to its start. -/
def enter (p : Parser κ) (rule : Nat) : Parser κ :=
  -- the rule parsing begins with has no caller, whatever the state
  let invoking := if p.stack.isEmpty then none else p.state
  { p with
    stack := (p.stack.push rule invoking).2
    state := (p.network.start? rule).getD none }

/-- Leaves the current rule and goes back to the state that called it. -/
def leave (p : Parser κ) : Parser κ :=
  match p.stack.pop? with
  | some (f, stack) => { p with stack, state := f.invoking }
  | none => p

/-- Goes to a state. -/
def goto (p : Parser κ) (state : StateRef) : Parser κ := { p with state }

/-- The error that no alternative fits at the current token. -/
def noViableAlternative (p : Parser κ) : SyntaxError :=
  { cause := .noViableAlternative, token := p.session.current? }

/-- Reads a token with a code, or repairs the input where another stands. -/
def accept (p : Parser κ) (code : TokenCode) : Noted (Except SyntaxError Token × Parser κ) :=
  match p.session.current? with
  | some t =>
    if t.code = code then pure (.ok t, { p with session := p.session.endRecovery.advance })
    else repair
  | none => repair
where
  /-- Leaves the token to the repair. -/
  repair : Noted (Except SyntaxError Token × Parser κ) := do
    let (result, session) ← p.session.repair p.policy p.site
    pure (result, { p with session })

/-- Reports an error and resynchronizes. -/
def fail (p : Parser κ) (e : SyntaxError) : Noted (Parser κ) := do
  let session ← p.session.report p.site e
  let session ← session.resynchronize p.policy p.site
  pure { p with session }

/-- Checks the input before a decision; nothing has to be done. -/
def sync (p : Parser κ) : Parser κ := p

/-- Begins a new parse at the position reached: no rule, no state, no diagnostics, no memory. -/
def reset (p : Parser κ) : Parser κ :=
  { p with
    stack := ∅
    state := none
    session := { input := p.session.input } }

/-- Does what the driver says; gives the outcome where a token was to come. -/
def perform (p : Parser κ) : Action → Noted (Option (Except SyntaxError Token) × Parser κ)
  | .enter rule => pure (none, p.enter rule)
  | .leave => pure (none, p.leave)
  | .goto state => pure (none, p.goto state)
  | .accept code => (fun (result, p) => (some result, p)) <$> p.accept code
  | .fail e => (fun p => (none, p)) <$> p.fail e
  | .sync => pure (none, p.sync)
  | .reset => pure (none, p.reset)

/-- Does what the driver says, action by action; gives the outcomes of those with one. -/
def run (p : Parser κ) : List Action → Noted (List (Except SyntaxError Token) × Parser κ)
  | [] => pure ([], p)
  | a :: rest => do
    let (result, p) ← p.perform a
    let (results, p) ← p.run rest
    pure (result.toList ++ results, p)

end Parser

end SyntaxRecovery
