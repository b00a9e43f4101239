import Mathlib
import SyntaxRecovery.Proofs.CallStack.OpenCalls
import SyntaxRecovery.Proofs.Recovery.Deliveries
import SyntaxRecovery.Proofs.Recovery.Landing

/-!
# What an error leaves of the call chain

Reading, repairing, reporting and resynchronizing change the session of a parser and nothing else of it
(`Parser.stack_perform`). So what a driver says within a rule changes the call stack only by the rules
that it enters and leaves meanwhile, and if these are nested, they go as they came
(`Parser.stack_run`). Whatever errors there are in a rule, once it is left the stack is frame for frame
what it was before, and the parser is back in the state from which the rule was entered
(`Parser.run_of_nested_rule`).
-/

set_option autoImplicit false

namespace SyntaxRecovery

/-! ## Nested actions -/

/-- Whether an action is about the rule being parsed, and not about the beginning or end of one. -/
def Action.staysInRule : Action → Bool
  | .goto _ | .accept _ | .fail _ | .sync => true
  | .enter _ | .leave | .reset => false

/-- The actions of a driver within a rule: such as stay in it, and whole rules that are entered and left
again. -/
inductive Nesting : List Action → Prop
  | done : Nesting []
  | stay {a : Action} {rest : List Action} : a.staysInRule = true → Nesting rest → Nesting (a :: rest)
  | rule {body rest : List Action} (rule : Nat) : Nesting body → Nesting rest →
      Nesting (.enter rule :: (body ++ .leave :: rest))

namespace CallStack

/-- A stack is told by its frames. -/
theorem eq_of_frames_eq {s t : CallStack} (h : s.frames = t.frames) : s = t := by
  cases s
  cases t
  cases h
  rfl

/-- What has been pushed is popped again. -/
theorem pop?_push (s : CallStack) (rule : Nat) (invoking : StateRef) :
    (s.push rule invoking).2.pop? = some ({ rule, invoking, parent := s.current }, s) := by
  have hlast : (s.push rule invoking).2.frames.back? =
      some { rule, invoking, parent := s.current } := by
    rw [frames_push, Array.back?_push]
  rw [pop?]
  split
  · next f hf =>
    rw [hlast] at hf
    cases hf
    congr 2
    apply eq_of_frames_eq
    exact Array.pop_push
  · next hf =>
    rw [hlast] at hf
    cases hf

end CallStack

namespace Parser

variable {κ : Type} [Cursor κ] {p : Parser κ} {a : Action} {actions body : List Action}

/-! ## The stack within a rule -/

/-- What stays in a rule leaves the stack alone, whether it goes well or not. -/
theorem stack_perform (ha : a.staysInRule = true) : (p.perform a).value.2.stack = p.stack := by
  cases a with
  | accept code =>
    obtain ⟨session, haccept⟩ := p.exists_accept_eq code
    exact congrArg (fun q => q.stack) haccept
  | goto state => rfl
  | fail e => rfl
  | sync => rfl
  | enter rule => cases ha
  | leave => cases ha
  | reset => cases ha

omit [Cursor κ] in
/-- To leave a rule just entered, whatever has happened meanwhile, is to be back where it was entered. -/
theorem leave_of_stack_eq {q : Parser κ} {rule : Nat} (h : q.stack = (p.enter rule).stack) :
    q.leave.stack = p.stack ∧ q.leave.state = if p.stack.isEmpty then none else p.state := by
  have hpop := p.stack.pop?_push rule (if p.stack.isEmpty then none else p.state)
  change (p.enter rule).stack.pop? = _ at hpop
  rw [leave, h, hpop]
  exact ⟨rfl, rfl⟩

theorem run_enter_leave (p : Parser κ) (rule : Nat) (body rest : List Action) :
    (p.run (.enter rule :: (body ++ .leave :: rest))).value.2 =
      ((((p.enter rule).run body).value.2.leave).run rest).value.2 := by
  change ((p.enter rule).run (body ++ .leave :: rest)).value.2 = _
  rw [run_append]
  rfl

/-- Within a rule the stack comes back to what it was. -/
theorem stack_run (h : Nesting actions) : (p.run actions).value.2.stack = p.stack := by
  induction h generalizing p with
  | done => rfl
  | stay ha _ ih => exact ih.trans (stack_perform ha)
  | rule r _ _ ihbody ihrest =>
    rw [run_enter_leave, ihrest]
    exact (leave_of_stack_eq ihbody).1

/-- Up to any point within a rule the stack has at its bottom the frames that it had at first. -/
theorem frames_run_of_prefix {part : List Action} (h : Nesting actions) (hpart : part <+: actions) :
    p.stack.frames.toList <+: (p.run part).value.2.stack.frames.toList := by
  induction h generalizing p part with
  | done =>
    rw [List.prefix_nil] at hpart
    rw [hpart]
    exact List.prefix_rfl
  | @stay a rest ha _ ih =>
    rcases List.prefix_cons_iff.1 hpart with rfl | ⟨part, rfl, hrest⟩
    · exact List.prefix_rfl
    · have hrest := ih (p := (p.perform a).value.2) hrest
      rw [stack_perform ha] at hrest
      exact hrest
  | @rule body rest r hbody _ ihbody ihrest =>
    rcases List.prefix_cons_iff.1 hpart with rfl | ⟨part, rfl, hpart'⟩
    · exact List.prefix_rfl
    · have hpushed : p.stack.frames.toList <+: (p.enter r).stack.frames.toList := by
        change _ <+: (p.stack.push r _).2.frames.toList
        rw [CallStack.frames_push, Array.toList_push]
        exact List.prefix_append _ _
      rcases List.prefix_or_prefix_of_prefix hpart' (List.prefix_append body _) with hin | hout
      · -- the inner rule has not been left
        exact hpushed.trans (ihbody (p := p.enter r) hin)
      · -- it has been left, or is just to be left, and what follows begins with the old stack
        obtain ⟨part, rfl⟩ := hout
        rw [List.prefix_append_right_inj] at hpart'
        rcases List.prefix_cons_iff.1 hpart' with rfl | ⟨part, rfl, hrest⟩
        · rw [List.append_nil]
          exact hpushed.trans (ihbody (p := p.enter r) List.prefix_rfl)
        · have hrest := ihrest (p := ((p.enter r).run body).value.2.leave) hrest
          rw [(leave_of_stack_eq (stack_run hbody)).1] at hrest
          rw [run_enter_leave]
          exact hrest

/-- A rule that is entered while another is being parsed, and left after actions that are nested in it,
with whatever matches, failures, repairs and resynchronizations among them. Then the stack is frame for
frame what it was before the rule was entered, and the parser is in the state in which it was then. Up
to any point in between, the frames of that stack and the one of the rule lie at the bottom. -/
theorem run_of_nested_rule (hopen : p.stack.isEmpty = false) (hbody : Nesting body) (rule : Nat) :
    let q := (p.run (.enter rule :: (body ++ [.leave]))).value.2
    q.stack = p.stack ∧ q.state = p.state ∧
    ∀ part, part <+: body →
      (p.enter rule).stack.frames.toList <+:
        (p.run (.enter rule :: part)).value.2.stack.frames.toList := by
  intro q
  have hleave := leave_of_stack_eq (p := p) (stack_run (p := p.enter rule) hbody)
  rw [hopen] at hleave
  have hq : q = ((p.enter rule).run body).value.2.leave := run_enter_leave p rule body []
  rw [hq]
  refine ⟨hleave.1, hleave.2, ?_⟩
  intro part hpart
  exact frames_run_of_prefix (p := p.enter rule) hbody hpart

/-- What a driver says within an item: a token is dropped before the name is read, the item fails, and
in a list that is entered and left again the `';'` cannot be read. -/
def itemBody : List Action :=
  [.accept 1, .fail noAlternative, .goto (reference 3),
    .enter 0, .goto (reference 4), .accept 3, .sync, .leave]

/-- The same with the item entered before and left after it. -/
def itemDriver : List Action := .enter 1 :: (itemBody ++ [.leave])

/-- The item is left with an error reported and all input passed, but with the stack and the state from
before. -/
theorem run_of_nested_rule_item :
    itemParser.stack.isEmpty = false ∧ Nesting itemBody ∧
      ((itemParser.run itemDriver).value.1.map fun r => r.isOk) = [true, false] ∧
      (itemParser.run itemDriver).value.2.session.tally = 1 ∧
      (itemParser.run itemDriver).value.2.session.input.position = 2 ∧
      (itemParser.run itemDriver).value.2.stack = itemParser.stack ∧
      (itemParser.run itemDriver).value.2.state = reference 2 := by
  have hread : ((itemParser.run itemDriver).value.1.map fun r => r.isOk) = [true, false] := by cbv
  have htally : (itemParser.run itemDriver).value.2.session.tally = 1 := by cbv
  have hposition : (itemParser.run itemDriver).value.2.session.input.position = 2 := by cbv
  have hinner : Nesting [.goto (reference 4), .accept 3, .sync] :=
    .stay rfl (.stay rfl (.stay rfl .done))
  have hbody : Nesting itemBody := .stay rfl (.stay rfl (.stay rfl (.rule 0 hinner .done)))
  have hopen : itemParser.stack.isEmpty = false := by decide
  obtain ⟨hstack, hstate, -⟩ := run_of_nested_rule (p := itemParser) hopen hbody 1
  exact ⟨hopen, hbody, hread, htally, hposition, hstack, hstate⟩

end Parser

end SyntaxRecovery
