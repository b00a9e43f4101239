import Mathlib
import SyntaxRecovery.Proofs.Lookahead.Frames
import SyntaxRecovery.Proofs.Recovery.Insertion
import SyntaxRecovery.Proofs.Recovery.Landing

/-!
# Drivers that enter rules where they are called

A driver is disciplined if it enters each rule but the first in a state that begins with a call
(`Parser.disciplined`). Then every frame but the outermost was pushed in a state to which the parser
can return, and its caller is the frame below it (`Network.Nested`); no action of a disciplined driver
changes that. A search that begins in such a frame comes to no end of a rule of which nothing says
what follows, so the marker of a rule's end is never expected and no token of that code is made up
(`Parser.expected_of_disciplined`).
-/

set_option autoImplicit false

namespace SyntaxRecovery

open Relation

namespace Network

variable {net : Network} {frames : CallStack} {invoking : StateRef} {p q : Place}

/-! ## Nested frames -/

theorem returnState?_none : net.returnState? none = none := rfl

/-- The outermost frame was pushed in no state. Every other one was pushed in a state that begins with
a call, by the frame below it. -/
structure Nested (net : Network) (frames : CallStack) : Prop where
  outermost : ∀ f, frames.frames[0]? = some f → f.invoking = none
  inner : ∀ i f, frames.frames[i + 1]? = some f →
    f.parent = referTo i ∧ (net.returnState? f.invoking).isSome = true

theorem nested_empty (net : Network) : net.Nested ∅ := by
  constructor
  · intro f hf
    cases hf
  · intro i f hf
    cases hf

/-- Only the outermost frame was pushed in no state. -/
theorem Nested.isOutermost_iff (h : net.Nested frames) {i : Nat} {f : Frame}
    (hf : frames.frames[i]? = some f) : f.isOutermost = true ↔ i = 0 := by
  cases i with
  | zero =>
    apply iff_of_true
    · rw [Frame.isOutermost, h.outermost f hf]
      rfl
    · rfl
  | succ i =>
    refine iff_of_false ?_ (Nat.succ_ne_zero i)
    intro hout
    obtain ⟨-, hcall⟩ := h.inner i f hf
    rw [Option.isNone_iff_eq_none.1 hout, returnState?_none] at hcall
    exact Bool.false_ne_true hcall

/-- Frames that are nested are so without the innermost ones. -/
theorem Nested.mono {fewer : CallStack} (h : net.Nested frames)
    (hfewer : ∀ (i : Nat) (f : Frame), fewer.frames[i]? = some f → frames.frames[i]? = some f) :
    net.Nested fewer := by
  constructor
  · intro f hf
    exact h.outermost f (hfewer 0 f hf)
  · intro i f hf
    exact h.inner i f (hfewer (i + 1) f hf)

/-- A push keeps frames nested if it is the first, made in no state, or made in a state that begins
with a call. -/
theorem Nested.push (h : net.Nested frames) (rule : Nat)
    (hfirst : frames.isEmpty = true → invoking = none)
    (hcall : frames.isEmpty = false → (net.returnState? invoking).isSome = true) :
    net.Nested (frames.push rule invoking).2 := by
  have hframes : (frames.push rule invoking).2.frames =
    frames.frames.push { rule, invoking, parent := frames.current } := rfl
  constructor
  · intro f hf
    rw [hframes, Array.getElem?_push] at hf
    split at hf
    · next hsize =>
      cases hf
      exact hfirst (Array.isEmpty_iff_size_eq_zero.2 hsize.symm)
    · exact h.outermost f hf
  · intro i f hf
    rw [hframes, Array.getElem?_push] at hf
    split at hf
    · next hsize =>
      cases hf
      constructor
      · -- the current frame is the last one, just below the new one
        rw [CallStack.current, CallStack.depth, ← hsize, if_neg (Nat.succ_ne_zero i)]
        rfl
      · apply hcall
        rw [CallStack.isEmpty, Bool.eq_false_iff]
        intro hnone
        rw [Array.isEmpty_iff_size_eq_zero, ← hsize] at hnone
        exact Nat.succ_ne_zero i hnone
    · exact h.inner i f hf

theorem Nested.pop (h : net.Nested frames) {f : Frame} {fewer : CallStack}
    (hpop : frames.pop? = some (f, fewer)) : net.Nested fewer := by
  apply h.mono
  intro i g hg
  rw [CallStack.pop?] at hpop
  split at hpop
  · cases hpop
    rw [Array.getElem?_pop] at hg
    split at hg
    · exact hg
    · cases hg
  · cases hpop

/-! ## Searches from nested frames -/

/-- A place lies in a rule of which there is a frame. -/
def Framed (frames : CallStack) (p : Place) : Prop := ∃ f, frames.get? p.base = some f

theorem framed_current (hframe : frames.isEmpty = false) (hdepth : frames.depth ≤ slotCount)
    (x : StateRef) (σ : List StateRef) : Framed frames ⟨x, σ, frames.current⟩ := by
  have hpos : 0 < frames.depth := by
    rw [CallStack.isEmpty, Bool.eq_false_iff, Ne, Array.isEmpty_iff_size_eq_zero] at hframe
    exact Nat.pos_of_ne_zero hframe
  have hlast : frames.depth - 1 < slotCount := by omega
  have hcurrent : frames.current = some ⟨frames.depth - 1, hlast⟩ := by
    rw [CallStack.current, if_neg (Nat.ne_of_gt hpos), referTo_of_lt hlast]
  have hsize : frames.depth - 1 < frames.frames.size := Nat.pred_lt_of_lt hpos
  refine ⟨frames.frames[frames.depth - 1], ?_⟩
  rw [hcurrent]
  exact Array.getElem?_eq_getElem hsize

/-- The caller of a frame that some state pushed is the frame below it. -/
theorem Nested.get?_parent (h : net.Nested frames) {b : FrameRef} {f : Frame}
    (hf : frames.get? b = some f) (hin : f.isOutermost = false) :
    (net.returnState? f.invoking).isSome = true ∧ ∃ g, frames.get? f.parent = some g := by
  cases b with
  | none => cases hf
  | some slot =>
    obtain ⟨i, hi⟩ := slot
    have hf : frames.frames[i]? = some f := hf
    cases i with
    | zero =>
      rw [(h.isOutermost_iff hf).2 rfl] at hin
      exact absurd hin.symm Bool.false_ne_true
    | succ i =>
      obtain ⟨hparent, hcall⟩ := h.inner i f hf
      have hslot : i < slotCount := Nat.lt_of_succ_lt hi
      obtain ⟨hsize, -⟩ := Array.getElem?_eq_some_iff.1 hf
      have hbelow : i < frames.frames.size := Nat.lt_of_succ_lt hsize
      refine ⟨hcall, frames.frames[i], ?_⟩
      rw [hparent, referTo_of_lt hslot]
      exact Array.getElem?_eq_getElem hbelow

theorem Framed.walk (hnested : net.Nested frames) (hp : Framed frames p)
    (hwalk : net.Walk frames p q) : Framed frames q := by
  induction hwalk with
  | refl => exact hp
  | tail _ hstep ih =>
    cases hstep with
    | free _ _ => exact ih
    | call _ _ => exact ih
    | ret _ => exact ih
    | leave _ hf hin _ => exact (hnested.get?_parent hf hin).2

/-- At the end of a rule of which there is a frame, it is known what follows. -/
theorem Framed.not_offers_ruleEnd (hnested : net.Nested frames) (hunmarked : net.Unmarked)
    (hp : Framed frames p) : ¬ net.Offers frames p .ruleEnd := by
  intro hoffer
  obtain ⟨g, hg⟩ := hp
  -- a split by cases does not tell two codes apart by itself
  generalize hk : TokenCode.ruleEnd = k at hoffer
  cases hoffer with
  | label he hcodes hmem =>
    rw [← hk] at hmem
    exact hunmarked.not_reads _ ⟨_, _, he, hcodes, hmem⟩
  | noFrame _ hnone =>
    rw [hnone] at hg
    cases hg
  | outermost _ _ _ => exact absurd hk (by decide)
  | noReturn _ hf hin hreturn =>
    obtain ⟨hcall, -⟩ := hnested.get?_parent hf hin
    rw [hreturn] at hcall
    exact Bool.false_ne_true hcall

/-- From a state whose rule has a frame the marker of a rule's end is not seen. -/
theorem ruleEnd_not_mem_lookahead (hnested : net.Nested frames) (hunmarked : net.Unmarked)
    {x : StateRef} {b : FrameRef} (hframed : Framed frames ⟨x, [], b⟩) :
    TokenCode.ruleEnd ∉ (net.lookahead frames x b).value := by
  intro hmem
  obtain ⟨d, hreach, hoffer⟩ := meets_of_mem_lookahead hmem
  have hd : Framed frames d.place := hframed.walk hnested hreach.walk
  exact hd.not_offers_ruleEnd hnested hunmarked hoffer

end Network

namespace Parser

variable {κ : Type} [Cursor κ] {p : Parser κ} {a : Action} {actions : List Action}

/-! ## Disciplined drivers -/

/-- Whether a disciplined driver may say this to a parser: a rule is entered from a rule being parsed
only in a state that begins with a call. -/
def allows (p : Parser κ) : Action → Bool
  | .enter _ => p.stack.isEmpty || (p.network.returnState? p.state).isSome
  | _ => true

/-- Whether a driver is disciplined. -/
def disciplined (p : Parser κ) : List Action → Bool
  | [] => true
  | a :: rest => p.allows a && (p.perform a).value.2.disciplined rest

theorem network_perform (p : Parser κ) (a : Action) : (p.perform a).value.2.network = p.network := by
  obtain ⟨stack, state, session, hperform⟩ := p.exists_perform_eq a
  rw [hperform]

theorem network_run (p : Parser κ) (actions : List Action) :
    (p.run actions).value.2.network = p.network := by
  refine run_keeps (P := fun q => q.network = p.network) ?_ rfl actions
  intro q a hq
  exact (network_perform q a).trans hq

/-- An action that a disciplined driver takes keeps the frames nested. -/
theorem nested_perform (h : p.network.Nested p.stack) (ha : p.allows a = true) :
    p.network.Nested (p.perform a).value.2.stack := by
  cases a with
  | enter rule =>
    change p.network.Nested (p.stack.push rule (if p.stack.isEmpty then none else p.state)).2
    apply h.push
    · intro hempty
      rw [if_pos hempty]
    · intro hframe
      rw [allows, hframe, Bool.false_or] at ha
      rw [hframe]
      exact ha
  | leave =>
    change p.network.Nested p.leave.stack
    rw [leave]
    split
    · next f fewer hpop => exact h.pop hpop
    · exact h
  | accept code =>
    obtain ⟨session, haccept⟩ := p.exists_accept_eq code
    have hstack : (p.perform (.accept code)).value.2.stack = p.stack :=
      congrArg (fun q => q.stack) haccept
    rw [hstack]
    exact h
  | reset => exact Network.nested_empty p.network
  | goto state => exact h
  | fail e => exact h
  | sync => exact h

/-- A run of a disciplined driver keeps the frames nested. -/
theorem nested_run (h : p.network.Nested p.stack) (hdisciplined : p.disciplined actions = true) :
    p.network.Nested (p.run actions).value.2.stack := by
  induction actions generalizing p with
  | nil => exact h
  | cons a actions ih =>
    rw [disciplined, Bool.and_eq_true] at hdisciplined
    obtain ⟨ha, hrest⟩ := hdisciplined
    have hstep := nested_perform h ha
    -- the network is that of the parser which the first action leaves
    rw [← network_perform p a] at hstep ⊢
    exact ih hstep hrest

/-- With a disciplined driver and in a network in which no edge reads the marker of a rule's end, the
first rule entered is the only one that no state called. While a rule is being parsed, and there are
no more frames than references, the marker is expected in no state, and no token made up there has its
code. -/
theorem expected_of_disciplined (hunmarked : p.network.Unmarked) (hempty : p.stack.isEmpty = true)
    (hdisciplined : p.disciplined actions = true) :
    let q := (p.run actions).value.2
    (∀ i f, q.stack.frames[i]? = some f → (f.isOutermost = true ↔ i = 0)) ∧
    (q.stack.isEmpty = false → q.stack.depth ≤ slotCount → ∀ state,
      let site := (q.goto state).site
      TokenCode.ruleEnd ∉ site.expected.value ∧
      ∀ s : Session κ, (s.madeUpToken site site.expected.value).code ≠ .ruleEnd) := by
  intro q
  have hstart : p.network.Nested p.stack := by
    -- a stack without frames is nested like the empty one
    apply (Network.nested_empty p.network).mono
    intro i f hf
    rw [CallStack.isEmpty, Array.isEmpty_iff] at hempty
    rw [hempty] at hf
    exact hf
  have hnested : p.network.Nested q.stack := nested_run hstart hdisciplined
  refine ⟨?_, ?_⟩
  · intro i f hf
    exact hnested.isOutermost_iff hf
  · intro hframe hdepth state site
    have hnetwork : q.network = p.network := network_run p actions
    have hmark : TokenCode.ruleEnd ∉ site.expected.value := by
      change TokenCode.ruleEnd ∉ (q.network.lookahead q.stack state q.stack.current).value
      rw [hnetwork]
      exact Network.ruleEnd_not_mem_lookahead hnested hunmarked
        (Network.framed_current hframe hdepth state [])
    refine ⟨hmark, ?_⟩
    intro s
    have hcode : (s.madeUpToken site site.expected.value).code =
      site.expected.value.min?.getD .absent := rfl
    rw [hcode]
    intro hend
    rcases Session.min?_getD_cases site.expected.value with ⟨hmem, -⟩ | ⟨-, habsent⟩
    · exact hmark (hend ▸ hmem)
    · rw [habsent] at hend
      exact absurd hend (by decide)

/-- A parser of lists before a `';'`. -/
def listParser : Parser TokenStream := { network := .lists, session := { input := .ofCodes [2] } }

/-- A driver that enters a line, a list in it and a list in that, fails there, and comes to the end of
the innermost list. -/
def listDriver : List Action :=
  [.enter 1, .enter 0, .enter 0, .accept 1, .fail noAlternative, .goto (reference 1)]

/-- Only a name can come there, for the list goes on in a list. -/
theorem expected_at_end_of_list :
    let q := (listParser.run listDriver).value.2
    listParser.network.Unmarked ∧ listParser.stack.isEmpty = true ∧
      listParser.disciplined listDriver = true ∧ q.stack.depth = 3 ∧
      (∀ i f, q.stack.frames[i]? = some f → (f.isOutermost = true ↔ i = 0)) ∧
      q.site.expected.value = {1} ∧ TokenCode.ruleEnd ∉ q.site.expected.value ∧
      (q.session.madeUpToken q.site q.site.expected.value).code ≠ .ruleEnd := by
  intro q
  have hdriver : listParser.disciplined listDriver = true := by cbv
  have hdepth : q.stack.depth = 3 := by cbv
  have hframe : q.stack.isEmpty = false := by cbv
  have hexpected : q.site.expected.value = {1} := by cbv
  obtain ⟨houtermost, hmarker⟩ := expected_of_disciplined Network.lists_unmarked rfl hdriver
  obtain ⟨hmark, hcode⟩ := hmarker hframe (hdepth ▸ by decide) (reference 1)
  exact ⟨Network.lists_unmarked, rfl, hdriver, hdepth, houtermost, hexpected, hmark,
    hcode q.session⟩

/-- A driver that enters a list in a state that calls none sees the marker. -/
example : TokenCode.ruleEnd ∈
    (listParser.run [.enter 1, .goto (reference 4), .enter 0]).value.2.site.expected.value := by
  cbv

end Parser

end SyntaxRecovery
